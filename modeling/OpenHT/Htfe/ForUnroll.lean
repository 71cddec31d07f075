import OpenHT.Htfe.ForReplay

/-!
# A loop is played back as its unrolling

During a recording the scanner moves as it does without the recording, until the statement ends.

* `next_recording`, `nextTokens_recording`: the recording of a statement.
* `Ready`: the scanner after a recording.
* `removeLast_source`, `removeLast_iteration`: the token after the statement.
* `forStatement_idle`: the stream after a loop has the unrolling in the place of the statement.
* `playback_unrolls`: runs.
-/

namespace OpenHT.Htfe.Playback

open CInt CInt.IntType Htl

/-! ## A statement of the stream -/

namespace TokStream

variable {q : TokStream}

theorem next_of_ahead {t : Tok} {ts : List Tok} (h : q.ahead = t :: ts) : q.next = { q.dropAhead 1 with cur := t } := by
  obtain ⟨cur, iters, source⟩ := q
  cases iters with
  | nil =>
    have hsource : source = t :: ts := h
    rw [hsource]
    rfl
  | cons it iters =>
    have hit : it = t :: ts := h
    rw [hit]
    rfl

theorem ahead_dropAhead (q : TokStream) (k : ℕ) : (q.dropAhead k).ahead = q.ahead.drop k := by
  obtain ⟨cur, iters, source⟩ := q
  cases iters <;> rfl

theorem dropAhead_cur (q : TokStream) (k : ℕ) (t t' : Tok) :
    { dropAhead k { q with cur := t } with cur := t' } = { q.dropAhead k with cur := t' } := by
  obtain ⟨cur, iters, source⟩ := q
  cases iters <;> rfl

theorem dropAhead_zero (q : TokStream) : q.dropAhead 0 = q := by
  obtain ⟨cur, iters, source⟩ := q
  cases iters <;> rfl

theorem dropAhead_succ (q : TokStream) (k : ℕ) : (q.dropAhead 1).dropAhead k = q.dropAhead (k + 1) := by
  obtain ⟨cur, iters, source⟩ := q
  cases iters with
  | nil => simp only [dropAhead, List.drop_drop, Nat.add_comm]
  | cons it iters => simp only [dropAhead, List.drop_drop, Nat.add_comm]

theorem iters_dropAhead (q : TokStream) (k : ℕ) : (q.dropAhead k).iters = [] ↔ q.iters = [] := by
  obtain ⟨cur, iters, source⟩ := q
  cases iters with
  | nil => exact Iff.rfl
  | cons it iters => exact iff_of_false (List.cons_ne_nil _ _) (List.cons_ne_nil _ _)

end TokStream

namespace CHtfeLex

/-! ## A recording -/

/-- A record whose tokens are being recorded. -/
def push (r : CTokenRecord) (s : CHtfeLex) : CHtfeLex :=
  { s with tokenRecord := s.tokenRecord ++ [r], bTokenRecording := true }

/-- A record with another token at its end. -/
def addToken (r : CTokenRecord) (t : CToken) : CTokenRecord := { r with tokenList := r.tokenList ++ [t] }

section Recording

variable {s : CHtfeLex} {lower : List CTokenRecord} {top : CTokenRecord} (r : CTokenRecord)

theorem recordToken_push (tk : EToken) (buf : Text) :
    ((s.push r).withToken tk buf).recordToken = some ((s.withToken tk buf).push (addToken r ⟨tk, buf⟩)) := by
  simp only [recordToken, CHtfeLex.withToken, push, if_true, updateBack, List.getLast?_concat, List.dropLast_concat,
    Option.bind_eq_bind, Option.bind_some]
  rfl

theorem playing_push (h : s.Idle) (hs : s.tokenRecord = lower ++ [top]) : (s.push r).playing = some top := by
  simp only [playing, push, h.top_level hs, hs]
  rw [if_neg (by omega), Int.toNat_natCast, List.append_assoc, List.getElem?_append_right le_rfl, Nat.sub_self]
  rfl

theorem setPlaying_push (h : s.Idle) (hs : s.tokenRecord = lower ++ [top]) (x : CTokenRecord) :
    (s.push r).setPlaying x = (s.withTop lower x).push r := by
  have hset : (s.tokenRecord ++ [r]).set s.tokenPlaybackLevel.toNat x = lower ++ [x] ++ [r] := by
    rw [h.top_level hs, hs, Int.toNat_natCast, List.append_assoc, List.set_append_right _ _ le_rfl, Nat.sub_self,
      List.append_assoc]
    rfl
  simp only [setPlaying, push, hset, CHtfeLex.withTop]

/-- **From an iteration.** A token is recorded as it is played back. -/
theorem next_iteration (h : s.Idle) (hs : s.tokenRecord = lower ++ [top])
    (hpos : top.playbackPos + 1 ≠ top.tokenList.length) : ∃ tk buf, tk ≠ .eor ∧
      s.getNextToken = some ((s.withTop lower { top with playbackPos := top.playbackPos + 1 }).withToken tk buf) ∧
      ∀ r, (s.push r).getNextToken = some (((s.withTop lower { top with playbackPos := top.playbackPos + 1 }).withToken
        tk buf).push (addToken r ⟨tk, buf⟩)) := by
  have htop := h.playable top (hs ▸ List.mem_append_right _ (List.mem_singleton_self top))
  have hge := htop.pos_ge
  have hlt := htop.pos_lt
  have hlen : (top.playbackPos + 1).toNat < top.tokenList.length := by omega
  have hmem := List.getElem_mem hlen
  have hplay : s.bTokenPlayback = true := by rw [h.playback, decide_eq_true (records_ne_nil hs)]
  have hmoved := htop.withPos (by omega : -1 ≤ top.playbackPos + 1) (by omega)
  obtain ⟨tk, f, hshow, -, -, hkind⟩ := playToken_eq (hmoved.plays top.value List.mem_cons_self _ hmem)
  have hidle := h.withTop hs hmoved
  have htoken : CTokenRecord.playbackToken { top with playbackPos := top.playbackPos + 1 } = some _ :=
    playbackToken_eq (by simp only; omega) (List.getElem?_eq_getElem hlen)
  refine ⟨tk, f s.stringBuf, ?_, ?_, fun r => ?_⟩
  · rintro rfl
    rcases hkind with hkind | hkind
    · exact htop.noEor _ hmem hkind.symm
    · exact EToken.noConfusion hkind
  · rw [getNextToken, nextWithin_token _ hplay (h.top_playing hs) hpos, h.setPlaying_eq hs,
      present_eq (hidle.top_playing rfl) htoken, hshow, Option.bind_some]
    exact recordToken_idle hidle.recording
  · have hplay' : (s.push r).bTokenPlayback = true := hplay
    rw [getNextToken, nextWithin_token _ hplay' (playing_push r h hs) hpos, setPlaying_push r h hs,
      present_eq (playing_push r hidle rfl) htoken, hshow, Option.bind_some]
    exact recordToken_push r tk (f s.stringBuf)

/-- **From the source.** -/
theorem next_source (h : s.Idle) (hnil : s.tokenRecord = []) :
    s.getNextToken = some s.getNextToken2 ∧ (s.push r).getNextToken =
      some (s.getNextToken2.push (addToken r ⟨s.getNextToken2.token, s.getNextToken2.stringBuf⟩)) := by
  have hplay : s.bTokenPlayback = false := by rw [h.playback, hnil]; rfl
  have hcomm : (s.push r).getNextToken2 =
      (s.getNextToken2.push r).withToken s.getNextToken2.token s.getNextToken2.stringBuf := by
    simp only [getNextToken2, push]
    split <;> rfl
  refine ⟨?_, ?_⟩
  · rw [getNextToken, nextWithin_source _ hplay]
    exact recordToken_idle (getNextToken2_stream h hnil).1.recording
  · have hplay' : (s.push r).bTokenPlayback = false := hplay
    rw [getNextToken, nextWithin_source _ hplay', hcomm, recordToken_push]
    rfl

theorem getNextToken2_noEor (s : CHtfeLex) : s.getNextToken2.token ≠ .eor := by
  rw [getNextToken2]
  split <;> exact fun h => EToken.noConfusion h

theorem iters_eq_nil (s : CHtfeLex) : s.stream.iters = [] ↔ s.tokenRecord = [] := by
  rcases List.eq_nil_or_concat' s.tokenRecord with hnil | ⟨lower, top, hs⟩
  · simp only [stream, hnil, List.reverse_nil, List.flatMap_nil]
  · refine iff_of_false ?_ (records_ne_nil hs)
    simp only [stream, hs, List.reverse_append, List.reverse_singleton, List.flatMap_cons,
      CTokenRecord.iters, List.cons_append]
    exact List.cons_ne_nil _ _

/-- Within a statement, a token is recorded as it is the next one. -/
theorem next_recording (h : s.Idle) (hne : s.stream.ahead ≠ []) : ∃ s' : CHtfeLex, s'.Idle ∧ s'.stream = s.stream.next ∧
    s'.token ≠ .eor ∧ (s'.tokenRecord = [] ↔ s.tokenRecord = []) ∧
    ∀ r, (s.push r).getNextToken = some (s'.push (addToken r ⟨s'.token, s'.stringBuf⟩)) := by
  obtain ⟨s', hs', hidle, hstream⟩ := getNextToken_idle h
  refine ⟨s', hidle, hstream, ?_⟩
  rcases List.eq_nil_or_concat' s.tokenRecord with hnil | ⟨lower, top, hs⟩
  · have heq : s' = s.getNextToken2 := Option.some.inj (hs'.symm.trans (next_source {} h hnil).1)
    rw [heq]
    exact ⟨getNextToken2_noEor s, by rw [getNextToken2_records], fun r => (next_source r h hnil).2⟩
  · have hpos : top.playbackPos + 1 ≠ top.tokenList.length := by
      intro hpos
      apply hne
      simp only [TokStream.ahead, stream, hs, List.reverse_append, List.reverse_singleton, List.flatMap_cons,
        CTokenRecord.iters, List.cons_append, List.head?_cons, Option.getD_some]
      apply List.drop_of_length_le
      rw [CTokenRecord.iteration, List.length_map]
      omega
    obtain ⟨tk, buf, htk, hnext, hrec⟩ := next_iteration h hs hpos
    have heq := Option.some.inj (hs'.symm.trans hnext)
    rw [heq]
    exact ⟨htk, iff_of_false (append_ne_nil _ _) (records_ne_nil hs), hrec⟩

/-- **The tokens of a statement are recorded.** The induction is on their number. -/
theorem nextTokens_recording (k : ℕ) (h : s.Idle) (hk : k ≤ s.stream.ahead.length) :
    ∃ (s' : CHtfeLex) (body : List CToken), s'.Idle ∧
    (s'.tokenRecord = [] ↔ s.tokenRecord = []) ∧ s'.stream = { s.stream.dropAhead k with cur := s'.tok } ∧
    body.map CToken.tok = s.stream.ahead.take k ∧ (∀ t ∈ body, t.token ≠ .eor) ∧
    ∀ r n, nextTokens (k + n) (s.push r) = nextTokens n (s'.push { r with tokenList := r.tokenList ++ body }) := by
  induction k generalizing s with
  | zero =>
    refine ⟨s, [], h, Iff.rfl, ?_, rfl, fun t ht => absurd ht List.not_mem_nil, fun r n => ?_⟩
    · rw [TokStream.dropAhead_zero]
      rfl
    · rw [Nat.zero_add, List.append_nil]
  | succ k ih =>
    obtain ⟨t, ts, hahead⟩ := List.exists_cons_of_length_pos (Nat.lt_of_lt_of_le (Nat.succ_pos k) hk)
    obtain ⟨s₁, hidle, hstream, hnoEor, hrecords, hrec⟩ := next_recording h (hahead ▸ List.cons_ne_nil t ts)
    have hnext := hstream.trans (TokStream.next_of_ahead hahead)
    have hahead₁ : s₁.stream.ahead = ts := by
      rw [hnext]
      change (s.stream.dropAhead 1).ahead = ts
      rw [TokStream.ahead_dropAhead, hahead, List.drop_one, List.tail_cons]
    rw [hahead, List.length_cons] at hk
    obtain ⟨s', body, hidle', hrecords', hstream', hbody, hnoEor', hrun⟩ := ih hidle (by rw [hahead₁]; omega)
    refine ⟨s', ⟨s₁.token, s₁.stringBuf⟩ :: body, hidle', hrecords'.trans hrecords, ?_, ?_, ?_, fun r n => ?_⟩
    · rw [hstream', hnext, TokStream.dropAhead_cur, TokStream.dropAhead_succ]
    · have hcur : CToken.tok ⟨s₁.token, s₁.stringBuf⟩ = t := by
        have hc := congrArg TokStream.cur hnext
        exact hc
      rw [List.map_cons, hbody, hahead₁, hahead, hcur, List.take_succ_cons]
    · intro t' ht'
      rcases List.mem_cons.1 ht' with rfl | ht'
      · exact hnoEor
      · exact hnoEor' t' ht'
    · rw [Nat.succ_add, nextTokens, hrec r, Option.bind_some, hrun]
      simp only [addToken, List.append_assoc, List.singleton_append]

end Recording

/-! ## The end of a recording -/

/-- The scanner after a recording, without the new record: the stream without the statement. -/
structure Ready (s : CHtfeLex) (rest : TokStream) : Prop where
  level : s.tokenPlaybackLevel = s.tokenRecord.length - 1
  playable : ∀ r ∈ s.tokenRecord, r.Playable
  removed : s.removedToken.isSome = true
  noString : ∀ t ∈ s.removedToken, t.token ≠ .text .string ∧ (t.token = .eof → s.source = [])
  iters : s.stream.iters = rest.iters
  source : s.stream.source = rest.source

theorem eraseLastToken_push (s : CHtfeLex) (r : CTokenRecord) (t : CToken) :
    (s.push (addToken r t)).eraseLastToken = some (s.push r) := by
  have hne : r.tokenList ++ [t] ≠ [] := List.append_ne_nil_of_right_ne_nil _ (List.cons_ne_nil _ _)
  simp only [eraseLastToken, push, List.getLast?_concat, Option.bind_eq_bind, Option.bind_some, addToken, updateBack,
    List.dropLast_concat, hne, if_false]
  rfl

theorem getNextToken2_cons {s : CHtfeLex} {x : Lexeme} {source : List Lexeme} (h : s.source = x :: source) :
    s.getNextToken2.tok = x.tok ∧ s.getNextToken2.token ≠ .eof ∧ s.getNextToken2.source = source := by
  rw [getNextToken2, h]
  cases x <;> exact ⟨rfl, fun h => EToken.noConfusion h, rfl⟩

theorem getNextToken2_nil {s : CHtfeLex} (h : s.source = []) :
    s.getNextToken2.token = .eof ∧ s.getNextToken2.source = [] := by
  rw [getNextToken2, h]
  exact ⟨rfl, rfl⟩

section Remove

variable {s : CHtfeLex}

theorem removeLast_only {r : CTokenRecord} {t : CToken} (hs : s.tokenRecord = [addToken r t]) (h : s.token ≠ .eor) :
    s.removeLastRecordedToken = eraseLastToken { s with removedToken := some t } := by
  simp only [removeLastRecordedToken, hs, List.length_singleton, if_true, List.getLast?_singleton, Option.bind_some,
    addToken, List.getLast?_concat, Option.map_some, Option.bind_eq_bind, ne_eq, h, not_false_eq_true]

theorem removeLast_token {r : CTokenRecord} (hs : s.tokenRecord.length ≠ 1) (h : s.token ≠ .eor)
    (hr : s.playing = some r) :
    s.removeLastRecordedToken = (s.setPlaying { r with playbackPos := r.playbackPos - 1 }).eraseLastToken := by
  have hset : (s.setPlaying { r with playbackPos := r.playbackPos - 1 }).token ≠ .eor := h
  simp only [removeLastRecordedToken, hs, if_false, ne_eq, h, not_false_eq_true, if_true, hr, Option.map_some,
    Option.bind_eq_bind, Option.bind_some, hset]

theorem removeLast_eor (hs : s.tokenRecord.length ≠ 1) (h : s.token = .eor) : s.removeLastRecordedToken = some s := by
  simp only [removeLastRecordedToken, hs, if_false, ne_eq, h, not_true_eq_false, Option.bind_eq_bind, Option.bind_some]

end Remove

/-- **A statement of the source.** The token after it is removed, and kept for the end of the loop. -/
theorem removeLast_source {s : CHtfeLex} (r : CTokenRecord) (h : s.Idle) (hnil : s.tokenRecord = [])
    (hafter : ∀ t ∈ s.stream.ahead.head?, t.isString = false) :
    ∃ s' : CHtfeLex, ((s.push r).getNextToken.bind removeLastRecordedToken) = some (s'.push r) ∧
      s'.Ready s.stream := by
  have hrecords : s.getNextToken2.tokenRecord = [] := (getNextToken2_records s).trans hnil
  obtain ⟨hidle, hnext⟩ := getNextToken2_stream h hnil
  obtain ⟨t, ht⟩ : ∃ t : CToken, t = ⟨s.getNextToken2.token, s.getNextToken2.stringBuf⟩ := ⟨_, rfl⟩
  have hstream := stream_source h hnil
  refine ⟨{ s.getNextToken2 with removedToken := some t }, ?_, hidle.level, hidle.playable, rfl, ?_, ?_, ?_⟩
  · have hone : (s.getNextToken2.push (addToken r t)).tokenRecord = [addToken r t] := by
      rw [push, hrecords]
      rfl
    rw [(next_source r h hnil).2, Option.bind_some, ← ht, removeLast_only hone (getNextToken2_noEor s)]
    exact eraseLastToken_push { s.getNextToken2 with removedToken := some t } r t
  · rintro t' ⟨⟩
    refine ⟨fun hstr => ?_, fun heof => ?_⟩
    · cases hsource : s.source with
      | nil =>
        have heof := (getNextToken2_nil hsource).1
        rw [ht, heof] at hstr
        exact EToken.noConfusion hstr
      | cons x source =>
        have htok := (getNextToken2_cons hsource).1
        have hplain := hafter x.tok (by rw [hstream, hsource]; rfl)
        have hstring : s.getNextToken2.token = .text .string := by rwa [ht] at hstr
        rw [← htok, CHtfeLex.tok, hstring] at hplain
        exact Bool.noConfusion hplain
    · cases hsource : s.source with
      | nil => exact (getNextToken2_nil hsource).2
      | cons x source =>
        rw [ht] at heof
        exact absurd heof (getNextToken2_cons hsource).2.1
  · rw [hstream]
    simp only [stream, hrecords, List.reverse_nil, List.flatMap_nil]
  · rw [hstream]
    simp only [stream, sourceAhead]
    cases hsource : s.source with
    | nil =>
      obtain ⟨heof, hnone⟩ := getNextToken2_nil hsource
      rw [ht, if_pos heof, hnone]
    | cons x source =>
      obtain ⟨htok, hneof, htail⟩ := getNextToken2_cons hsource
      rw [ht, if_neg hneof, htail, List.map_cons, ← htok]
      rfl

/-- **A statement of an iteration.** The token after it is removed and read again, or there is none. -/
theorem removeLast_iteration {s : CHtfeLex} (r : CTokenRecord) (h : s.Idle) (hne : s.tokenRecord ≠ []) :
    ∃ s' : CHtfeLex, ((s.push r).getNextToken.bind removeLastRecordedToken) = some (s'.push r) ∧
      s'.Ready s.stream := by
  obtain ⟨lower, top, hs⟩ := (List.eq_nil_or_concat' s.tokenRecord).resolve_left hne
  have htop := h.playable top (hs ▸ List.mem_append_right _ (List.mem_singleton_self top))
  have hready : ∀ tk buf, (s.withToken tk buf).Ready s.stream := fun tk buf =>
    ⟨h.level, h.playable, h.removed.trans (decide_eq_true hne), h.noString, rfl, rfl⟩
  by_cases hpos : top.playbackPos + 1 = top.tokenList.length
  · refine ⟨s.withToken .eor s.stringBuf, ?_, hready _ _⟩
    have hplay : (s.push r).bTokenPlayback = true := h.playback.trans (decide_eq_true hne)
    rw [getNextToken, nextWithin_eor _ hplay rfl (playing_push r h hs) hpos, Option.bind_some, removeLast_eor _ rfl]
    · rfl
    · simp only [push, hs, List.length_append, List.length_singleton]
      omega
  · obtain ⟨tk, buf, htk, -, hrec⟩ := next_iteration h hs hpos
    have hge := htop.pos_ge
    have hlt := htop.pos_lt
    have hidle := (h.withTop hs (htop.withPos (by omega : -1 ≤ top.playbackPos + 1) (by omega))).withToken tk buf
    refine ⟨s.withToken tk buf, ?_, hready tk buf⟩
    rw [hrec, Option.bind_some, removeLast_token _ htk (playing_push _ hidle rfl), setPlaying_push _ hidle rfl,
      eraseLastToken_push]
    · simp only [Int.add_sub_cancel, CHtfeLex.withTop, CHtfeLex.withToken, ← hs]
    · simp only [push, CHtfeLex.withTop, CHtfeLex.withToken, List.length_append, List.length_singleton]
      omega

/-! ## Loops -/

/-- The new record, at the start of its first iteration. -/
def loopRecord (l : ForLoop) (body : List CToken) : CTokenRecord where
  value := l.initValue
  exitValue := l.exitValue
  incValue := l.incValue
  playbackPos := -1
  ctrlVarName := l.ctrlVarName
  bUnsignedCtrlVar := l.bUnsignedCtrlVar
  tokenList := body

theorem values_eq {l : ForLoop} (hup : 0 < l.incValue) (hlt : l.initValue < l.exitValue) (body : List CToken) :
    l.values = l.initValue :: (loopRecord l body).later := loopValues_of_lt hup hlt

theorem loopRecord_iters {l : ForLoop} (hup : 0 < l.incValue) (hlt : l.initValue < l.exitValue) (body : List CToken) :
    (loopRecord l body).iters = l.unroll (body.map CToken.tok) := by
  simp only [ForLoop.unroll, values_eq hup hlt body, List.map_map, List.map_cons]
  rfl

/-- **Playback starts.** -/
theorem forLoopTokenPlayback_ready {s : CHtfeLex} {rest : TokStream} {l : ForLoop} {r : CTokenRecord} (h : s.Ready rest)
    (hplayable : (loopRecord l r.tokenList).Playable) (hup : 0 < l.incValue) (hlt : l.initValue < l.exitValue)
    (hints : l.IntValues) :
    ∃ s', (s.push r).forLoopTokenPlayback l.ctrlVarName l.bUnsignedCtrlVar l.initValue l.exitValue l.incValue =
      some s' ∧ s'.Idle ∧
      s'.stream = TokStream.next { rest with iters := l.unroll (r.tokenList.map CToken.tok) ++ rest.iters } := by
  obtain ⟨s₁, hs₁⟩ : ∃ s₁ : CHtfeLex, s₁ = { s with
      bTokenRecording := false
      bTokenPlayback := true
      tokenPlaybackLevel := s.tokenPlaybackLevel + 1
      tokenRecord := s.tokenRecord ++ [loopRecord l r.tokenList] } := ⟨_, rfl⟩
  have hne := append_ne_nil s.tokenRecord (loopRecord l r.tokenList)
  have hidle : s₁.Idle := by
    rw [hs₁]
    refine ⟨rfl, (decide_eq_true hne).symm, ?_, fun r' hr' => ?_, h.removed.trans (decide_eq_true hne).symm, h.noString⟩
    · simp only [List.length_append, List.length_singleton]
      rw [h.level]
      omega
    · rcases List.mem_append.1 hr' with hl | hl
      · exact h.playable r' hl
      · exact List.mem_singleton.1 hl ▸ hplayable
  obtain ⟨s', hs', hidle', hstream⟩ := getNextToken_idle hidle
  refine ⟨s', ?_, hidle', ?_⟩
  · rw [← hs', hs₁, forLoopTokenPlayback, updateBack]
    simp only [push, List.getLast?_concat, List.dropLast_concat, Option.bind_eq_bind, Option.bind_some,
      wrap_of_inRange hints.1, wrap_of_inRange hints.2.1, wrap_of_inRange hints.2.2.1]
    rfl
  · rw [hstream, TokStream.next, TokStream.next, ← loopRecord_iters hup hlt, ← h.iters, ← h.source, hs₁]
    simp only [stream, List.reverse_append, List.reverse_singleton, List.singleton_append, List.flatMap_cons]
    rfl

/-- **A loop without iterations.** -/
theorem forLoopExit_ready {s : CHtfeLex} {rest : TokStream} (r : CTokenRecord) (h : s.Ready rest)
    (hnil : rest.iters = []) : ∃ s', (s.push r).forLoopExit = some s' ∧ s'.Idle ∧ s'.stream = rest.next := by
  have hrecords : s.tokenRecord = [] := (iters_eq_nil s).1 (h.iters.trans hnil)
  obtain ⟨t, ht⟩ := Option.isSome_iff_exists.1 h.removed
  have hlevel : s.tokenPlaybackLevel = -1 := by
    rw [h.level, hrecords]
    rfl
  obtain ⟨hstr, heof⟩ := h.noString t ht
  refine ⟨{ s with
    bTokenRecording := false, bTokenPlayback := false, tokenRecord := [], removedToken := none
    token := t.token, stringBuf := t.getString }, ?_, ?_, ?_⟩
  · simp only [forLoopExit, push, hrecords, hlevel, List.nil_append, List.cons_ne_nil, ne_eq, not_true_eq_false,
      or_self, if_false, ht]
    rfl
  · exact ⟨rfl, rfl, hlevel, fun _ hr => absurd hr List.not_mem_nil, rfl, fun t ht => absurd ht (Option.not_mem_none t)⟩
  · rw [TokStream.next, hnil, ← h.source]
    simp only [stream, CHtfeLex.tok, CToken.getString_eq hstr, sourceAhead, ht]
    by_cases hend : t.token = .eof
    · rw [if_pos hend, hend, heof hend]
      rfl
    · rw [if_neg hend]
      rfl

/-- A record of a loop that meets the conditions can be played back. -/
theorem loopRecord_playable {l : ForLoop} {q : TokStream} {body : List CToken} (h : l.Meets q)
    (hlt : l.initValue < l.exitValue) (hbody : body.map CToken.tok = q.ahead.take l.tokens)
    (hnoEor : ∀ t ∈ body, t.token ≠ .eor) : (loopRecord l body).Playable := by
  have hvalues := values_eq h.up hlt body
  have hlen : body.length = l.tokens := by
    have hmap := congrArg List.length hbody
    rwa [List.length_map, List.length_take, Nat.min_eq_left h.within] at hmap
  have hpos := h.nonempty
  refine ⟨Int.le_refl _, ?_, List.ne_nil_of_length_pos (hlen ▸ hpos), h.up, fun v hv => ?_, fun v hv t ht => ?_, hnoEor⟩
  · simp only [loopRecord]
    omega
  · exact (h.ints hlt).2.2.2 v (hvalues ▸ hv)
  · exact h.plays v (hvalues ▸ hv) t.tok (hbody ▸ List.mem_map_of_mem ht)

/-- **A loop.** The stream has the unrolling in the place of the statement. -/
theorem forStatement_idle {s : CHtfeLex} {l : ForLoop} (h : s.Idle) (hl : l.Meets s.stream) :
    ∃ s', s.forStatement l = some s' ∧ s'.Idle ∧ s'.stream = s.stream.forLoop l := by
  obtain ⟨s₁, body, hidle, hrecords, hstream, hbody, hnoEor, hrun⟩ := nextTokens_recording l.tokens h hl.within
  have hiters : s₁.stream.iters = (s.stream.dropAhead l.tokens).iters := by rw [hstream]
  have hsource : s₁.stream.source = (s.stream.dropAhead l.tokens).source := by rw [hstream]
  -- the tokens of the statement, and the token after it
  obtain ⟨s₂, hremove, hready⟩ : ∃ s₂ : CHtfeLex, ((s₁.push { tokenList := body }).getNextToken.bind
      removeLastRecordedToken) = some (s₂.push { tokenList := body }) ∧ s₂.Ready s₁.stream := by
    by_cases hnil : s₁.tokenRecord = []
    · apply removeLast_source _ hidle hnil
      have hahead : s₁.stream.ahead = s.stream.ahead.drop l.tokens := by
        rw [hstream, ← TokStream.ahead_dropAhead]
        rfl
      rw [hahead]
      exact hl.after ((iters_eq_nil s).2 (hrecords.1 hnil))
    · exact removeLast_iteration _ hidle hnil
  have hready' : s₂.Ready (s.stream.dropAhead l.tokens) :=
    ⟨hready.level, hready.playable, hready.removed, hready.noString, hready.iters.trans hiters,
      hready.source.trans hsource⟩
  have hstatement : s.forStatement l = if l.initValue < l.exitValue then
      (s₂.push { tokenList := body }).forLoopTokenPlayback l.ctrlVarName l.bUnsignedCtrlVar l.initValue l.exitValue
        l.incValue else (s₂.push { tokenList := body }).forLoopExit := by
    have hpush : s.recordTokens = s.push {} := rfl
    have hnext : nextTokens 1 (s₁.push { tokenList := body }) = (s₁.push { tokenList := body }).getNextToken := by
      simp only [nextTokens, Option.bind_fun_some]
    rw [forStatement, hpush, hrun, List.nil_append, hnext, Option.bind_eq_bind]
    cases hn : (s₁.push { tokenList := body }).getNextToken with
    | none => rw [hn] at hremove; cases hremove
    | some s₃ =>
      rw [hn] at hremove
      simp only [Option.bind_some] at hremove ⊢
      rw [hremove, Option.bind_some]
  rw [hstatement, TokStream.forLoop]
  by_cases hlt : l.initValue < l.exitValue
  · have hplay := loopRecord_playable hl hlt hbody hnoEor
    obtain ⟨s', hs', hidle', hnext⟩ :=
      forLoopTokenPlayback_ready (r := { tokenList := body }) hready' hplay hl.up hlt (hl.ints hlt)
    exact ⟨s', by rw [if_pos hlt, hs'], hidle', by rw [hnext, hbody]⟩
  · have hnil : (s.stream.dropAhead l.tokens).iters = [] :=
      (TokStream.iters_dropAhead _ _).2 (hl.runs.resolve_left hlt)
    obtain ⟨s', hs', hidle', hnext⟩ := forLoopExit_ready { tokenList := body } hready' hnil
    refine ⟨s', by rw [if_neg hlt, hs'], hidle', ?_⟩
    rw [hnext, ForLoop.unroll, ForLoop.values, loopValues_of_le (Int.not_lt.1 hlt), List.map_nil, List.nil_append]

/-- What the parser sees is the stream. -/
theorem deliver_idle (n : ℕ) {s : CHtfeLex} (h : s.Idle) : s.deliver n = some (s.stream.toList n) := by
  induction n generalizing s with
  | zero => rfl
  | succ n ih =>
    obtain ⟨s', hs', hidle, hstream⟩ := getNextToken_idle h
    rw [deliver, hs', Option.bind_some, ih hidle, hstream]
    rfl

/-- **Runs.** The induction is on the steps. -/
theorem run_idle (as : List Step) {s : CHtfeLex} (h : s.Idle) (hmeets : Meets s.stream as) :
    ∃ s', s.run as = some s' ∧ s'.Idle ∧ s'.stream = s.stream.run as := by
  induction as generalizing s with
  | nil => exact ⟨s, rfl, h, rfl⟩
  | cons a as ih =>
    cases a with
    | next =>
      obtain ⟨s₁, hs₁, hidle, hstream⟩ := getNextToken_idle h
      obtain ⟨s', hs', hidle', hstream'⟩ := ih hidle (hstream ▸ hmeets)
      refine ⟨s', ?_, hidle', hstream'.trans (by rw [hstream]; rfl)⟩
      rw [run, step, hs₁, Option.bind_some, hs']
    | forLoop l =>
      obtain ⟨s₁, hs₁, hidle, hstream⟩ := forStatement_idle h hmeets.1
      obtain ⟨s', hs', hidle', hstream'⟩ := ih hidle (hstream ▸ hmeets.2)
      refine ⟨s', ?_, hidle', hstream'.trans (by rw [hstream]; rfl)⟩
      rw [run, step, hs₁, Option.bind_some, hs']

/-- The scanner at the start of a source. -/
def start (token : EToken) (stringBuf : Text) (source : List Lexeme) : CHtfeLex := { token, stringBuf, source }

theorem start_idle (token : EToken) (stringBuf : Text) (source : List Lexeme) : (start token stringBuf source).Idle :=
  ⟨rfl, rfl, rfl, fun _ hr => absurd hr List.not_mem_nil, rfl, fun t ht => absurd ht (Option.not_mem_none t)⟩

end CHtfeLex

/-- **A loop is played back as its unrolling.** In a run whose loops meet the conditions the scanner does not fail, and
the tokens it delivers are those of the stream, where a loop is replaced by its iterations. -/
theorem playback_unrolls (token : EToken) (stringBuf : Text) (source : List Lexeme) (as : List Step)
    (h : Meets (TokStream.start (token.tok stringBuf) source) as) :
    ∃ s, (CHtfeLex.start token stringBuf source).run as = some s ∧
      ∀ n, s.deliver n = some (((TokStream.start (token.tok stringBuf) source).run as).toList n) := by
  obtain ⟨s, hs, hidle, hstream⟩ := CHtfeLex.run_idle as (CHtfeLex.start_idle token stringBuf source) h
  refine ⟨s, hs, fun n => ?_⟩
  rw [CHtfeLex.deliver_idle n hidle, hstream]
  rfl

/-- `for (int j = 0; j < 2; j += 1) f(i, "%i.%j");` and the end of the block. -/
def nestedBody : List Lexeme :=
  [.word 1 ['f', 'o', 'r'], .symbol 2, .text .identifier ['i', 'n', 't'], .text .identifier ['j'], .symbol 3,
    .text .numInt ['0'], .symbol 4, .text .identifier ['j'], .symbol 5, .text .numInt ['2'], .symbol 4,
    .text .identifier ['j'], .symbol 6, .text .numInt ['1'], .symbol 7, .text .identifier ['f'], .symbol 2,
    .text .identifier ['i'], .symbol 8, .text .string ['%', 'i', '.', '%', 'j'], .symbol 7, .symbol 4, .symbol 9]

/-- A loop over `i`, and the loop over `j` in its first iteration. -/
def nestedSteps : List Step :=
  .forLoop ⟨22, ['i'], false, 0, 4, 3⟩ :: List.replicate 14 .next ++ [.forLoop ⟨7, ['j'], true, 0, 2, 1⟩]

example : (((CHtfeLex.start (.other 7) [] nestedBody).run nestedSteps).bind (CHtfeLex.deliver 5)) =
    some [.text .identifier ['f'], .other 2, .text .numInt ['0'], .other 8, .text .string ['0', '.', '0'], .other 7] := by
  decide

theorem playback_unrolls_demo : ∃ s, (CHtfeLex.start (.other 7) [] nestedBody).run nestedSteps = some s ∧
    ∀ n, s.deliver n = some (((TokStream.start ((EToken.other 7).tok []) nestedBody).run nestedSteps).toList n) :=
  playback_unrolls (.other 7) [] nestedBody nestedSteps (by decide)

/-- **A prefix is replaced.** In a loop over `i`, the name in `f("%idx");` is not the variable, and is replaced. -/
theorem prefix_replaced :
    ∃ (source : List Lexeme) (l : ForLoop), l.Wf (TokStream.start (.other 7) source) ∧ l.initValue < l.exitValue ∧
      (((CHtfeLex.start (.other 7) [] source).run [.forLoop l]).bind (CHtfeLex.deliver 5)) ≠
        some (((TokStream.start (.other 7) source).run [.forLoop l]).toList 5) :=
  ⟨[.text .identifier ['f'], .symbol 2, .text .string ['%', 'i', 'd', 'x'], .symbol 7, .symbol 4, .symbol 9],
    ⟨5, ['i'], false, 0, 1, 1⟩, by decide⟩

end OpenHT.Htfe.Playback
