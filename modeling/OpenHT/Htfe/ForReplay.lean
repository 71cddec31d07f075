import OpenHT.Htfe.ForPlayback

/-!
# A step of the playback

Between two steps of the parser the scanner stands for a stream of tokens, `stream`: what the records still deliver,
from the innermost loop outwards, and then the source.

* `replacePrefix_eq`: strings whose names are exact.
* `playToken_eq`, `present_top`: the token at the playback position, which is the same when it is presented again.
* `Idle`, `stream`: the scanner between two steps, and the tokens to come.
* `nextWithin_idle`: `GetNextToken` pops the stream, by induction on the records.
-/

namespace OpenHT.Htfe.Playback

open CInt CInt.IntType Htl
open HtvClang.UniqueName (printInt)

attribute [local simp] CHtfeLex.nextWithin valuesWithin

/-! ## Strings -/

theorem isPrefixOf_eq {var s : Text} (h : var <+: s → s.takeWhile isIdent = var) :
    var.isPrefixOf s = decide (s.takeWhile isIdent = var) := by
  by_cases hp : var <+: s
  · rw [List.isPrefixOf_iff_prefix.2 hp, decide_eq_true (h hp)]
  · have hne : ¬ s.takeWhile isIdent = var := fun he => hp (he ▸ List.takeWhile_prefix _)
    rw [decide_eq_false hne, ← Bool.not_eq_true, List.isPrefixOf_iff_prefix]
    exact hp

theorem ExactNames.tail {var : Text} {c : Char} {s : Text} (h : ExactNames var (c :: s)) : ExactNames var s := h.2

/-- Where the names are exact, the comparison of the first characters finds the names. -/
theorem replaceNames_eq {var : Text} (value : Text) {s : Text} (h : ExactNames var s) (skip : ℕ) :
    replaceNames var.isPrefixOf var.length value skip s =
      replaceNames (fun s => s.takeWhile isIdent = var) var.length value skip s := by
  induction s generalizing skip with
  | nil => cases skip <;> rfl
  | cons c s ih =>
    cases skip with
    | succ skip => exact ih h.tail skip
    | zero =>
      simp only [replaceNames]
      by_cases hc : c = '%'
      · rw [isPrefixOf_eq (h.1 hc), ih h.tail var.length, ih h.tail 0]
      · simp only [hc, decide_false, Bool.false_and, Bool.false_eq_true, if_false]
        rw [ih h.tail 0]

theorem replacePrefix_eq {var : Text} (v : Int) {s : Text} (h : ExactNames var s) :
    replacePrefix var v s = replaceNames (fun s => s.takeWhile isIdent = var) var.length (printInt v) 0 s :=
  replaceNames_eq (printInt v) h 0

/-! ## Values -/

theorem valuesWithin_of_le {exit inc v : Int} (h : exit ≤ v) (n : ℕ) : valuesWithin exit inc n v = [] := by
  cases n with
  | zero => rfl
  | succ n => simp only [valuesWithin, if_neg (Int.not_lt.2 h)]

/-- Numbers of steps that are large enough make no difference. -/
theorem valuesWithin_eq {exit inc : Int} (hinc : 0 < inc) (n m : ℕ) (v : Int) (hn : (exit - v).toNat ≤ n)
    (hm : (exit - v).toNat ≤ m) : valuesWithin exit inc n v = valuesWithin exit inc m v := by
  induction n generalizing m v with
  | zero =>
    have hle : exit ≤ v := by omega
    rw [valuesWithin_of_le hle, valuesWithin_of_le hle]
  | succ n ih =>
    by_cases hlt : v < exit
    · obtain ⟨m, rfl⟩ : ∃ k, m = k + 1 := ⟨m - 1, by omega⟩
      simp only [valuesWithin, if_pos hlt]
      rw [ih m (v + inc) (by omega) (by omega)]
    · rw [valuesWithin_of_le (Int.not_lt.1 hlt), valuesWithin_of_le (Int.not_lt.1 hlt)]

theorem loopValues_of_le {init exit inc : Int} (h : exit ≤ init) : loopValues init exit inc = [] :=
  valuesWithin_of_le h _

theorem loopValues_of_lt {init exit inc : Int} (hinc : 0 < inc) (h : init < exit) :
    loopValues init exit inc = init :: loopValues (init + inc) exit inc := by
  obtain ⟨m, hm⟩ : ∃ m, (exit - init).toNat = m + 1 := ⟨(exit - init).toNat - 1, by omega⟩
  have htail := valuesWithin_eq hinc m (exit - (init + inc)).toNat (init + inc) (by omega) le_rfl
  rw [loopValues, hm]
  simp only [valuesWithin, if_pos h]
  rw [htail, loopValues]

/-! ## Records -/

def CToken.tok (t : CToken) : Tok := t.token.tok t.string

theorem CToken.getString_eq {t : CToken} (h : t.token ≠ .text .string) : t.getString = t.string := if_neg h

namespace CTokenRecord

def iteration (r : CTokenRecord) (v : Int) : List Tok :=
  r.tokenList.map fun t => t.tok.subst r.ctrlVarName r.bUnsignedCtrlVar v

/-- The values of the iterations after the current one. -/
def later (r : CTokenRecord) : List Int := loopValues (r.value + r.incValue) r.exitValue r.incValue

/-- The tokens that the record still delivers. -/
def iters (r : CTokenRecord) : List (List Tok) :=
  (r.iteration r.value).drop (r.playbackPos + 1).toNat :: r.later.map r.iteration

/-- A record that can be played back to its end. -/
structure Playable (r : CTokenRecord) : Prop where
  pos_ge : -1 ≤ r.playbackPos
  pos_lt : r.playbackPos < r.tokenList.length
  nonempty : r.tokenList ≠ []
  up : 0 < r.incValue
  ints : ∀ v ∈ r.value :: r.later, int32.InRange (v + r.incValue)
  plays : ∀ v ∈ r.value :: r.later, ∀ t ∈ r.tokenList, t.tok.Plays r.ctrlVarName v
  noEor : ∀ t ∈ r.tokenList, t.token ≠ .eor

theorem Playable.withPos {r : CTokenRecord} (h : r.Playable) {pos : Int} (hge : -1 ≤ pos)
    (hlt : pos < r.tokenList.length) : Playable { r with playbackPos := pos } :=
  ⟨hge, hlt, h.nonempty, h.up, h.ints, h.plays, h.noEor⟩

/-- The record at the start of its next iteration. -/
theorem Playable.nextValue {r : CTokenRecord} (h : r.Playable) (hlt : r.value + r.incValue < r.exitValue) :
    Playable { r with value := r.value + r.incValue, playbackPos := 0 } := by
  have hlater : r.later = (r.value + r.incValue) ::
      loopValues (r.value + r.incValue + r.incValue) r.exitValue r.incValue := loopValues_of_lt h.up hlt
  have hsub : ∀ v ∈ (r.value + r.incValue) :: loopValues (r.value + r.incValue + r.incValue) r.exitValue r.incValue,
      v ∈ r.value :: r.later := fun v hv => List.mem_cons_of_mem _ (hlater ▸ hv)
  have hpos := List.length_pos_of_ne_nil h.nonempty
  refine ⟨by simp, ?_, h.nonempty, h.up, fun v hv => h.ints v (hsub v hv), fun v hv => h.plays v (hsub v hv), h.noEor⟩
  simp only
  omega

end CTokenRecord

namespace CHtfeLex

/-! ## The token at the playback position -/

def withToken (tk : EToken) (buf : Text) (s : CHtfeLex) : CHtfeLex := { s with token := tk, stringBuf := buf }

theorem present_eq {s : CHtfeLex} {r : CTokenRecord} {t : CToken} (hr : s.playing = some r)
    (ht : r.playbackToken = some t) : s.present = s.playToken r t := by
  simp only [present, hr, ht, Option.bind_eq_bind, Option.bind_some]

/-- A token and its text depend on the record only; operators keep the text before. -/
theorem playToken_eq {r : CTokenRecord} {t : CToken} (hp : t.tok.Plays r.ctrlVarName r.value) :
    ∃ (tk : EToken) (f : Text → Text), (∀ s : CHtfeLex, s.playToken r t = some (s.withToken tk (f s.stringBuf))) ∧
      (∀ b, f (f b) = f b) ∧ (∀ b, tk.tok (f b) = t.tok.subst r.ctrlVarName r.bUnsignedCtrlVar r.value) ∧
      (tk = t.token ∨ tk = .text .numInt) := by
  obtain ⟨tk, str⟩ := t
  cases tk with
  | other | eof | eor => exact ⟨_, id, fun s => rfl, fun _ => rfl, fun _ => rfl, Or.inl rfl⟩
  | text kind =>
    cases kind with
    | identifier =>
      by_cases hvar : str = r.ctrlVarName
      · refine ⟨.text .numInt, fun _ => literal r.bUnsignedCtrlVar r.value, fun s => if_pos ⟨rfl, hvar⟩, fun _ => rfl,
          fun b => ?_, Or.inr rfl⟩
        simp only [CToken.tok, EToken.tok, Tok.subst, if_pos hvar]
      · refine ⟨_, fun _ => str, fun s => if_neg fun h => hvar h.2, fun _ => rfl, fun b => ?_, Or.inl rfl⟩
        simp only [CToken.tok, EToken.tok, Tok.subst, if_neg hvar]
    | numInt | numHex | numString =>
      exact ⟨_, fun _ => str, fun s => rfl, fun _ => rfl, fun _ => rfl, Or.inl rfl⟩
    | numFloat => exact hp.elim
    | string =>
      refine ⟨_, fun _ => replacePrefix r.ctrlVarName r.value str, fun s => if_pos hp.2, fun _ => rfl, fun b => ?_,
        Or.inl rfl⟩
      simp only [CToken.tok, EToken.tok, Tok.subst, replacePrefix_eq r.value hp.1]

/-! ## Between two steps -/

/-- The tokens of the source to come, the removed token first. -/
def sourceAhead (s : CHtfeLex) : List Tok :=
  match s.removedToken with
  | some t => if t.token = .eof then s.source.map Lexeme.tok else t.tok :: s.source.map Lexeme.tok
  | none => s.source.map Lexeme.tok

def stream (s : CHtfeLex) : TokStream :=
  ⟨s.tok, s.tokenRecord.reverse.flatMap CTokenRecord.iters, s.sourceAhead⟩

/-- No statement is being recorded. -/
structure Idle (s : CHtfeLex) : Prop where
  recording : s.bTokenRecording = false
  playback : s.bTokenPlayback = decide (s.tokenRecord ≠ [])
  level : s.tokenPlaybackLevel = s.tokenRecord.length - 1
  playable : ∀ r ∈ s.tokenRecord, r.Playable
  removed : s.removedToken.isSome = decide (s.tokenRecord ≠ [])
  /-- A removed string would get quotes. -/
  noString : ∀ t ∈ s.removedToken, t.token ≠ .text .string ∧ (t.token = .eof → s.source = [])

/-! ## One record -/

section Top

variable {s : CHtfeLex} {lower : List CTokenRecord} {top r : CTokenRecord}

/-- The scanner with another record at the top. -/
def withTop (lower : List CTokenRecord) (r : CTokenRecord) (s : CHtfeLex) : CHtfeLex :=
  { s with tokenRecord := lower ++ [r] }

theorem append_ne_nil (lower : List CTokenRecord) (r : CTokenRecord) : lower ++ [r] ≠ [] :=
  List.append_ne_nil_of_right_ne_nil _ (List.cons_ne_nil _ _)

theorem records_ne_nil (hs : s.tokenRecord = lower ++ [top]) : s.tokenRecord ≠ [] := hs ▸ append_ne_nil lower top

theorem Idle.top_level (h : s.Idle) (hs : s.tokenRecord = lower ++ [top]) : s.tokenPlaybackLevel = lower.length := by
  rw [h.level, hs, List.length_append, List.length_singleton]
  omega

theorem Idle.top_playing (h : s.Idle) (hs : s.tokenRecord = lower ++ [top]) : s.playing = some top := by
  rw [playing, h.top_level hs, if_neg (by omega), hs, Int.toNat_natCast, List.getElem?_concat_length]

theorem Idle.setPlaying_eq (h : s.Idle) (hs : s.tokenRecord = lower ++ [top]) (r : CTokenRecord) :
    s.setPlaying r = s.withTop lower r := by
  have hset : s.tokenRecord.set s.tokenPlaybackLevel.toNat r = lower ++ [r] := by
    rw [h.top_level hs, hs, Int.toNat_natCast, List.set_append_right _ _ le_rfl, Nat.sub_self, List.set_cons_zero]
  rw [setPlaying, hset, CHtfeLex.withTop]

theorem Idle.withTop (h : s.Idle) (hs : s.tokenRecord = lower ++ [top]) (hr : r.Playable) : (s.withTop lower r).Idle := by
  have hne : decide (s.tokenRecord ≠ []) = decide (lower ++ [r] ≠ []) := by
    rw [hs, decide_eq_true (append_ne_nil lower top), decide_eq_true (append_ne_nil lower r)]
  have hlevel : s.tokenPlaybackLevel = (lower ++ [r]).length - 1 := by
    rw [h.top_level hs, List.length_append, List.length_singleton]
    omega
  refine ⟨h.recording, h.playback.trans hne, hlevel, fun r' hr' => ?_, h.removed.trans hne, h.noString⟩
  rcases List.mem_append.1 hr' with hl | hl
  · exact h.playable r' (hs ▸ List.mem_append_left _ hl)
  · exact List.mem_singleton.1 hl ▸ hr

theorem Idle.withToken (h : s.Idle) (tk : EToken) (buf : Text) : (s.withToken tk buf).Idle :=
  ⟨h.recording, h.playback, h.level, h.playable, h.removed, h.noString⟩

theorem recordToken_idle (h : s.bTokenRecording = false) : s.recordToken = some s := by
  rw [recordToken, h]
  rfl

theorem playbackToken_eq {t : CToken} (hr : 0 ≤ r.playbackPos) (ht : r.tokenList[r.playbackPos.toNat]? = some t) :
    r.playbackToken = some t := by
  rw [CTokenRecord.playbackToken, if_neg (Int.not_lt.2 hr), ht]

theorem stream_withTop (tk : EToken) (buf : Text) :
    ((s.withTop lower r).withToken tk buf).stream =
      ⟨tk.tok buf, r.iters ++ lower.reverse.flatMap CTokenRecord.iters, s.sourceAhead⟩ := by
  simp only [stream, CHtfeLex.withTop, CHtfeLex.withToken, List.reverse_append, List.reverse_singleton,
    List.singleton_append, List.flatMap_cons]
  rfl

theorem iteration_getElem? {t : CToken} {v : Int} {k : ℕ} (ht : r.tokenList[k]? = some t) :
    (r.iteration v)[k]? = some (t.tok.subst r.ctrlVarName r.bUnsignedCtrlVar v) := by
  rw [CTokenRecord.iteration, List.getElem?_map, ht, Option.map_some]

/-- **A token of the record at the top.** It is the one at the position, and the same when it is presented again. -/
theorem present_top {t : CToken} (h : s.Idle) (hs : s.tokenRecord = lower ++ [top]) (hr : r.Playable)
    (hpos : 0 ≤ r.playbackPos) (ht : r.tokenList[r.playbackPos.toNat]? = some t) :
    ∃ s', ((s.setPlaying r).present.bind recordToken) = some s' ∧ s'.Idle ∧
      s'.stream = ⟨t.tok.subst r.ctrlVarName r.bUnsignedCtrlVar r.value,
        r.iters ++ lower.reverse.flatMap CTokenRecord.iters, s.sourceAhead⟩ ∧ s'.present = some s' := by
  obtain ⟨tk, f, hplay, hff, htok, -⟩ := playToken_eq (hr.plays r.value List.mem_cons_self t (List.mem_of_getElem? ht))
  have hidle := h.withTop hs hr
  have htoken := playbackToken_eq hpos ht
  have hagain := hidle.withToken tk (f s.stringBuf)
  refine ⟨(s.withTop lower r).withToken tk (f s.stringBuf), ?_, hagain, ?_, ?_⟩
  · rw [h.setPlaying_eq hs, present_eq (hidle.top_playing rfl) htoken, hplay, Option.bind_some]
    exact recordToken_idle hagain.recording
  · rw [stream_withTop, htok]
  · rw [present_eq (hagain.top_playing rfl) htoken, hplay]
    simp only [CHtfeLex.withToken, hff]

end Top

/-! ## The cases of a step -/

section Cases

variable {s : CHtfeLex} {r : CTokenRecord} (n : ℕ)

theorem nextWithin_source (h : s.bTokenPlayback = false) : nextWithin (n + 1) s = s.getNextToken2.recordToken := by
  simp only [nextWithin, h, Bool.false_eq_true, if_false]

theorem nextWithin_token (h : s.bTokenPlayback = true) (hr : s.playing = some r)
    (hpos : r.playbackPos + 1 ≠ r.tokenList.length) :
    nextWithin (n + 1) s = (s.setPlaying { r with playbackPos := r.playbackPos + 1 }).present.bind recordToken := by
  simp only [nextWithin, h, if_true, hr, Option.bind_eq_bind, Option.bind_some, hpos, decide_false, Bool.and_false,
    Bool.false_eq_true, if_false]

theorem nextWithin_eor (h : s.bTokenPlayback = true) (hrec : s.bTokenRecording = true) (hr : s.playing = some r)
    (hpos : r.playbackPos + 1 = r.tokenList.length) : nextWithin (n + 1) s = some { s with token := .eor } := by
  simp only [nextWithin, h, if_true, hr, Option.bind_eq_bind, Option.bind_some, hpos, decide_true, hrec, Bool.and_self]
  rfl

theorem nextWithin_again (h : s.bTokenPlayback = true) (hrec : s.bTokenRecording = false) (hr : s.playing = some r)
    (hpos : r.playbackPos + 1 = r.tokenList.length) (hint : int32.InRange (r.value + r.incValue))
    (hlt : r.value + r.incValue < r.exitValue) :
    nextWithin (n + 1) s =
      (s.setPlaying { r with value := r.value + r.incValue, playbackPos := 0 }).present.bind recordToken := by
  simp only [nextWithin, h, if_true, hr, Option.bind_eq_bind, Option.bind_some, hpos, decide_true, hrec,
    Bool.false_and, Bool.false_eq_true, if_false, hint, not_true_eq_false, hlt]

/-- The scanner without its last record. -/
def popped (s : CHtfeLex) : CHtfeLex :=
  { s with tokenPlaybackLevel := s.tokenPlaybackLevel - 1, tokenRecord := s.tokenRecord.dropLast }

theorem nextWithin_pop (h : s.bTokenPlayback = true) (hrec : s.bTokenRecording = false) (hr : s.playing = some r)
    (hpos : r.playbackPos + 1 = r.tokenList.length) (hint : int32.InRange (r.value + r.incValue))
    (hge : ¬ r.value + r.incValue < r.exitValue) (hlevel : s.tokenPlaybackLevel = s.tokenRecord.length - 1)
    (hne : s.tokenRecord.dropLast ≠ []) :
    nextWithin (n + 1) s = (nextWithin n s.popped).bind fun s =>
      if s.tokenRecord = [] then some s else s.present.bind recordToken := by
  simp only [nextWithin, h, if_true, hr, Option.bind_eq_bind, Option.bind_some, hpos, decide_true, hrec,
    Bool.false_and, Bool.false_eq_true, if_false, hint, not_true_eq_false, hge, hlevel, ne_eq, hne, popped]
  rfl

theorem nextWithin_last {t : CToken} (h : s.bTokenPlayback = true) (hrec : s.bTokenRecording = false)
    (hr : s.playing = some r) (hpos : r.playbackPos + 1 = r.tokenList.length)
    (hint : int32.InRange (r.value + r.incValue)) (hge : ¬ r.value + r.incValue < r.exitValue)
    (hlevel : s.tokenPlaybackLevel = s.tokenRecord.length - 1) (hnil : s.tokenRecord.dropLast = [])
    (ht : s.removedToken = some t) :
    nextWithin (n + 1) s = some { s.popped with
      bTokenPlayback := false, removedToken := none, token := t.token, stringBuf := t.getString } := by
  simp only [nextWithin, h, if_true, hr, Option.bind_eq_bind, Option.bind_some, hpos, decide_true, hrec,
    Bool.false_and, Bool.false_eq_true, if_false, hint, not_true_eq_false, hge, hlevel, ne_eq, hnil, ht, popped]
  rfl

end Cases

/-! ## Steps without a recording -/

theorem pop_drop {it : List Tok} {k : ℕ} {t : Tok} (h : it[k]? = some t) (iters : List (List Tok)) (source : List Tok) :
    TokStream.pop (it.drop k :: iters) source = ⟨t, it.drop (k + 1) :: iters, source⟩ := by
  obtain ⟨hlt, hget⟩ := List.getElem?_eq_some_iff.1 h
  rw [List.drop_eq_getElem_cons hlt, hget, TokStream.pop]

section Pop

variable {top : CTokenRecord} {t : CToken} (rest : List (List Tok)) (source : List Tok)

theorem pop_token (ht : top.tokenList[(top.playbackPos + 1).toNat]? = some t) (hge : -1 ≤ top.playbackPos) :
    TokStream.pop (top.iters ++ rest) source =
      ⟨t.tok.subst top.ctrlVarName top.bUnsignedCtrlVar top.value,
        CTokenRecord.iters { top with playbackPos := top.playbackPos + 1 } ++ rest, source⟩ := by
  have hsucc : (top.playbackPos + 1 + 1).toNat = (top.playbackPos + 1).toNat + 1 := by omega
  simp only [CTokenRecord.iters, List.cons_append, hsucc]
  exact pop_drop (iteration_getElem? ht) _ _

/-- At the end of an iteration the next one comes first. -/
theorem pop_end (hpos : top.playbackPos + 1 = top.tokenList.length) :
    TokStream.pop (top.iters ++ rest) source = TokStream.pop (top.later.map top.iteration ++ rest) source := by
  have hdrop : (top.iteration top.value).drop (top.playbackPos + 1).toNat = [] := by
    apply List.drop_of_length_le
    rw [CTokenRecord.iteration, List.length_map]
    omega
  rw [CTokenRecord.iters, hdrop, List.cons_append, TokStream.pop]

theorem pop_again (h : top.Playable) (hpos : top.playbackPos + 1 = top.tokenList.length)
    (hlt : top.value + top.incValue < top.exitValue) (ht : top.tokenList[0]? = some t) :
    TokStream.pop (top.iters ++ rest) source =
      ⟨t.tok.subst top.ctrlVarName top.bUnsignedCtrlVar (top.value + top.incValue),
        CTokenRecord.iters { top with value := top.value + top.incValue, playbackPos := 0 } ++ rest, source⟩ := by
  rw [pop_end rest source hpos, CTokenRecord.later, loopValues_of_lt h.up hlt, List.map_cons, List.cons_append,
    ← List.drop_zero (l := top.iteration (top.value + top.incValue)), pop_drop (iteration_getElem? ht)]
  rfl

theorem pop_over (hpos : top.playbackPos + 1 = top.tokenList.length)
    (hge : ¬ top.value + top.incValue < top.exitValue) :
    TokStream.pop (top.iters ++ rest) source = TokStream.pop rest source := by
  rw [pop_end rest source hpos, CTokenRecord.later, loopValues_of_le (Int.not_lt.1 hge)]
  rfl

end Pop

theorem getNextToken2_records (s : CHtfeLex) : s.getNextToken2.tokenRecord = s.tokenRecord := by
  rw [getNextToken2]
  split <;> rfl

theorem stream_source {s : CHtfeLex} (h : s.Idle) (hnil : s.tokenRecord = []) :
    s.stream = ⟨s.tok, [], s.source.map Lexeme.tok⟩ := by
  have hremoved : s.removedToken = none := by
    rw [← Option.not_isSome_iff_eq_none, h.removed, hnil]
    decide
  rw [stream, hnil, sourceAhead, hremoved]
  rfl

theorem getNextToken2_stream {s : CHtfeLex} (h : s.Idle) (hnil : s.tokenRecord = []) :
    s.getNextToken2.Idle ∧ s.getNextToken2.stream = s.stream.next := by
  have hidle : s.getNextToken2.Idle := by
    have hremoved : s.removedToken = none := by
      rw [← Option.not_isSome_iff_eq_none, h.removed, hnil]
      decide
    rw [getNextToken2]
    split
    all_goals exact ⟨h.recording, h.playback, h.level, h.playable, h.removed, fun t ht =>
      absurd (hremoved ▸ ht) (Option.not_mem_none t)⟩
  refine ⟨hidle, ?_⟩
  rw [stream_source h hnil, stream_source hidle ((getNextToken2_records s).trans hnil), getNextToken2]
  split <;> rename_i hsource <;> rw [hsource] <;> rfl

/-- The outermost loop has ended, and the removed token is the next one. -/
theorem stream_removed {s : CHtfeLex} {t : CToken} (hend : s.tokenRecord.dropLast = []) (ht : s.removedToken = some t)
    (hstr : t.token ≠ .text .string ∧ (t.token = .eof → s.source = [])) :
    stream { s.popped with
      bTokenPlayback := false, removedToken := none, token := t.token, stringBuf := t.getString } =
      TokStream.pop [] s.sourceAhead := by
  simp only [stream, popped, hend, CHtfeLex.tok, CToken.getString_eq hstr.1, sourceAhead, ht]
  by_cases heof : t.token = .eof
  · rw [if_pos heof, heof, hstr.2 heof]
    rfl
  · rw [if_neg heof]
    rfl

/-- The innermost loop has ended. -/
theorem Idle.popped {s : CHtfeLex} {lower : List CTokenRecord} {top : CTokenRecord} (h : s.Idle)
    (hs : s.tokenRecord = lower ++ [top]) (hne : lower ≠ []) : s.popped.Idle := by
  have hrec : s.popped.tokenRecord = lower := by
    rw [CHtfeLex.popped, hs]
    exact List.dropLast_concat
  have hsome : decide (s.tokenRecord ≠ []) = decide (s.popped.tokenRecord ≠ []) := by
    rw [hrec, decide_eq_true hne, decide_eq_true (records_ne_nil hs)]
  refine ⟨h.recording, h.playback.trans hsome, ?_, fun r hr => ?_, h.removed.trans hsome, h.noString⟩
  · rw [hrec]
    change s.tokenPlaybackLevel - 1 = _
    rw [h.top_level hs]
  · exact h.playable r (hs ▸ List.mem_append_left _ (hrec ▸ hr))

/-- **One step.** `GetNextToken` pops the stream, and the token is the same when it is presented again. The induction
is on the records. -/
theorem nextWithin_idle (n : ℕ) {s : CHtfeLex} (h : s.Idle) (hn : s.tokenRecord.length < n) :
    ∃ s', nextWithin n s = some s' ∧ s'.Idle ∧ s'.stream = s.stream.next ∧
      (s'.tokenRecord ≠ [] → s'.present = some s') := by
  induction n generalizing s with
  | zero => exact absurd hn (Nat.not_lt_zero _)
  | succ n ih =>
    rcases List.eq_nil_or_concat' s.tokenRecord with hnil | ⟨lower, top, hs⟩
    · -- the source
      have hplay : s.bTokenPlayback = false := by rw [h.playback, hnil]; rfl
      obtain ⟨hidle, hstream⟩ := getNextToken2_stream h hnil
      refine ⟨s.getNextToken2, ?_, hidle, hstream, fun hne => ?_⟩
      · rw [nextWithin_source n hplay, recordToken_idle hidle.recording]
      · refine absurd ?_ hne
        rw [getNextToken2]
        split <;> exact hnil
    · have htop := h.playable top (hs ▸ List.mem_append_right _ (List.mem_singleton_self top))
      have hplay : s.bTokenPlayback = true := by rw [h.playback, decide_eq_true (records_ne_nil hs)]
      have hplaying := h.top_playing hs
      have hiters : s.stream.iters = top.iters ++ lower.reverse.flatMap CTokenRecord.iters := by
        simp only [stream, hs, List.reverse_append, List.reverse_singleton, List.singleton_append, List.flatMap_cons]
      have hge := htop.pos_ge
      have hlt := htop.pos_lt
      have hnext : s.stream.next = TokStream.pop (top.iters ++ lower.reverse.flatMap CTokenRecord.iters) s.sourceAhead := by
        rw [TokStream.next, hiters]
        rfl
      by_cases hpos : top.playbackPos + 1 = top.tokenList.length
      · have hint := htop.ints top.value List.mem_cons_self
        by_cases hagain : top.value + top.incValue < top.exitValue
        · -- the next iteration
          have ht := List.getElem?_eq_getElem (List.length_pos_of_ne_nil htop.nonempty)
          obtain ⟨s', hs', hidle, hstream, hpresent⟩ := present_top h hs (htop.nextValue hagain) (Int.le_refl 0) ht
          refine ⟨s', ?_, hidle, ?_, fun _ => hpresent⟩
          · rw [nextWithin_again n hplay h.recording hplaying hpos hint hagain, hs']
          · rw [hstream, hnext, pop_again _ _ htop hpos hagain ht]
        · have hdrop : s.tokenRecord.dropLast = lower := by rw [hs, List.dropLast_concat]
          have hlevel := h.level
          rw [pop_over _ _ hpos hagain] at hnext
          by_cases hnil : lower = []
          · -- the outermost loop has ended
            obtain ⟨t, ht⟩ := Option.isSome_iff_exists.1 (h.removed.trans (decide_eq_true (records_ne_nil hs)))
            have hstr := h.noString t ht
            rw [nextWithin_last n hplay h.recording hplaying hpos hint hagain hlevel (hdrop.trans hnil) ht]
            have hend : s.tokenRecord.dropLast = [] := hdrop.trans hnil
            refine ⟨_, rfl, ⟨h.recording, ?_, ?_, ?_, ?_, ?_⟩, ?_, fun hne => absurd hend hne⟩
            · simp only [popped, hend, ne_eq, not_true_eq_false, decide_false]
            · simp only [popped, hend, h.top_level hs, hnil]
            · simp only [popped, hend, List.not_mem_nil, false_implies, implies_true]
            · simp only [popped, hend, ne_eq, not_true_eq_false, decide_false, Option.isSome_none]
            · exact fun t' ht' => absurd ht' (Option.not_mem_none t')
            · rw [hnext, hnil, List.reverse_nil, List.flatMap_nil]
              exact stream_removed hend ht hstr
          · -- an inner loop has ended
            have hpopped := h.popped hs hnil
            have hshort : s.popped.tokenRecord.length < n := by
              have hlen := congrArg List.length hs
              rw [List.length_append, List.length_singleton] at hlen
              change s.tokenRecord.dropLast.length < n
              rw [List.length_dropLast]
              omega
            obtain ⟨s', hs', hidle, hstream, hpresent⟩ := ih hpopped hshort
            refine ⟨s', ?_, hidle, ?_, hpresent⟩
            · rw [nextWithin_pop n hplay h.recording hplaying hpos hint hagain hlevel (by rwa [hdrop]), hs',
                Option.bind_some]
              by_cases hend : s'.tokenRecord = []
              · rw [if_pos hend]
              · rw [if_neg hend, hpresent hend, Option.bind_some, recordToken_idle hidle.recording]
            · rw [hstream, hnext, TokStream.next]
              have hrec : s.popped.stream.iters = lower.reverse.flatMap CTokenRecord.iters := by
                change s.popped.tokenRecord.reverse.flatMap _ = _
                rw [show s.popped.tokenRecord = lower from hdrop]
              rw [hrec]
              rfl
      · -- the next token of the iteration
        have hlen : (top.playbackPos + 1).toNat < top.tokenList.length := by omega
        have ht := List.getElem?_eq_getElem hlen
        have hmoved := htop.withPos (by omega : -1 ≤ top.playbackPos + 1) (by omega)
        obtain ⟨s', hs', hidle, hstream, hpresent⟩ := present_top h hs hmoved (by simp only; omega) ht
        refine ⟨s', ?_, hidle, ?_, fun _ => hpresent⟩
        · rw [nextWithin_token n hplay hplaying hpos, hs']
        · rw [hstream, hnext, pop_token _ _ ht htop.pos_ge]

theorem getNextToken_idle {s : CHtfeLex} (h : s.Idle) :
    ∃ s', s.getNextToken = some s' ∧ s'.Idle ∧ s'.stream = s.stream.next := by
  obtain ⟨s', hs', hidle, hstream, -⟩ := nextWithin_idle _ h (Nat.lt_succ_self _)
  exact ⟨s', hs', hidle, hstream⟩

end CHtfeLex

end OpenHT.Htfe.Playback
