import OpenHT.Vex.Lex
import OpenHT.Vex.LineRank

/-!
# The lexer comes to the end of its file

* `place`, `Ended`: what is left of the file and of the line, and the end of both.
* `Less`: the states that come after one in which something is left.
* `getNextToken_total`: a call of `GetNextToken` ends, with a token and less to read or at the end of the file.
* `skipTo_total`: so does `SkipTo`.
-/

namespace OpenHT.Vex.Lex

open Program

variable {exits : CDesign → Bool} {s s' : CDesign}

def place (s : CDesign) : Rank ×ₗ ℕ := toLex (rank s.pre, s.line.length)

theorem place_lt : place s' < place s ↔
    rank s'.pre < rank s.pre ∨ rank s'.pre = rank s.pre ∧ s'.line.length < s.line.length := toLex_lt

/-- The lexer is at the end of the last line. -/
structure Ended (s : CDesign) : Prop where
  line : s.line.head? = some nul
  fp : s.pre.fp = []
  atLine : s.pre.bRepositionToLineStart = false

/-- Something is left in `s`, and less or nothing in `s'`. -/
def Less (s' s : CDesign) : Prop := ¬ Ended s ∧ (Ended s' ∨ place s' < place s)

theorem less_wf : WellFounded Less := by
  have hended (s : CDesign) (h : Ended s) : Acc Less s := ⟨s, fun _ hless => absurd h hless.1⟩
  refine ⟨fun s => ?_⟩
  induction s using (InvImage.wf place wellFounded_lt).induction with
  | _ s ih => exact ⟨s, fun s' hless => hless.2.elim (hended s') (ih s')⟩

/-- The other members do not count. -/
theorem Ended.congr (h : Ended s) (hpre : s'.pre = s.pre) (hline : s'.line = s.line) : Ended s' :=
  ⟨hline ▸ h.line, hpre ▸ h.fp, hpre ▸ h.atLine⟩

theorem place_congr (hpre : s'.pre = s.pre) (hline : s'.line = s.line) : place s' = place s := by
  rw [place, place, hpre, hline]

theorem Less.congr {s₀ : CDesign} (h : Less s s₀) (hpre : s'.pre = s.pre) (hline : s'.line = s.line) : Less s' s₀ := by
  refine ⟨h.1, h.2.imp (fun hended => hended.congr hpre hline) fun hlt => ?_⟩
  rw [place_congr hpre hline]
  exact hlt

theorem Less.trans {s₁ s₂ s₃ : CDesign} (h : Less s₁ s₂) (h' : Less s₂ s₃) : Less s₁ s₃ := by
  obtain ⟨h₂, h₁⟩ := h
  obtain ⟨h₃, h₂'⟩ := h'
  refine ⟨h₃, h₁.imp_right fun hlt => ?_⟩
  exact lt_trans hlt (h₂'.resolve_left h₂)

theorem place_le_of_line (hpre : s'.pre = s.pre) (hline : s'.line.length ≤ s.line.length) : place s' ≤ place s := by
  rw [← not_lt, place_lt, hpre]
  rintro (hlt | ⟨-, hlt⟩)
  · exact lt_irrefl _ hlt
  · omega

theorem place_lt_of_line (hpre : s'.pre = s.pre) (hline : s'.line.length < s.line.length) : place s' < place s :=
  place_lt.2 (.inr ⟨by rw [hpre], hline⟩)

/-! ## Within a line -/

/-- A program that stays in the line. -/
def Walks {α : Type} (p : Parser α) : Prop :=
  ∀ s, Total p s fun _ s' => s'.pre = s.pre ∧ s'.line.length ≤ s.line.length

theorem Walks.bind {α β : Type} {p : Parser α} {k : α → Parser β} (hp : Walks p) (hk : ∀ a, Walks (k a)) :
    Walks (p >>= k) := by
  intro s
  refine (hp s).bind fun a s₁ h₁ => (hk a s₁).mono fun b s₂ h₂ => ?_
  exact ⟨h₂.1.trans h₁.1, Nat.le_trans h₂.2 h₁.2⟩

theorem walks_pure {α : Type} (a : α) : Walks (pure a) := fun _ => Total.pure ⟨rfl, Nat.le_refl _⟩

theorem walks_parseMsg : Walks (parseMsg exits) := by
  intro s
  refine Total.modify_bind (Total.get_bind ?_)
  exact Total.ite (fun _ => Total.stop) fun _ => Total.pure ⟨rfl, Nat.le_refl _⟩

theorem walks_setString (str : Str) : Walks (setString str) := fun _ => Total.modify ⟨rfl, Nat.le_refl _⟩

theorem walks_copy (str : Str) : Walks (copy str) :=
  fun s => Total.ite (fun _ => Total.stop) fun _ => walks_setString str s

theorem setLine_bind {α : Type} {k : Unit → Parser α} {Q : α → CDesign → Prop} {line : Str}
    (h : Total (k ()) { s with line := line } Q) : Total (setLine line >>= k) s Q := Total.modify_bind h

/-- A run of characters: what it takes and what it leaves are the line. -/
theorem takeWhile_bind {α : Type} {k : Str → Parser α} {Q : α → CDesign → Prop} {p : Char → Bool}
    (h : Total (k (s.line.takeWhile p)) { s with line := s.line.dropWhile p } Q) : Total (takeWhile p >>= k) s Q := by
  refine Total.bind (R := fun a s' => a = s.line.takeWhile p ∧ s' = { s with line := s.line.dropWhile p }) ?_ ?_
  · exact Total.get_bind (Total.ite (fun _ => Total.stop) fun _ => setLine_bind (Total.pure ⟨rfl, rfl⟩))
  · rintro _ _ ⟨rfl, rfl⟩
    exact h

theorem takeWhile_length (p : Char → Bool) (l : Str) :
    (l.takeWhile p).length + (l.dropWhile p).length = l.length := by
  rw [← List.length_append, List.takeWhile_append_dropWhile]

/-- The first character of a number or of a name is taken. -/
theorem takeWhile_pos {p : Char → Bool} {c : Char} {line : Str} (hc : p c = true) :
    0 < ((c :: line).takeWhile p).length := by
  rw [List.takeWhile_cons, if_pos hc]
  exact Nat.succ_pos _

/-- A token that is copied stands in the line. -/
structure Copied (s s' : CDesign) : Prop where
  pre : s'.pre = s.pre
  length : s'.line.length + s'.string.length ≤ s.line.length
  pos : 0 < s'.string.length

theorem copy_total {text : Str} {Q : Unit → CDesign → Prop} (h : Q () { s with string := text }) :
    Total (copy text) s Q := Total.ite (fun _ => Total.stop) fun _ => Total.modify h

theorem getName_total {c : Char} {line : Str} (hline : s.line = c :: line) (hc : isNameChar c = true) :
    Total getName s fun _ s' => Copied s s' := by
  have hlen := takeWhile_length isNameChar s.line
  have hpos : 0 < (s.line.takeWhile isNameChar).length := hline ▸ takeWhile_pos hc
  exact takeWhile_bind (copy_total ⟨rfl, by dsimp only; omega, hpos⟩)

theorem getEscaped_total : Total getEscaped s fun _ s' => Copied s s' := by
  have hlen := takeWhile_length (fun c => c != ' ' && c != nul) s.line
  refine takeWhile_bind (Total.get_bind (Total.ite (fun hhead => ?_) fun _ => Total.stop))
  refine setLine_bind (copy_total ⟨rfl, ?_, ?_⟩)
  · -- the blank is part of the name
    have hpos : 0 < (s.line.dropWhile fun c => c != ' ' && c != nul).length := by
      apply List.length_pos_iff.2
      intro hnil
      rw [hnil] at hhead
      cases hhead
    simp only [List.length_append, List.length_cons, List.length_nil, List.length_tail]
    omega
  · simp only [List.length_append, List.length_cons, List.length_nil]
    omega

theorem walks_takeWhile (p : Char → Bool) : Walks (takeWhile p) := by
  intro s
  have hlen := takeWhile_length p s.line
  refine Total.get_bind (Total.ite (fun _ => Total.stop) fun _ => setLine_bind (Total.pure ⟨rfl, ?_⟩))
  dsimp only
  omega

theorem getNumber_total {c : Char} {line : Str} (hline : s.line = c :: line) (hc : c.isDigit = true) :
    Total (getNumber exits) s fun _ s' => s'.pre = s.pre ∧ s'.line.length < s.line.length := by
  have hlen := takeWhile_length Char.isDigit s.line
  have hpos : 0 < (s.line.takeWhile Char.isDigit).length := hline ▸ takeWhile_pos hc
  refine Total.get_bind (takeWhile_bind (Total.get_bind (setLine_bind ?_)))
  refine ((walks_takeWhile _).bind fun _ => walks_parseMsg.bind fun _ => walks_copy _) _ |>.mono fun _ s' h => ?_
  refine ⟨h.1, ?_⟩
  have hle := h.2
  simp only [List.length_drop] at hle
  omega

/-! ## Lines -/

/-- What a call of `GetLine` says: there was another line, or not. -/
structure Gets (s : CDesign) (b : Bool) (s' : CDesign) : Prop where
  sound : Sound s'.pre
  more : b = true → ¬ Ended s ∧ rank s'.pre < rank s.pre
  eof : b = false → Ended s'

theorem ended_atEof (s : CDesign) : Ended (atEof s) := ⟨rfl, rfl, rfl⟩

theorem getLine_eof {st : CPreProcess} (hfp : st.fp = []) (hrep : st.bRepositionToLineStart = false) :
    Vex.getLine st = .eof := by
  unfold Vex.getLine
  rw [hrep, if_neg Bool.false_ne_true]
  unfold readLine
  rw [if_pos hfp]

theorem sound_atEof (h : Sound s.pre) : Sound (atEof s).pre := ⟨Nat.zero_le _, h.index, h.width⟩

theorem getLineRound_total (h : Sound s.pre) : Total (getLineRound exits ()) s fun o s' =>
    o.elim (fun _ => Sound s'.pre ∧ ¬ Ended s ∧ rank s'.pre < rank s.pre) fun more => Gets s more s' := by
  refine Total.get_bind ?_
  have hspec := getLine_spec h
  cases hget : Vex.getLine s.pre with
  | line text pre =>
    rw [hget] at hspec
    have hended : ¬ Ended s := by
      intro hended
      rw [getLine_eof hended.fp hended.atLine] at hget
      cases hget
    refine Total.modify_bind ((walks_parseMsg _).bind fun _ s₁ h₁ => ?_)
    have hpre : s₁.pre = pre := h₁.1
    obtain ⟨hsound, hrank⟩ := hspec
    rw [← hpre] at hsound hrank
    refine Total.ite (fun _ => Total.pure ⟨hsound, hended, hrank⟩) fun _ => Total.pure ?_
    refine ⟨hsound, fun _ => ⟨hended, hrank⟩, ?_⟩
    intro hfalse
    cases hfalse
  | eof =>
    refine Total.modify_bind (Total.pure ⟨sound_atEof h, ?_, fun _ => ended_atEof s⟩)
    intro htrue
    cases htrue
  | undef => exact Total.stop
  | fuel =>
    rw [hget] at hspec
    exact hspec.elim

theorem getLine_total (h : Sound s.pre) : Total (getLine exits) s (Gets s) := by
  have hwf : WellFounded fun s' s : CDesign => rank s'.pre < rank s.pre :=
    InvImage.wf (fun s : CDesign => rank s.pre) wellFounded_lt
  refine Total.loop hwf
    (fun _ s₁ => Sound s₁.pre ∧ (s₁ = s ∨ ¬ Ended s ∧ rank s₁.pre < rank s.pre)) (fun _ s₁ hI => ?_) ⟨h, .inl rfl⟩
  refine (getLineRound_total hI.1).mono fun o s₂ ho => ?_
  rcases o with _ | more
  · obtain ⟨hsound, hended, hlt⟩ := ho
    refine ⟨⟨hsound, .inr ?_⟩, hlt⟩
    rcases hI.2 with rfl | ⟨hended', hlt'⟩
    · exact ⟨hended, hlt⟩
    · exact ⟨hended', lt_trans hlt hlt'⟩
  · have ho : Gets s₁ more s₂ := ho
    refine ⟨ho.sound, fun hmore => ?_, ho.eof⟩
    obtain ⟨hended, hlt⟩ := ho.more hmore
    rcases hI.2 with rfl | ⟨hended', hlt'⟩
    · exact ⟨hended, hlt⟩
    · exact ⟨hended', lt_trans hlt hlt'⟩

theorem Gets.place_lt {b : Bool} (h : Gets s b s') (hb : b = true) : place s' < place s :=
  Lex.place_lt.2 (.inl (h.more hb).2)

/-- A line is read where one has to be. -/
theorem getLine_if {c : Prop} [Decidable c] (h : Sound s.pre) :
    Total (if c then getLine exits else pure true) s fun b s' =>
      Sound s'.pre ∧ (b = true → place s' ≤ place s) ∧ (b = false → Ended s') := by
  refine Total.ite (fun _ => (getLine_total h).mono fun b s' hget => ?_) fun _ => Total.pure ⟨h, fun _ => le_refl _, ?_⟩
  · exact ⟨hget.sound, fun hb => le_of_lt (hget.place_lt hb), hget.eof⟩
  · intro hfalse
    cases hfalse

theorem place_wf : WellFounded fun s' s : CDesign => place s' < place s := InvImage.wf place wellFounded_lt

theorem stringLoop_total (str : Str) (h : Sound s.pre) :
    Total (loop (getStringRound exits) str) s fun _ s' => Sound s'.pre ∧ place s' ≤ place s := by
  refine Total.loop place_wf (fun _ s₁ => Sound s₁.pre ∧ place s₁ ≤ place s) (fun str s₁ hI => ?_) ⟨h, le_refl _⟩
  refine Total.get_bind (Total.ite (fun _ => Total.pure hI) fun _ => ?_)
  refine (getLine_if hI.1).bind fun b s₂ hget => Total.ite (fun hb => ?_) fun _ => Total.stop
  have hle := hget.2.1 hb
  refine Total.get_bind ?_
  cases hline : s₂.line with
  | nil => exact Total.stop
  | cons c line =>
    have hlt : place { s₂ with line := line } < place s₂ := place_lt_of_line rfl (hline ▸ Nat.lt_succ_self _)
    exact setLine_bind (Total.pure ⟨⟨hget.1, le_trans (le_of_lt hlt) (le_trans hle hI.2)⟩, lt_of_lt_of_le hlt hle⟩)

theorem getString_total {c : Char} {line : Str} (hline : s.line = c :: line) (h : Sound s.pre) :
    Total (getString exits) s fun _ s' => Sound s'.pre ∧ place s' < place s := by
  refine Total.get_bind (setLine_bind ?_)
  have hlt : place { s with line := s.line.tail } < place s := by
    refine place_lt_of_line rfl ?_
    rw [hline]
    exact Nat.lt_succ_self _
  refine Total.bind (stringLoop_total (s := { s with line := s.line.tail }) [] h) fun str s₁ h₁ => ?_
  refine Total.bind (walks_parseMsg s₁) fun _ s₂ h₂ => Total.get_bind (setLine_bind ?_)
  refine Total.modify ⟨?_, ?_⟩
  · have hsound := h₁.1
    rw [← h₂.1] at hsound
    exact hsound
  · refine lt_of_le_of_lt (place_le_of_line h₂.1 ?_) (lt_of_le_of_lt h₁.2 hlt)
    have hle := h₂.2
    simp only [List.length_tail]
    omega

theorem skipComment_total (h : Sound s.pre) : Total (skipComment exits) s fun b s' =>
    Sound s'.pre ∧ (b = true → place s' ≤ place s) ∧ (b = false → Ended s') := by
  refine Total.loop place_wf (fun _ s₁ => Sound s₁.pre ∧ place s₁ ≤ place s) (fun _ s₁ hI => ?_) ⟨h, le_refl _⟩
  refine Total.get_bind (Total.ite (fun _ => setLine_bind (Total.pure ⟨hI.1, fun _ => ?_, ?_⟩)) fun _ => ?_)
  · have hdrop : place { s₁ with line := s₁.line.drop 2 } ≤ place s₁ := by
      refine place_le_of_line rfl ?_
      simp only [List.length_drop]
      omega
    exact le_trans hdrop hI.2
  · intro hfalse
    cases hfalse
  · cases hline : s₁.line with
    | nil => exact Total.stop
    | cons c line =>
      have hlt : place { s₁ with line := line } < place s₁ := place_lt_of_line rfl (hline ▸ Nat.lt_succ_self _)
      refine setLine_bind (Total.bind (getLine_if hI.1) fun b s₂ hget => ?_)
      refine Total.ite (fun hb => Total.pure ?_) fun hb => Total.pure ?_
      · have hle := lt_of_le_of_lt (hget.2.1 hb) hlt
        exact ⟨⟨hget.1, le_trans (le_of_lt hle) hI.2⟩, hle⟩
      · refine ⟨hget.1, ?_, fun _ => hget.2.2 (eq_false_of_ne_true hb)⟩
        intro hfalse
        cases hfalse

/-! ## Tokens -/

/-- Room for the text of a name. -/
def Room (s s' : CDesign) : Prop :=
  rank s'.pre < rank s.pre ∨ rank s'.pre = rank s.pre ∧ s'.line.length + s'.string.length ≤ s.line.length

/-- A token that comes after `s`. -/
structure NextToken (s : CDesign) (t : EToken) (s' : CDesign) : Prop where
  sound : Sound s'.pre
  token : s'.token = t
  eof : t = .eof → Ended s'
  more : t ≠ .eof → Less s' s
  ident : t = .ident → Room s s'

/-- What a round of `GetNextToken` says: a token, or that there is less to read. -/
def TokenRound (s : CDesign) (o : Unit ⊕ EToken) (s' : CDesign) : Prop :=
  o.elim (fun _ => Sound s'.pre ∧ ¬ Ended s ∧ place s' < place s) fun t => NextToken s t s'

theorem not_ended {c : Char} {line : Str} (hline : s.line = c :: line) (hc : c ≠ nul) : ¬ Ended s := by
  intro h
  have hhead := h.line
  rw [hline] at hhead
  exact hc (Option.some.inj hhead)

theorem setToken_total {t : EToken} {Q : EToken → CDesign → Prop} (h : Q t { s with token := t }) :
    Total (setToken t) s Q := Total.modify_bind (Total.pure h)

theorem found_total {s₀ : CDesign} {token : EToken} {get : Parser Unit} (ht : token ≠ .eof)
    (h : Total get s fun _ s' => Sound s'.pre ∧ Less s' s₀ ∧ (token = .ident → Room s₀ s')) :
    Total (found token get) s (TokenRound s₀) := by
  refine h.bind fun _ s₁ h₁ => Total.bind (R := NextToken s₀) (setToken_total ?_) fun t s₂ h₂ => Total.pure h₂
  exact ⟨h₁.1, rfl, fun heof => absurd heof ht, fun _ => h₁.2.1.congr rfl rfl, h₁.2.2⟩

theorem eof_total {s₀ : CDesign} (hsound : Sound s.pre) (h : Ended s) :
    Total (do
      let token ← setToken .eof
      return .inr token) s (TokenRound s₀) := by
  refine Total.bind (R := NextToken s₀) (setToken_total ?_) fun t s₂ h₂ => Total.pure h₂
  refine ⟨hsound, rfl, fun _ => h.congr rfl rfl, fun hne => absurd rfl hne, ?_⟩
  intro hident
  cases hident

theorem nextLine_total (h : Sound s.pre) : Total (nextLine exits) s (TokenRound s) := by
  refine (getLine_total h).bind fun b s₁ h₁ => Total.ite (fun hb => Total.pure ?_) fun hb => ?_
  · exact ⟨h₁.sound, (h₁.more hb).1, h₁.place_lt hb⟩
  · exact eof_total h₁.sound (h₁.eof (eq_false_of_ne_true hb))

theorem slash_total {line : Str} (hline : s.line = '/' :: line) (h : Sound s.pre) :
    Total (slash exits line) s (TokenRound s) := by
  have hended := not_ended hline (by decide)
  refine Total.ite (fun _ => nextLine_total h) fun _ => Total.ite (fun _ => setLine_bind ?_) fun _ => ?_
  · have hlt : place { s with line := line.tail } < place s := by
      refine place_lt_of_line rfl ?_
      rw [hline]
      simp only [List.length_tail, List.length_cons]
      omega
    refine (skipComment_total (s := { s with line := line.tail }) h).bind fun b s₁ h₁ => ?_
    refine Total.ite (fun hb => ?_) fun hb => ?_
    · exact Total.pure ⟨h₁.1, hended, lt_of_le_of_lt (h₁.2.1 hb) hlt⟩
    · exact eof_total h₁.1 (h₁.2.2 (eq_false_of_ne_true hb))
  · have hlt : place { s with line := line } < place s := place_lt_of_line rfl (hline ▸ Nat.lt_succ_self _)
    refine setLine_bind (Total.bind (R := NextToken s) (setToken_total ?_) fun t s₂ h₂ => Total.pure h₂)
    refine ⟨h, rfl, fun heof => ?_, fun _ => ⟨hended, .inr hlt⟩, fun hident => ?_⟩
    · cases heof
    · cases hident

/-- The state after at least one token. -/
def Later (s s' : CDesign) : Prop := Less s' s ∨ Ended s ∧ Ended s'

theorem NextToken.later {t : EToken} (h : NextToken s t s') : Later s s' := by
  by_cases ht : t = .eof
  · have hended := h.eof ht
    by_cases hs : Ended s
    · exact .inr ⟨hs, hended⟩
    · exact .inl ⟨hs, .inl hended⟩
  · exact .inl (h.more ht)

theorem Later.trans {s₁ s₂ s₃ : CDesign} (h : Later s₁ s₂) (h' : Later s₂ s₃) : Later s₁ s₃ := by
  rcases h with h | ⟨h₁, h₂⟩
  · rcases h' with h' | ⟨-, h₃⟩
    · exact .inl (h'.trans h)
    · exact .inl ⟨h.1, .inl h₃⟩
  · rcases h' with h' | ⟨-, h₃⟩
    · exact absurd h₂ h'.1
    · exact .inr ⟨h₁, h₃⟩

/-- **`SkipTo`** ends where the tokens do. -/
theorem skipToWith_total {nextToken : Parser EToken} {token : EToken}
    (hnext : ∀ s₁, (s₁ = s ∨ Less s₁ s) → Sound s₁.pre → Total nextToken s₁ (NextToken s₁)) (h : Sound s.pre) :
    Total (skipToWith nextToken token) s fun _ s' => Sound s'.pre ∧ Later s s' := by
  refine Total.loop less_wf (fun _ s₁ => Sound s₁.pre ∧ (s₁ = s ∨ Less s₁ s)) (fun lvl s₁ hI => ?_) ⟨h, .inl rfl⟩
  refine (hnext s₁ hI.2 hI.1).bind fun tk s₂ h₂ => ?_
  have hlater : Later s s₂ := by
    rcases hI.2 with rfl | hless
    · exact h₂.later
    · exact Later.trans (.inl hless) h₂.later
  refine Total.ite (fun _ => Total.pure ⟨h₂.sound, hlater⟩) fun htk => ?_
  have hless := h₂.more htk
  have hnext : Less s₂ s := by
    rcases hI.2 with rfl | hless'
    · exact hless
    · exact hless.trans hless'
  refine Total.ite (fun _ => ?_) fun _ => Total.ite (fun _ => ?_) fun _ => ?_
  · exact Total.ite (fun _ => Total.pure ⟨h₂.sound, hlater⟩) fun _ => Total.pure ⟨⟨h₂.sound, .inr hnext⟩, hless⟩
  · exact Total.pure ⟨⟨h₂.sound, .inr hnext⟩, hless⟩
  · exact Total.pure ⟨⟨h₂.sound, .inr hnext⟩, hless⟩

theorem orElse_length {c : Char} {two one token : EToken} {line line' : Str}
    (h : some (orElse c two one line) = some (token, line')) (htwo : two ≠ .eof ∧ two ≠ .ident)
    (hone : one ≠ .eof ∧ one ≠ .ident) : line'.length ≤ line.length ∧ token ≠ .eof ∧ token ≠ .ident := by
  have htail := List.length_tail (l := line)
  unfold orElse at h
  split at h
  · cases h
    exact ⟨by omega, htwo⟩
  · cases h
    exact ⟨Nat.le_refl _, hone⟩

/-- An operator is behind its first character. -/
theorem operator_length {c : Char} {line line' : Str} {token : EToken} (h : operator c line = some (token, line')) :
    line'.length ≤ line.length ∧ token ≠ .eof ∧ token ≠ .ident := by
  have htail := List.length_tail (l := line)
  unfold operator at h
  split at h
  case h_2 =>
    split at h
    · cases h
      exact ⟨by omega, by decide, by decide⟩
    · exact orElse_length h (by decide) (by decide)
  case h_25 => cases h
  all_goals
    first
    | exact orElse_length h (by decide) (by decide)
    | cases h; exact ⟨Nat.le_refl _, by decide, by decide⟩

theorem Copied.room (h : Copied s s') : Room s s' := .inr ⟨by rw [h.pre], h.length⟩

theorem Copied.less (hs : ¬ Ended s) (h : Copied s s') : Less s' s := by
  have hlen := h.length
  have hpos := h.pos
  exact ⟨hs, .inr (place_lt_of_line h.pre (by omega))⟩

/-- **A round of `GetNextToken`**, where the calls that skip a statement end. -/
theorem tokenRound_total {nextToken : Parser EToken}
    (hnext : ∀ s₁, Less s₁ s → Sound s₁.pre → Total nextToken s₁ (NextToken s₁)) (h : Sound s.pre) :
    Total (tokenRound exits nextToken ()) s (TokenRound s) := by
  refine Total.get_bind ?_
  cases hline : s.line with
  | nil => exact Total.stop
  | cons c line =>
    have hlt : place { s with line := line } < place s := place_lt_of_line rfl (hline ▸ Nat.lt_succ_self _)
    refine Total.ite (fun hblank => ?_) fun _ => Total.ite (fun hslash => ?_) fun _ => ?_
    · refine setLine_bind (Total.pure ⟨h, not_ended hline ?_, hlt⟩)
      rintro rfl
      exact absurd hblank (by decide)
    · subst hslash
      exact slash_total hline h
    · refine Total.ite (fun _ => nextLine_total h) fun hnul => ?_
      have hended := not_ended hline hnul
      refine Total.ite (fun _ => ?_) fun _ => Total.ite (fun _ => ?_) fun _ => ?_
      · refine found_total (by decide) ((getString_total hline h).mono fun _ s₁ h₁ => ⟨h₁.1, ⟨hended, .inr h₁.2⟩, ?_⟩)
        intro hident
        cases hident
      · refine found_total (by decide) (getEscaped_total.mono fun _ s₁ h₁ => ?_)
        exact ⟨h₁.pre ▸ h, h₁.less hended, fun _ => h₁.room⟩
      · cases hop : operator c line with
        | some x =>
          obtain ⟨token, line'⟩ := x
          obtain ⟨hle, heof, hident⟩ := operator_length hop
          refine found_total heof (Total.modify ⟨h, ⟨hended, .inr (place_lt_of_line rfl ?_)⟩, fun h => absurd h hident⟩)
          rw [hline]
          exact Nat.lt_succ_of_le hle
        | none =>
          refine Total.ite (fun hname => ?_) fun _ => Total.ite (fun hdigit => ?_) fun _ => ?_
          · have hc : isNameChar c = true := by
              unfold isNameChar
              rcases hname with hname | hname
              · rw [Char.isAlphanum, hname]
                rfl
              · rw [hname]
                rfl
            refine found_total (by decide) ((getName_total hline hc).mono fun _ s₁ h₁ => ?_)
            exact ⟨h₁.pre ▸ h, h₁.less hended, fun _ => h₁.room⟩
          · refine found_total (by decide) ((getNumber_total hline hdigit).mono fun _ s₁ h₁ => ⟨h₁.1 ▸ h, ?_, ?_⟩)
            · exact ⟨hended, .inr (place_lt_of_line h₁.1 h₁.2)⟩
            · intro hident
              cases hident
          · -- what is left of the statement is skipped
            refine found_total (by decide) (setLine_bind (Total.bind (walks_parseMsg _) fun _ s₁ h₁ => ?_))
            have hless : Less s₁ s := ⟨hended, .inr (lt_of_le_of_lt (place_le_of_line h₁.1 h₁.2) hlt)⟩
            have hsound : Sound s₁.pre := h₁.1 ▸ h
            refine (skipToWith_total (fun s₂ h₂ => hnext s₂ ?_) hsound).mono fun _ s₂ h₂ => ⟨h₂.1, ?_, ?_⟩
            · rcases h₂ with rfl | h₂
              · exact hless
              · exact h₂.trans hless
            · rcases h₂.2 with h₂ | ⟨-, h₂⟩
              · exact h₂.trans hless
              · exact ⟨hended, .inl h₂⟩
            · intro hident
              cases hident

/-! ## Calls -/

theorem tokenWith_agree {n : ℕ} {p q : Parser EToken} (hpq : Agree n p q) :
    Agree n (tokenWith exits p) (tokenWith exits q) := by
  refine Agree.loop (fun _ => Agree.bind (Agree.refl _) fun s => ?_) ()
  cases s.line with
  | nil => exact Agree.refl _
  | cons c line =>
    refine Agree.ite (Agree.refl _) (Agree.ite (Agree.refl _) (Agree.ite (Agree.refl _) (Agree.ite (Agree.refl _)
      (Agree.ite (Agree.refl _) ?_))))
    cases operator c line with
    | some x => exact Agree.refl _
    | none =>
      refine Agree.ite (Agree.refl _) (Agree.ite (Agree.refl _) (Agree.bind (Agree.bind (Agree.refl _) fun _ =>
        Agree.bind (Agree.refl _) fun _ => ?_) fun _ => Agree.refl _))
      exact Agree.loop (fun _ => Agree.bind hpq fun _ => Agree.refl _) 0

theorem getNextToken_succ (n : ℕ) (s : CDesign) :
    getNextToken exits (n + 1) s = tokenWith exits (getNextToken exits) n s := by
  have hagree : Agree n (fun _ => getNextToken exits n) (getNextToken exits) := fun _ => rfl
  rw [getNextToken]
  exact tokenWith_agree hagree s

/-- **`GetNextToken`** ends, with a token and less to read or at the end of the file. -/
theorem getNextToken_total (h : Sound s.pre) : Total (getNextToken exits) s (NextToken s) := by
  induction s using less_wf.induction with
  | _ s ih =>
    refine Total.call getNextToken_succ (Total.loop place_wf
      (fun _ s₁ => Sound s₁.pre ∧ (s₁ = s ∨ ¬ Ended s ∧ place s₁ < place s)) (fun _ s₁ hI => ?_) ⟨h, .inl rfl⟩)
    have hnext (s₂ : CDesign) (h₂ : Less s₂ s₁) (hsound : Sound s₂.pre) :
        Total (getNextToken exits) s₂ (NextToken s₂) := by
      refine ih s₂ ?_ hsound
      rcases hI.2 with rfl | ⟨hended, hlt⟩
      · exact h₂
      · exact h₂.trans ⟨hended, .inr hlt⟩
    refine (tokenRound_total hnext hI.1).mono fun o s₂ ho => ?_
    rcases o with _ | t
    · obtain ⟨hsound, hended, hlt⟩ := ho
      refine ⟨⟨hsound, .inr ?_⟩, hlt⟩
      rcases hI.2 with rfl | ⟨hended', hlt'⟩
      · exact ⟨hended, hlt⟩
      · exact ⟨hended', lt_trans hlt hlt'⟩
    · have ho : NextToken s₁ t s₂ := ho
      rcases hI.2 with rfl | ⟨hended, hlt⟩
      · exact ho
      · refine ⟨ho.sound, ho.token, ho.eof, fun ht => (ho.more ht).trans ⟨hended, .inr hlt⟩, fun ht => ?_⟩
        rcases ho.ident ht with hroom | ⟨hrank, hlen⟩
        · rcases place_lt.1 hlt with hlt | ⟨heq, -⟩
          · exact .inl (lt_trans hroom hlt)
          · exact .inl (heq ▸ hroom)
        · rcases place_lt.1 hlt with hlt | ⟨heq, hlt⟩
          · exact .inl (hrank ▸ hlt)
          · exact .inr ⟨hrank.trans heq, by omega⟩

theorem skipTo_total {token : EToken} (h : Sound s.pre) :
    Total (skipTo exits token) s fun _ s' => Sound s'.pre ∧ Later s s' :=
  skipToWith_total (fun _ _ hsound => getNextToken_total hsound) h

/-! ## The end of the file -/

/-- The state behind the last token. -/
def last (s : CDesign) : CDesign := { atEof s with token := .eof }

theorem ended_last (s : CDesign) : Ended (last s) := ⟨rfl, rfl, rfl⟩

/-- Once there, the lexer stays there. -/
theorem last_last (s : CDesign) : last (last s) = last s := rfl

theorem nextLine_eof (hfp : s.pre.fp = []) (hrep : s.pre.bRepositionToLineStart = false) :
    Ends (nextLine exits) s (some (.inr .eof, last s)) := by
  have hround : Ends (getLineRound exits ()) s (some (.inr false, atEof s)) := by
    refine Ends.get_bind ?_
    rw [getLine_eof hfp hrep]
    exact Ends.modify_bind (Ends.pure _ _)
  refine (EndsRounds.last hround).ends.bind ?_
  rw [if_neg Bool.false_ne_true]
  exact Ends.bind (Ends.modify_bind (Ends.pure _ _)) (Ends.pure _ _)

theorem tokenRound_eof {nextToken : Parser EToken} {line : Str} (hline : s.line = nul :: line) (hfp : s.pre.fp = [])
    (hrep : s.pre.bRepositionToLineStart = false) :
    Ends (tokenRound exits nextToken ()) s (some (.inr .eof, last s)) := by
  refine Ends.get_bind ?_
  rw [hline]
  exact nextLine_eof hfp hrep

theorem getNextToken_ended (h : Ended s) : Ends (getNextToken exits) s (some (.eof, last s)) := by
  obtain ⟨line, hline⟩ : ∃ line, s.line = nul :: line := by
    have hhead := h.line
    cases hl : s.line with
    | nil =>
      rw [hl] at hhead
      cases hhead
    | cons c line =>
      rw [hl] at hhead
      exact ⟨line, by rw [Option.some.inj hhead]⟩
  exact Ends.call getNextToken_succ (EndsRounds.last (tokenRound_eof hline h.fp h.atLine)).ends

/-- The end of a line that `GetLineBuf` has taken, and of the file. -/
theorem getNextToken_newline (hline : s.line = ['\n', nul]) (hfp : s.pre.fp = [])
    (hrep : s.pre.bRepositionToLineStart = false) : Ends (getNextToken exits) s (some (.eof, last s)) := by
  have hblank : Ends (tokenRound exits (getNextToken exits) ()) s (some (.inl (), { s with line := [nul] })) := by
    refine Ends.get_bind ?_
    rw [hline]
    exact Ends.modify_bind (Ends.pure _ _)
  exact Ends.call getNextToken_succ (EndsRounds.next hblank (EndsRounds.last (tokenRound_eof rfl hfp hrep))).ends

end OpenHT.Vex.Lex
