import OpenHT.Htl.Similar

/-!
# `ParseExpression` with a guard

The parser calls itself for the body of a macro whatever it is doing, and after `(` whether or not the
tokenizer moved. The guarded parser refuses both calls when they start what is already going on.

* `guardedExpression`: the parser that knows which macros it is evaluating.
* `guardedLoop_sim`: it ends as `ParseExpression` does, or refused a call.
* `guardedLoop_ends`: it ends, on fuel computed from the table and the length of the text.
-/

namespace OpenHT.Htl

/-- No token starts here: `GetNextToken` neither moves nor replaces `m_tk`. -/
def Dialect.unknownAt (d : Dialect) : Pos → Bool
  | some (c :: cs) => !isBlank c && (punctuator d c cs).isNone && !(c.isAlpha || c = '_') && !c.isDigit
  | _ => false

section

variable (d : Dialect) (table : Table)

/-- The calls of the guarded parser while it evaluates the macros `active`. -/
def guardedCalls (active : List Text)
    (loop : List Text → List Int → List EToken → Bool → Pos → Lexer → Run Parsed) : Calls where
  body name pos lx := if name ∈ active then .cycle else startExpr (loop (name :: active)) pos lx
  nested tk pos lx := if tk = .error ∧ d.unknownAt pos then .cycle else startExpr (loop active) pos lx
  middle := startExpr (loop active)
  loop := loop active

def guardedLoop : ℕ → List Text → List Int → List EToken → Bool → Pos → Lexer → Run Parsed
  | 0, _, _, _, _, _, _ => .more
  | n + 1, active, vs, ops, isSigned, pos, lx =>
    loopBody d table (guardedCalls d active (guardedLoop n)) vs ops isSigned pos lx

/-- `ParseExpression` with the guard. -/
def guardedExpression (n : ℕ) : Pos → Lexer → Run Parsed := startExpr (guardedLoop d table n [])

end

variable {d : Dialect} {table : Table} {α β : Type}

/-- The guard refuses the same calls whatever was read before. -/
theorem guardedCalls_similar {w : GaveUp} {active : List Text}
    {loop loop' : List Text → List Int → List EToken → Bool → Pos → Lexer → Run Parsed}
    (h : ∀ active, LoopSim w (loop active) (loop' active)) :
    (guardedCalls d active loop).Similar w (guardedCalls d active loop') := by
  refine ⟨?_, ?_, fun _ _ _ hx => startExpr_sim (h active) hx, h active⟩
  · intro name pos lx lx' hx
    dsimp only [guardedCalls]
    split
    · exact Or.inr trivial
    · exact startExpr_sim (h _) hx
  · intro tk pos lx lx' hx
    dsimp only [guardedCalls]
    split
    · exact Or.inr trivial
    · exact startExpr_sim (h active) hx

theorem guardedLoop_mono {n m : ℕ} (hnm : n ≤ m) (active : List Text) :
    LoopSim .more (guardedLoop d table n active) (guardedLoop d table m active) := by
  induction n generalizing m active with
  | zero => intro vs ops s s' pos lx lx' _; exact Or.inl rfl
  | succ n ih =>
    obtain ⟨m, rfl⟩ : ∃ k, m = k + 1 := ⟨m - 1, by omega⟩
    have hm : n ≤ m := Nat.le_of_succ_le_succ hnm
    intro vs ops s s' pos lx lx' h
    exact loopBody_sim (guardedCalls_similar fun active => ih hm active) h vs ops s s'

/-- **The guarded calls end as the parser's do, or are refused.** -/
theorem guardedCalls_ofLoop {active : List Text}
    {loop : List Text → List Int → List EToken → Bool → Pos → Lexer → Run Parsed}
    {loop' : List Int → List EToken → Bool → Pos → Lexer → Run Parsed}
    (h : ∀ active, LoopSim .cycle (loop active) loop') :
    (guardedCalls d active loop).Similar .cycle (.ofLoop loop') := by
  refine ⟨?_, ?_, fun _ _ _ hx => startExpr_sim (h active) hx, h active⟩
  · intro name pos lx lx' hx
    dsimp only [guardedCalls]
    split
    · exact Or.inl rfl
    · exact startExpr_sim (h _) hx
  · intro tk pos lx lx' hx
    dsimp only [guardedCalls]
    split
    · exact Or.inl rfl
    · exact startExpr_sim (h active) hx

theorem guardedLoop_sim (n : ℕ) (active : List Text) :
    LoopSim .cycle (guardedLoop d table n active) (parseLoop d table n) := by
  induction n generalizing active with
  | zero => intro vs ops s s' pos lx lx' _; exact Or.inr trivial
  | succ n ih =>
    intro vs ops s s' pos lx lx' h
    exact loopBody_sim (guardedCalls_ofLoop ih) h vs ops s s'

/-! ## What is left of the text -/

/-- The characters left, the terminator included. -/
def Pos.len : Pos → ℕ
  | none => 0
  | some cs => cs.length + 1

/-- The run ends, and when it is done it satisfies `P`. -/
def Ends (P : α → Prop) : Run α → Prop
  | .done a => P a
  | .more => False
  | _ => True

theorem Ends.bind {P : α → Prop} {Q : β → Prop} {x : Run α} {f : α → Run β} (h : Ends P x)
    (hf : ∀ a, P a → Ends Q (f a)) : Ends Q (x >>= f) := by
  cases x with
  | done a => exact hf a h
  | more => exact h.elim
  | _ => trivial

theorem Ends.ne_more {P : α → Prop} {x : Run α} (h : Ends P x) : x ≠ .more := by
  rintro rfl
  exact h

theorem Ends.mono {P Q : α → Prop} {x : Run α} (h : Ends P x) (hpq : ∀ a, P a → Q a) : Ends Q x := by
  cases x with
  | done a => exact hpq a h
  | more => exact h
  | _ => trivial

theorem dropWhile_length_le (p : Char → Bool) (cs : Text) : (cs.dropWhile p).length ≤ cs.length :=
  (List.dropWhile_sublist p).length_le

theorem follow_len (cs : Text) (alts : List (Char × EToken)) (tk : EToken) :
    (follow cs alts tk).2.len ≤ cs.length + 1 := by
  induction alts with
  | nil => exact Nat.le_refl _
  | cons a alts ih =>
    obtain ⟨c, tk'⟩ := a
    dsimp only [follow]
    split
    · dsimp only [Pos.len]
      rw [List.length_tail]
      omega
    · exact ih

/-- Every case of the switch passes the character it looked at. -/
theorem punctuator_len {c : Char} {cs : Text} {t : EToken × Pos} (h : punctuator d c cs = some t) :
    t.2.len ≤ cs.length + 1 := by
  have hcs : Pos.len (some cs) ≤ cs.length + 1 := Nat.le_refl _
  have htail : Pos.len (if cs = [] then none else some cs.tail) ≤ cs.length + 1 := by
    split
    · exact Nat.zero_le _
    · dsimp only [Pos.len]
      rw [List.length_tail]
      omega
  unfold punctuator at h
  split at h <;> first | (obtain rfl := Option.some.inj h) | (split at h <;> first | (obtain rfl := Option.some.inj h) | cases h) | cases h
  all_goals first | exact hcs | exact htail | exact follow_len ..

theorem skipTypeSuffix_len (cs : Text) (s : Bool) : (skipTypeSuffix cs s).1.length ≤ cs.length := by
  fun_induction skipTypeSuffix cs s with
  | case1 cs s ih => exact Nat.le_succ_of_le ih
  | case2 cs s ih => exact Nat.le_succ_of_le ih
  | case3 cs s ih => exact Nat.le_succ_of_le ih
  | case4 cs s ih => exact Nat.le_succ_of_le ih
  | case5 cs s => exact Nat.le_refl _

theorem numberToken_len (tk : EToken) (text cs : Text) (s : Bool) (lx : Lexer) :
    (numberToken d tk text cs s lx).2.1.len ≤ cs.length + 1 := by
  cases d with
  | defineTable => exact Nat.succ_le_succ (skipTypeSuffix_len cs s)
  | preProcess => exact Nat.le_refl _

/-- What `GetNextToken` leaves of the text. -/
def Moves (d : Dialect) (len : ℕ) (t : EToken × Pos × Lexer) : Prop :=
  t.2.1.len ≤ len ∧ (t.1 ≠ .error → t.2.1.len < len) ∧ (t.1 = .error → d.unknownAt t.2.1 ∨ t.2.1.len < len)

theorem Moves.of_lt {len : ℕ} {t : EToken × Pos × Lexer} (h : t.2.1.len < len) : Moves d len t :=
  ⟨Nat.le_of_lt h, fun _ => h, fun _ => Or.inr h⟩

theorem wordToken_moves {c : Char} {cs : Text} (hb : isBlank c = false) (hp : punctuator d c cs = none)
    (lx : Lexer) : Moves d (cs.length + 2) (wordToken d c cs lx) := by
  have hdrop : ∀ p : Char → Bool, p c = true → ((c :: cs).dropWhile p).length ≤ cs.length := by
    intro p hpc
    rw [List.dropWhile_cons_of_pos hpc]
    exact dropWhile_length_le p cs
  by_cases hi : (c.isAlpha || decide (c = '_')) = true
  · have hident : isIdent c = true := by
      unfold isIdent Char.isAlphanum
      revert hi
      cases c.isAlpha <;> simp +contextual
    have hlen := hdrop isIdent hident
    rw [wordToken, if_pos hi]
    exact Moves.of_lt (by dsimp only [Pos.len]; omega)
  · rw [wordToken, if_neg hi]
    by_cases hd : c.isDigit = true
    · rw [if_pos hd]
      split
      · refine Moves.of_lt (Nat.lt_of_le_of_lt (numberToken_len ..) ?_)
        have hlen := dropWhile_length_le isXDigit cs.tail
        rw [List.length_tail] at hlen
        omega
      · refine Moves.of_lt (Nat.lt_of_le_of_lt (numberToken_len ..) ?_)
        have hlen := hdrop Char.isDigit hd
        omega
    · rw [if_neg hd]
      refine ⟨Nat.le_refl _, fun h => (h rfl).elim, fun _ => Or.inl ?_⟩
      simp only [Dialect.unknownAt, hb, hp]
      simp only [Bool.not_eq_true] at hi hd
      rw [hi, hd]
      rfl

/-- **A token that is none leaves the tokenizer at a character no token starts with.** -/
theorem getNextToken_ends (pos : Pos) (lx : Lexer) :
    Ends (Moves d pos.len) (getNextToken d pos lx) := by
  cases pos with
  | none => trivial
  | some cs =>
    have hlen := dropWhile_length_le isBlank cs
    unfold getNextToken skipSpace
    rw [Run.done_bind]
    cases hcs : cs.dropWhile isBlank with
    | nil => exact Moves.of_lt (Nat.succ_pos _)
    | cons c rest =>
      have hb : isBlank c = false := by
        have := List.head?_dropWhile_not isBlank cs
        rw [hcs] at this
        simpa using this
      rw [hcs] at hlen
      have hle : rest.length + 2 ≤ Pos.len (some cs) := Nat.succ_le_succ hlen
      dsimp only
      split
      · rename_i pos' hp
        exact Moves.of_lt (Nat.lt_of_lt_of_le (Nat.lt_succ_of_le (punctuator_len hp)) hle)
      · rename_i tk pos' _ hp
        exact Moves.of_lt (Nat.lt_of_lt_of_le (Nat.lt_succ_of_le (punctuator_len hp)) hle)
      · rename_i hp
        obtain ⟨h1, h2, h3⟩ := wordToken_moves hb hp lx
        exact ⟨Nat.le_trans h1 hle, fun h => Nat.lt_of_lt_of_le (h2 h) hle,
          fun h => (h3 h).imp_right fun h => Nat.lt_of_lt_of_le h hle⟩

/-- The text left is no longer than `len`. -/
def Within (len : ℕ) (p : Parsed) : Prop := p.pos.len ≤ len

theorem expect_ends (tk : EToken) (msg : String) (pos : Pos) (lx : Lexer) :
    Ends (fun t => t.1.len ≤ pos.len) (expect d tk msg pos lx) := by
  refine (getNextToken_ends pos lx).bind ?_
  rintro ⟨tk', pos', lx'⟩ ⟨hle, -, -⟩
  dsimp only
  split
  · exact hle
  · trivial

theorem definedOperand_ends (pos : Pos) (lx : Lexer) : Ends (Within pos.len) (definedOperand table pos lx) := by
  refine (expect_ends ..).bind ?_
  rintro ⟨pos₁, lx₁⟩ h₁
  refine (expect_ends ..).bind ?_
  rintro ⟨pos₂, lx₂⟩ h₂
  refine (expect_ends ..).bind ?_
  rintro ⟨pos₃, lx₃⟩ h₃
  exact Nat.le_trans h₃ (Nat.le_trans h₂ h₁)

/-- Calls that end: a macro of the table, an expression further on. -/
structure Calls.EndsBelow (d : Dialect) (table : Table) (len : ℕ) (c : Calls) : Prop where
  body : ∀ name text pos lx, table.find name = some text → pos.len ≤ text.length + 1 →
    Ends (fun _ => True) (c.body name pos lx)
  nested : ∀ tk pos lx, (tk = .error ∧ d.unknownAt pos) ∨ pos.len < len →
    Ends (Within pos.len) (c.nested tk pos lx)
  middle : ∀ pos lx, pos.len < len → Ends (Within pos.len) (c.middle pos lx)
  loop : ∀ vs ops s pos lx, pos.len < len → Ends (Within pos.len) (c.loop vs ops s pos lx)

section

variable {c : Calls} {len : ℕ} {pos : Pos}

theorem macroCall_ends (hc : c.EndsBelow d table len) {name text : Text} {lx : Lexer}
    (hfind : table.find name = some text) : Ends (fun _ => True) (macroCall d (c.body name) text lx) := by
  refine (getNextToken_ends (some text) lx).bind ?_
  rintro ⟨tk, bodyPos, bodyLx⟩ ⟨hle, -, -⟩
  exact hc.body name text bodyPos bodyLx hfind hle

theorem identOperand_ends (hc : c.EndsBelow d table len) (lx : Lexer) :
    Ends (Within pos.len) (identOperand d table c pos lx) := by
  unfold identOperand
  split
  · exact definedOperand_ends pos lx
  · split
    · rename_i text hfind _
      refine (macroCall_ends hc hfind).bind ?_
      intro p _
      exact Nat.le_refl _
    · exact Nat.le_refl _
    · trivial

theorem parenOperand_ends (hc : c.EndsBelow d table len) (hp : pos.len ≤ len) (lx : Lexer) :
    Ends (Within pos.len) (parenOperand d c pos lx) := by
  refine (getNextToken_ends pos lx).bind ?_
  rintro ⟨tk, pos₁, lx₁⟩ ⟨hle, hlt, herr⟩
  dsimp only at hle hlt herr
  have hin : (tk = .error ∧ d.unknownAt pos₁) ∨ pos₁.len < len := by
    by_cases htk : tk = .error
    · exact (herr htk).imp (fun h => ⟨htk, h⟩) fun h => Nat.lt_of_lt_of_le h hp
    · exact Or.inr (Nat.lt_of_lt_of_le (hlt htk) hp)
  refine (hc.nested tk pos₁ lx₁ hin).bind ?_
  intro p hwithin
  split
  · exact Nat.le_trans hwithin hle
  · trivial

theorem operand_ends (hc : c.EndsBelow d table len) (hp : pos.len ≤ len) (lx : Lexer) :
    Ends (Within pos.len) (operand d table c pos lx) := by
  unfold operand
  split
  · exact Nat.le_refl _
  · exact Nat.le_refl _
  · exact identOperand_ends hc lx
  · exact parenOperand_ends hc hp lx
  · trivial

theorem ofOption_ends (x : Option α) : Ends (fun _ => True) (Run.ofOption x) := by
  cases x <;> trivial

theorem prefixBang_ends (vs : List Int) (ops : List EToken) (lx : Lexer) :
    Ends (fun t => t.2.2.1.len ≤ pos.len) (prefixBang d vs ops pos lx) := by
  unfold prefixBang
  split
  · refine (ofOption_ends _).bind ?_
    rintro ⟨vs, ops⟩ -
    refine (getNextToken_ends pos lx).bind ?_
    rintro ⟨tk, pos₁, lx₁⟩ ⟨hle, -, -⟩
    dsimp only
    split
    · trivial
    · exact hle
  · exact Nat.le_refl _

/-- The next turn starts further on. -/
theorem nextTurn_ends (hc : c.EndsBelow d table len) (hp : pos.len < len) (vs : List Int)
    (ops : List EToken) (s : Bool) (lx : Lexer) :
    Ends (Within pos.len) (getNextToken d pos lx >>= fun t => c.loop vs ops s t.2.1 t.2.2) := by
  refine (getNextToken_ends pos lx).bind ?_
  rintro ⟨tk, pos₁, lx₁⟩ ⟨hle, -, -⟩
  have hlt : pos₁.len < len := Nat.lt_of_le_of_lt hle hp
  exact (hc.loop vs ops s pos₁ lx₁ hlt).mono fun p h => Nat.le_trans h hle

theorem questionOperator_ends (hc : c.EndsBelow d table len) (hp : pos.len < len) (vs : List Int)
    (ops : List EToken) (s : Bool) (lx : Lexer) :
    Ends (Within pos.len) (questionOperator d c vs ops s pos lx) := by
  refine (ofOption_ends _).bind ?_
  rintro ⟨vs, ops⟩ -
  refine (getNextToken_ends pos lx).bind ?_
  rintro ⟨tk, pos₁, lx₁⟩ ⟨hle, -, -⟩
  have hlt : pos₁.len < len := Nat.lt_of_le_of_lt hle hp
  refine (hc.middle pos₁ lx₁ hlt).bind ?_
  intro p hwithin
  have hp₁ : p.pos.len ≤ pos.len := Nat.le_trans hwithin hle
  split
  · exact (nextTurn_ends hc (Nat.lt_of_le_of_lt hp₁ hp) _ _ _ _).mono fun q h => Nat.le_trans h hp₁
  · trivial

theorem operator_ends (hc : c.EndsBelow d table len) (hp : pos.len ≤ len) (vs : List Int)
    (ops : List EToken) (s : Bool) (lx : Lexer) :
    Ends (Within pos.len) (operator d c vs ops s pos lx) := by
  refine (getNextToken_ends pos lx).bind ?_
  rintro ⟨tk, pos₁, lx₁⟩ ⟨hle, hlt, -⟩
  dsimp only at hle hlt ⊢
  split
  · unfold finish
    split
    · exact hle
    · trivial
  · split
    · refine (ofOption_ends _).bind ?_
      rintro ⟨vs, ops⟩ -
      have hp₁ : pos₁.len < len := Nat.lt_of_lt_of_le (hlt (fun h => EToken.noConfusion h)) hp
      exact (nextTurn_ends hc hp₁ vs ops s lx₁).mono fun q h => Nat.le_trans h hle
    · have hp₁ : pos₁.len < len := Nat.lt_of_lt_of_le (hlt (fun h => EToken.noConfusion h)) hp
      exact (questionOperator_ends hc hp₁ vs ops s lx₁).mono fun q h => Nat.le_trans h hle
    · trivial

theorem loopBody_ends (hc : c.EndsBelow d table len) (hp : pos.len ≤ len) (vs : List Int)
    (ops : List EToken) (s : Bool) (lx : Lexer) :
    Ends (Within pos.len) (loopBody d table c vs ops s pos lx) := by
  unfold loopBody
  split
  · trivial
  · refine (prefixBang_ends vs ops lx).bind ?_
    rintro ⟨vs, ops, pos₁, lx₁⟩ h₁
    dsimp only at h₁ ⊢
    refine (operand_ends hc (Nat.le_trans h₁ hp) lx₁).bind ?_
    intro p h₂
    have hle : p.pos.len ≤ pos.len := Nat.le_trans h₂ h₁
    exact (operator_ends hc (Nat.le_trans hle hp) _ _ _ _).mono fun q h => Nat.le_trans h hle

end

/-! ## The fuel that is enough -/

/-- More than the text of any macro. -/
def Table.size : Table → ℕ
  | [] => 0
  | (_, text) :: table => text.length + 1 + Table.size table

/-- The macros that may still be entered. -/
def Table.inactive (active : List Text) : Table → ℕ
  | [] => 0
  | (name, _) :: table => (if name ∈ active then 0 else 1) + Table.inactive active table

theorem Table.find_size {name text : Text} (h : table.find name = some text) :
    text.length + 1 ≤ table.size := by
  induction table with
  | nil => cases h
  | cons e table ih =>
    obtain ⟨name', text'⟩ := e
    rw [Table.find, List.lookup_cons] at h
    dsimp only [Table.size]
    split at h
    · obtain rfl := Option.some.inj h
      omega
    · exact Nat.le_add_left_of_le (ih h)

theorem Table.inactive_le (name : Text) (active : List Text) (table : Table) :
    table.inactive (name :: active) ≤ table.inactive active := by
  induction table with
  | nil => exact Nat.le_refl _
  | cons e table ih =>
    obtain ⟨name', text'⟩ := e
    dsimp only [Table.inactive]
    by_cases h : name' ∈ active
    · rw [if_pos h, if_pos (List.mem_cons_of_mem _ h)]
      omega
    · rw [if_neg h]
      split <;> omega

theorem Table.inactive_lt {name text : Text} {active : List Text} (hname : name ∉ active)
    (h : table.find name = some text) : table.inactive (name :: active) < table.inactive active := by
  induction table with
  | nil => cases h
  | cons e table ih =>
    obtain ⟨name', text'⟩ := e
    rw [Table.find, List.lookup_cons] at h
    dsimp only [Table.inactive]
    split at h
    · rename_i heq
      obtain rfl : name = name' := by simpa using heq
      have hle := Table.inactive_le name active table
      rw [if_pos List.mem_cons_self, if_neg hname]
      omega
    · have hlt := ih h
      have hne : name' ∈ name :: active ↔ name' ∈ active := by
        rename_i heq
        have hnn : ¬ name = name' := by simpa using heq
        rw [List.mem_cons]
        exact or_iff_right fun h => hnn h.symm
      simp only [hne]
      omega

theorem startExpr_ends {loop : List Int → List EToken → Bool → Pos → Lexer → Run Parsed} {len : ℕ}
    (hl : ∀ vs ops s pos lx, pos.len ≤ len → Ends (Within pos.len) (loop vs ops s pos lx)) {pos : Pos}
    (hp : pos.len ≤ len) (lx : Lexer) : Ends (Within pos.len) (startExpr loop pos lx) := by
  cases pos with
  | none => trivial
  | some cs =>
    have hle : Pos.len (some (cs.dropWhile isBlank)) ≤ Pos.len (some cs) :=
      Nat.succ_le_succ (dropWhile_length_le isBlank cs)
    exact (hl _ _ _ _ lx (Nat.le_trans hle hp)).mono fun q h => Nat.le_trans h hle

/-- **The guarded parser ends.** A macro uses up a name of the table, any other call some of the text. -/
theorem guardedLoop_ends (n : ℕ) (active : List Text) (vs : List Int) (ops : List EToken) (s : Bool)
    (pos : Pos) (lx : Lexer) (h : table.inactive active * (table.size + 1) + pos.len < n) :
    Ends (Within pos.len) (guardedLoop d table n active vs ops s pos lx) := by
  induction n generalizing active vs ops s pos lx with
  | zero => omega
  | succ n ih =>
    have hstart : ∀ active pos lx, table.inactive active * (table.size + 1) + pos.len < n →
        Ends (Within pos.len) (startExpr (guardedLoop d table n active) pos lx) := by
      intro active pos lx hn
      refine startExpr_ends ?_ (Nat.le_refl _) lx
      intro vs ops s pos' lx' hle
      exact ih active vs ops s pos' lx' (by omega)
    refine loopBody_ends ⟨?_, ?_, ?_, ?_⟩ (Nat.le_refl _) vs ops s lx
    · intro name text pos' lx' hfind hle
      dsimp only [guardedCalls]
      split
      · trivial
      · rename_i hname
        have hsize := Table.find_size hfind
        have hlt : table.inactive (name :: active) + 1 ≤ table.inactive active :=
          Table.inactive_lt hname hfind
        have hmul := Nat.mul_le_mul_right (table.size + 1) hlt
        rw [Nat.succ_mul] at hmul
        exact (hstart _ pos' lx' (by omega)).mono fun _ _ => trivial
    · intro tk pos' lx' hin
      dsimp only [guardedCalls]
      split
      · trivial
      · rename_i hok
        have hlt : pos'.len < pos.len := hin.resolve_left hok
        exact hstart active pos' lx' (by omega)
    · intro pos' lx' hlt
      exact hstart active pos' lx' (by omega)
    · intro vs' ops' s' pos' lx' hlt
      exact ih active vs' ops' s' pos' lx' (by omega)

end OpenHT.Htl
