import OpenHT.Htl.ParseExpr

/-!
# Similar runs of `ParseExpression`

Two runs are similar if they end alike, the signedness and the messages aside, or if the first gave up.

* `Sim`, `Sim.bind`: the relation, which sequences keep.
* `loopBody_sim`: one turn of the loop keeps it when its calls do.
* `parseLoop_sim`: neither more fuel nor the signedness or the messages before it change a run.
-/

namespace OpenHT.Htl

/-- Why a run gives up. -/
inductive GaveUp
  | cycle
  | more

variable {α β : Type}

def GaveUp.run : GaveUp → Run α
  | .cycle => .cycle
  | .more => .more

/-- Two runs that end in the same way. -/
def Alike (R : α → α → Prop) : Run α → Run α → Prop
  | .done a, .done b => R a b
  | .fail _, .fail _ | .fault, .fault | .cycle, .cycle | .more, .more => True
  | _, _ => False

attribute [local simp] Alike

/-- The first run gave up, or both end in the same way. -/
def Sim (w : GaveUp) (R : α → α → Prop) (x y : Run α) : Prop := x = w.run ∨ Alike R x y

section

variable {w : GaveUp} {R : α → α → Prop} {S : β → β → Prop} {x y : Run α}

theorem Sim.bind {f g : α → Run β} (h : Sim w R x y) (hf : ∀ a b, R a b → Sim w S (f a) (g b)) :
    Sim w S (x >>= f) (y >>= g) := by
  rcases h with rfl | h
  · left; cases w <;> rfl
  · cases x <;> cases y <;> first | exact h.elim | exact Or.inr trivial | skip
    exact hf _ _ h

theorem Sim.done {a b : α} (h : R a b) : Sim w R (.done a) (.done b) := Or.inr h

theorem Sim.fail (lx lx' : Lexer) : Sim w R (.fail lx) (.fail lx') := Or.inr trivial

theorem Alike.more_iff (h : Alike R x y) : x = .more ↔ y = .more := by
  cases x <;> cases y <;> simp_all [Alike]

theorem Alike.cycle_iff (h : Alike R x y) : x = .cycle ↔ y = .cycle := by
  cases x <;> cases y <;> simp_all [Alike]

theorem Alike.done_left {a : α} (h : Alike R (.done a) y) : ∃ b, y = .done b ∧ R a b := by
  cases y with
  | done b => exact ⟨b, rfl, h⟩
  | _ => exact h.elim

end

/-- The same token. -/
def Lexer.Same (lx lx' : Lexer) : Prop := lx.tk = lx'.tk ∧ lx.tkString = lx'.tkString

namespace Lexer.Same

variable {lx lx' : Lexer}

theorem refl (lx : Lexer) : lx.Same lx := ⟨rfl, rfl⟩

theorem symm (h : lx.Same lx') : lx'.Same lx := ⟨h.1.symm, h.2.symm⟩

theorem parseMsg (h : lx.Same lx') (m m' : String) : (lx.parseMsg m).Same (lx'.parseMsg m') := h

theorem setTk (h : lx.Same lx') (tk : EToken) : (lx.setTk tk).Same (lx'.setTk tk) := ⟨rfl, h.2⟩

end Lexer.Same

/-- The same results, the signedness and the messages aside. -/
def Parsed.Same (p p' : Parsed) : Prop := p.value = p'.value ∧ p.pos = p'.pos ∧ p.lx.Same p'.lx

/-- The same token at the same place. -/
def SameTok (t t' : EToken × Pos × Lexer) : Prop := t.1 = t'.1 ∧ t.2.1 = t'.2.1 ∧ t.2.2.Same t'.2.2

section

variable {d : Dialect} {w : GaveUp} {lx lx' : Lexer}

theorem numberToken_same (tk : EToken) (text cs : Text) (s : Bool) :
    SameTok (numberToken d tk text cs s lx) (numberToken d tk text cs s lx') := by
  cases d <;> exact ⟨rfl, rfl, rfl, rfl⟩

theorem wordToken_same (h : lx.Same lx') (c : Char) (cs : Text) :
    SameTok (wordToken d c cs lx) (wordToken d c cs lx') := by
  unfold wordToken
  split
  · exact ⟨rfl, rfl, rfl, rfl⟩
  · split
    · split <;> exact numberToken_same ..
    · exact ⟨rfl, rfl, h⟩

/-- **The next token does not depend on the signedness and the messages.** -/
theorem getNextToken_sim (h : lx.Same lx') (pos : Pos) :
    Sim w SameTok (getNextToken d pos lx) (getNextToken d pos lx') := by
  unfold getNextToken
  refine Sim.bind (R := Eq) ?_ ?_
  · cases pos with
    | none => exact Or.inr trivial
    | some cs => exact .done rfl
  · intro cs _ hcs
    subst hcs
    cases cs with
    | nil => exact .done ⟨rfl, rfl, h.setTk _⟩
    | cons c cs =>
      dsimp only
      split
      · exact .done ⟨rfl, rfl, h⟩
      · exact .done ⟨rfl, rfl, h.setTk _⟩
      · exact .done (wordToken_same h c cs)

theorem getTokenValue_same (h : lx.Same lx') :
    (getTokenValue lx).1 = (getTokenValue lx').1 ∧ (getTokenValue lx).2.Same (getTokenValue lx').2 := by
  obtain ⟨ht, hs⟩ := h
  unfold getTokenValue
  rw [ht, hs]
  dsimp only
  split
  · exact ⟨rfl, ht, hs⟩
  · exact ⟨rfl, ht, hs⟩

end

/-- Calls that are similar. -/
structure Calls.Similar (w : GaveUp) (c c' : Calls) : Prop where
  body : ∀ name pos lx lx', lx.Same lx' → Sim w Parsed.Same (c.body name pos lx) (c'.body name pos lx')
  nested : ∀ tk pos lx lx', lx.Same lx' → Sim w Parsed.Same (c.nested tk pos lx) (c'.nested tk pos lx')
  middle : ∀ pos lx lx', lx.Same lx' → Sim w Parsed.Same (c.middle pos lx) (c'.middle pos lx')
  loop : ∀ vs ops s s' pos lx lx', lx.Same lx' →
    Sim w Parsed.Same (c.loop vs ops s pos lx) (c'.loop vs ops s' pos lx')

section

variable {d : Dialect} {table : Table} {w : GaveUp} {c c' : Calls} {pos : Pos} {lx lx' : Lexer}

theorem expect_sim (h : lx.Same lx') (tk : EToken) (msg : String) :
    Sim w (fun t t' => t.1 = t'.1 ∧ t.2.Same t'.2) (expect d tk msg pos lx) (expect d tk msg pos lx') := by
  refine Sim.bind (getNextToken_sim h pos) ?_
  rintro ⟨tk₁, pos₁, lx₁⟩ ⟨tk₂, pos₂, lx₂⟩ ⟨ht, hp, hx⟩
  dsimp only at ht hp hx ⊢
  rw [ht]
  split
  · exact .done ⟨hp, hx⟩
  · exact .fail _ _

theorem definedOperand_sim (h : lx.Same lx') :
    Sim w Parsed.Same (definedOperand table pos lx) (definedOperand table pos lx') := by
  refine Sim.bind (expect_sim h _ _) ?_
  rintro ⟨pos₁, lx₁⟩ ⟨_, lx₁'⟩ ⟨rfl, h₁⟩
  refine Sim.bind (expect_sim h₁ _ _) ?_
  rintro ⟨pos₂, lx₂⟩ ⟨_, lx₂'⟩ ⟨rfl, h₂⟩
  refine Sim.bind (expect_sim h₂ _ _) ?_
  rintro ⟨pos₃, lx₃⟩ ⟨_, lx₃'⟩ ⟨rfl, h₃⟩
  refine .done ⟨?_, rfl, h₃⟩
  dsimp only
  rw [h₃.2]

theorem macroCall_sim {call call' : Pos → Lexer → Run Parsed} {text : Text} (h : lx.Same lx')
    (hcall : ∀ pos lx lx', lx.Same lx' → Sim w Parsed.Same (call pos lx) (call' pos lx')) :
    Sim w Parsed.Same (macroCall d call text lx) (macroCall d call' text lx') := by
  refine Sim.bind (getNextToken_sim h _) ?_
  rintro ⟨tk₁, pos₁, lx₁⟩ ⟨_, _, lx₂⟩ ⟨-, rfl, hx⟩
  exact hcall _ _ _ hx

theorem identOperand_sim (hc : c.Similar w c') (h : lx.Same lx') :
    Sim w Parsed.Same (identOperand d table c pos lx) (identOperand d table c' pos lx') := by
  unfold identOperand
  rw [← h.2]
  split
  · exact definedOperand_sim h
  · split
    · refine Sim.bind (macroCall_sim h (hc.body _)) ?_
      intro p p' hpp
      exact .done ⟨hpp.1, rfl, hpp.2.2⟩
    · exact .done ⟨rfl, rfl, h⟩
    · exact .fail _ _

theorem parenOperand_sim (hc : c.Similar w c') (h : lx.Same lx') :
    Sim w Parsed.Same (parenOperand d c pos lx) (parenOperand d c' pos lx') := by
  refine Sim.bind (getNextToken_sim h pos) ?_
  rintro ⟨tk₁, pos₁, lx₁⟩ ⟨_, _, lx₂⟩ ⟨rfl, rfl, hx⟩
  refine Sim.bind (hc.nested _ _ _ _ hx) ?_
  intro p p' hp
  rw [hp.2.2.1]
  split
  · exact .done hp
  · exact .fail _ _

theorem operand_sim (hc : c.Similar w c') (h : lx.Same lx') :
    Sim w Parsed.Same (operand d table c pos lx) (operand d table c' pos lx') := by
  have hv := getTokenValue_same h
  unfold operand
  rw [← h.1]
  split
  · exact .done ⟨hv.1, rfl, hv.2⟩
  · exact .done ⟨hv.1, rfl, hv.2⟩
  · exact identOperand_sim hc h
  · exact parenOperand_sim hc h
  · exact .fail _ _

theorem ofOption_sim {x : Option α} : Sim w Eq (Run.ofOption x) (Run.ofOption x) := by
  cases x with
  | none => exact Or.inr trivial
  | some a => exact .done rfl

theorem prefixBang_sim (h : lx.Same lx') (vs : List Int) (ops : List EToken) :
    Sim w (fun t t' => t.1 = t'.1 ∧ t.2.1 = t'.2.1 ∧ t.2.2.1 = t'.2.2.1 ∧ t.2.2.2.Same t'.2.2.2)
      (prefixBang d vs ops pos lx) (prefixBang d vs ops pos lx') := by
  unfold prefixBang
  rw [← h.1]
  split
  · refine Sim.bind ofOption_sim ?_
    rintro ⟨vs, ops⟩ _ rfl
    refine Sim.bind (getNextToken_sim h pos) ?_
    rintro ⟨tk₁, pos₁, lx₁⟩ ⟨_, _, lx₂⟩ ⟨rfl, rfl, hx⟩
    dsimp only
    split
    · exact .fail _ _
    · exact .done ⟨rfl, rfl, rfl, hx⟩
  · exact .done ⟨rfl, rfl, rfl, h⟩

theorem finish_sim (h : lx.Same lx') (vs : List Int) (ops : List EToken) (s s' : Bool) :
    Sim w Parsed.Same (finish d vs ops s pos lx) (finish d vs ops s' pos lx') := by
  unfold finish
  split
  · exact .done ⟨rfl, rfl, h⟩
  · exact Or.inr trivial

theorem binaryOperator_sim (hc : c.Similar w c') (h : lx.Same lx') (o : BinOp) (vs : List Int)
    (ops : List EToken) (s s' : Bool) :
    Sim w Parsed.Same (binaryOperator d c o vs ops s pos lx) (binaryOperator d c' o vs ops s' pos lx') := by
  refine Sim.bind ofOption_sim ?_
  rintro ⟨vs, ops⟩ _ rfl
  refine Sim.bind (getNextToken_sim h pos) ?_
  rintro ⟨tk₁, pos₁, lx₁⟩ ⟨_, _, lx₂⟩ ⟨-, rfl, hx⟩
  exact hc.loop _ _ _ _ _ _ _ hx

theorem questionOperator_sim (hc : c.Similar w c') (h : lx.Same lx') (vs : List Int) (ops : List EToken)
    (s s' : Bool) :
    Sim w Parsed.Same (questionOperator d c vs ops s pos lx) (questionOperator d c' vs ops s' pos lx') := by
  refine Sim.bind ofOption_sim ?_
  rintro ⟨vs, ops⟩ _ rfl
  refine Sim.bind (getNextToken_sim h pos) ?_
  rintro ⟨tk₁, pos₁, lx₁⟩ ⟨_, _, lx₂⟩ ⟨-, rfl, hx⟩
  refine Sim.bind (hc.middle _ _ _ hx) ?_
  rintro ⟨v, s₁, pos₃, lx₃⟩ ⟨_, s₂, _, lx₄⟩ ⟨rfl, rfl, hy⟩
  dsimp only at hy ⊢
  rw [hy.1]
  split
  · refine Sim.bind (getNextToken_sim hy _) ?_
    rintro ⟨tk₅, pos₅, lx₅⟩ ⟨_, _, lx₆⟩ ⟨-, rfl, hz⟩
    exact hc.loop _ _ _ _ _ _ _ hz
  · exact .fail _ _

theorem operator_sim (hc : c.Similar w c') (h : lx.Same lx') (vs : List Int) (ops : List EToken)
    (s s' : Bool) :
    Sim w Parsed.Same (operator d c vs ops s pos lx) (operator d c' vs ops s' pos lx') := by
  refine Sim.bind (getNextToken_sim h pos) ?_
  rintro ⟨tk₁, pos₁, lx₁⟩ ⟨_, _, lx₂⟩ ⟨rfl, rfl, hx⟩
  dsimp only
  split
  · exact finish_sim hx vs ops s s'
  · split
    · exact binaryOperator_sim hc hx _ vs ops s s'
    · exact questionOperator_sim hc hx vs ops s s'
    · exact .fail _ _

/-- **A turn of the loop is similar if its calls are.** -/
theorem loopBody_sim (hc : c.Similar w c') (h : lx.Same lx') (vs : List Int) (ops : List EToken)
    (s s' : Bool) :
    Sim w Parsed.Same (loopBody d table c vs ops s pos lx) (loopBody d table c' vs ops s' pos lx') := by
  unfold loopBody
  rw [← h.1]
  split
  · exact .fail _ _
  · refine Sim.bind (prefixBang_sim h vs ops) ?_
    rintro ⟨vs, ops, pos, lx⟩ ⟨_, _, _, lx'⟩ ⟨rfl, rfl, rfl, hx⟩
    refine Sim.bind (operand_sim hc hx) ?_
    rintro ⟨v, s₁, pos₁, lx₁⟩ ⟨_, s₂, _, lx₂⟩ ⟨rfl, rfl, hy⟩
    exact operator_sim hc hy _ _ _ _

/-- The loops of two parsers, similar from similar lexers on. -/
def LoopSim (w : GaveUp) (loop loop' : List Int → List EToken → Bool → Pos → Lexer → Run Parsed) : Prop :=
  ∀ vs ops s s' pos lx lx', lx.Same lx' →
    Sim w Parsed.Same (loop vs ops s pos lx) (loop' vs ops s' pos lx')

theorem startExpr_sim {loop loop' : List Int → List EToken → Bool → Pos → Lexer → Run Parsed}
    (hl : LoopSim w loop loop') (h : lx.Same lx') :
    Sim w Parsed.Same (startExpr loop pos lx) (startExpr loop' pos lx') := by
  refine Sim.bind (R := Eq) ?_ ?_
  · cases pos with
    | none => exact Or.inr trivial
    | some cs => exact .done rfl
  · rintro cs _ rfl
    exact hl _ _ _ _ _ _ _ h

theorem Calls.ofLoop_similar {loop loop' : List Int → List EToken → Bool → Pos → Lexer → Run Parsed}
    (hl : LoopSim w loop loop') : (Calls.ofLoop loop).Similar w (.ofLoop loop') :=
  ⟨fun _ _ _ _ h => startExpr_sim hl h, fun _ _ _ _ h => startExpr_sim hl h,
    fun _ _ _ h => startExpr_sim hl h, hl⟩

/-- **More fuel does not change how a run ends, nor does what was read before it.** -/
theorem parseLoop_sim {n m : ℕ} (hnm : n ≤ m) : LoopSim .more (parseLoop d table n) (parseLoop d table m) := by
  induction n generalizing m with
  | zero => intro vs ops s s' pos lx lx' _; exact Or.inl rfl
  | succ n ih =>
    obtain ⟨m, rfl⟩ : ∃ k, m = k + 1 := ⟨m - 1, by omega⟩
    have hm : n ≤ m := Nat.le_of_succ_le_succ hnm
    intro vs ops s s' pos lx lx' h
    exact loopBody_sim (Calls.ofLoop_similar (ih hm)) h vs ops s s'

end

end OpenHT.Htl
