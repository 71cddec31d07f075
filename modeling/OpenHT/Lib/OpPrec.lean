import Mathlib.Data.Nat.Notation

/-!
# Operator precedence

Expressions with prefix and binary operators, `?:` and parentheses, where a smaller precedence binds
tighter. A grammar makes all binary operators left or all of them right associative.

* `Expr.Fits`: the tree is one of the grammar, no operand needs parentheses it does not have.
* `Frame`, `Grammar.reduce`: the stack of an operator precedence parser and what an operator does to it.
* `reduce_render`, `Held.reduce`: it keeps the tokens read, and the stack a part of a tree.
* `parse_tokens`, `Fits.eq_of_tokens`: the parser finds the tree of a text, which therefore is unique.
-/

namespace OpenHT.OpPrec

inductive Expr (A U B : Type)
  | atom (a : A)
  | paren (e : Expr A U B)
  | pre (u : U) (e : Expr A U B)
  | bin (o : B) (a b : Expr A U B)
  | cond (c a b : Expr A U B)
deriving DecidableEq

inductive Tok (A S : Type)
  | atom (a : A)
  | sym (s : S)
  | lParen
  | rParen
  | question
  | colon
deriving DecidableEq

/-- Operators over the symbols `S`; a symbol may be a prefix and a binary operator. -/
structure Grammar (U B S : Type) where
  preSym : U → S
  binSym : B → S
  asPre : S → Option U
  asBin : S → Option B
  asPre_preSym : ∀ u, asPre (preSym u) = some u
  asBin_binSym : ∀ o, asBin (binSym o) = some o
  prec : B → ℕ
  preLevel : ℕ
  condLevel : ℕ
  leftAssoc : Bool
  preLevel_lt : ∀ o, preLevel < prec o
  lt_condLevel : ∀ o, prec o < condLevel
  preLevel_lt_condLevel : preLevel < condLevel

variable {A U B S : Type} {g : Grammar U B S}

namespace Grammar

variable (g : Grammar U B S)

/-- An operand of level `n` may stand to the left of an operator of precedence `p`. -/
def left (p n : ℕ) : Prop := n < p ∨ n = p ∧ g.leftAssoc

/-- An operand of level `n` may stand to the right of an operator of precedence `p`. -/
def right (p n : ℕ) : Prop := n < p ∨ n = p ∧ ¬g.leftAssoc

instance (p n : ℕ) : Decidable (g.left p n) := inferInstanceAs (Decidable (_ ∨ _))

instance (p n : ℕ) : Decidable (g.right p n) := inferInstanceAs (Decidable (_ ∨ _))

end Grammar

namespace Expr

/-- The tokens of an expression. -/
def tokens (g : Grammar U B S) : Expr A U B → List (Tok A S)
  | atom a => [.atom a]
  | paren e => .lParen :: e.tokens g ++ [.rParen]
  | pre u e => .sym (g.preSym u) :: e.tokens g
  | bin o a b => a.tokens g ++ .sym (g.binSym o) :: b.tokens g
  | cond c a b => c.tokens g ++ .question :: a.tokens g ++ .colon :: b.tokens g

/-- The precedence of the outermost operator. -/
def level (g : Grammar U B S) : Expr A U B → ℕ
  | atom _ | paren _ => 0
  | pre _ _ => g.preLevel
  | bin o _ _ => g.prec o
  | cond _ _ _ => g.condLevel

/-- Every operand binds as tightly as its place demands. -/
def Fits (g : Grammar U B S) : Expr A U B → Prop
  | atom _ => True
  | paren e => e.Fits g
  | pre _ e => e.Fits g ∧ e.level g ≤ g.preLevel
  | bin o a b => a.Fits g ∧ b.Fits g ∧ g.left (g.prec o) (a.level g) ∧ g.right (g.prec o) (b.level g)
  | cond c a b => c.Fits g ∧ a.Fits g ∧ b.Fits g ∧ c.level g < g.condLevel ∧ b.level g ≤ g.condLevel

end Expr

/-! ## The stack -/

/-- What waits for the operand that is read: an operator with what was read before it. -/
inductive Frame (A U B : Type)
  | bin (a : Expr A U B) (o : B)
  | pre (u : U)
  | cond (c a : Expr A U B)
  /-- An open parenthesis. -/
  | paren
  /-- A `?` before its `:`. -/
  | quest (c : Expr A U B)

namespace Frame

def tokens (g : Grammar U B S) : Frame A U B → List (Tok A S)
  | bin a o => a.tokens g ++ [.sym (g.binSym o)]
  | pre u => [.sym (g.preSym u)]
  | cond c a => c.tokens g ++ .question :: a.tokens g ++ [.colon]
  | paren => [.lParen]
  | quest c => c.tokens g ++ [.question]

/-- The tree when the operand is there. -/
def close : Frame A U B → Expr A U B → Expr A U B
  | bin a o, t => .bin o a t
  | pre u, t => .pre u t
  | cond c a, t => .cond c a t
  | paren, t => t
  | quest _, t => t

/-- The level of the tree that is made of the frame in the end. -/
def level (g : Grammar U B S) : Frame A U B → ℕ
  | bin _ o => g.prec o
  | pre _ => g.preLevel
  | cond _ _ => g.condLevel
  | paren => 0
  | quest _ => g.condLevel

/-- The frame is an operator with all of its left side. -/
def Closes : Frame A U B → Prop
  | bin _ _ | pre _ | cond _ _ => True
  | paren | quest _ => False

/-- An operand of level `n` may follow. -/
def Admits (g : Grammar U B S) (n : ℕ) : Frame A U B → Prop
  | bin _ o => g.right (g.prec o) n
  | pre _ => n ≤ g.preLevel
  | cond _ _ => n ≤ g.condLevel
  | paren | quest _ => True

instance (n : ℕ) : (f : Frame A U B) → Decidable (f.Admits g n)
  | bin _ _ => inferInstanceAs (Decidable (g.right _ _))
  | pre _ | cond _ _ => inferInstanceAs (Decidable (_ ≤ _))
  | paren | quest _ => inferInstanceAs (Decidable True)

/-- The trees of the frame fit. -/
def Fits (g : Grammar U B S) : Frame A U B → Prop
  | bin a o => a.Fits g ∧ g.left (g.prec o) (a.level g)
  | pre _ | paren => True
  | cond c a => c.Fits g ∧ a.Fits g ∧ c.level g < g.condLevel
  | quest c => c.Fits g ∧ c.level g < g.condLevel

end Frame

/-- The tokens of a stack, whose last frame comes first. -/
def render (g : Grammar U B S) : List (Frame A U B) → List (Tok A S)
  | [] => []
  | f :: fs => render g fs ++ f.tokens g

/-- The last frame admits an operand of level `n`. -/
def Top (g : Grammar U B S) (n : ℕ) (fs : List (Frame A U B)) : Prop := ∀ f ∈ fs.head?, f.Admits g n

/-- A stack that can become part of a tree. -/
def Held (g : Grammar U B S) : List (Frame A U B) → Prop
  | [] => True
  | f :: fs => f.Fits g ∧ Top g (f.level g) fs ∧ Held g fs

/-- An operator of precedence `p` closes the frames that do not admit it. -/
def Grammar.reduce (g : Grammar U B S) (p : ℕ) : List (Frame A U B) → Expr A U B →
    List (Frame A U B) × Expr A U B
  | [], t => ([], t)
  | f :: fs, t => if f.Admits g p then (f :: fs, t) else g.reduce p fs (f.close t)

namespace Frame

variable {f : Frame A U B} {n m p : ℕ}

theorem Admits.mono (h : f.Admits g n) (hm : m ≤ n) : f.Admits g m := by
  cases f with
  | bin a o =>
    rcases h with h | ⟨rfl, hr⟩
    · exact Or.inl (Nat.lt_of_le_of_lt hm h)
    · exact (Nat.lt_or_eq_of_le hm).imp id fun h => ⟨h, hr⟩
  | pre u => exact Nat.le_trans hm h
  | cond c a => exact Nat.le_trans hm h
  | _ => trivial

theorem admits_zero : f.Admits g 0 := by
  cases f with
  | bin a o => exact Or.inl (Nat.zero_lt_of_lt (g.preLevel_lt o))
  | pre u => exact Nat.zero_le _
  | cond c a => exact Nat.zero_le _
  | _ => trivial

/-- Only operators are closed. -/
theorem closes_of_not_admits (h : ¬f.Admits g p) : f.Closes := by
  cases f with
  | paren => exact h trivial
  | quest c => exact h trivial
  | _ => trivial

/-- An operator that a frame does not admit may stand to the right of its tree. -/
theorem left_of_not_admits (h : ¬f.Admits g p) : g.left p (f.level g) := by
  cases f with
  | bin a o =>
    by_cases hl : g.leftAssoc
    · by_cases hp : g.prec o = p
      · exact Or.inr ⟨hp, hl⟩
      · have hle : g.prec o ≤ p := Nat.le_of_not_lt fun hlt => h (Or.inl hlt)
        exact Or.inl (Nat.lt_of_le_of_ne hle hp)
    · have hne : p ≠ g.prec o := fun heq => h (Or.inr ⟨heq, hl⟩)
      have hle : g.prec o ≤ p := Nat.le_of_not_lt fun hlt => h (Or.inl hlt)
      exact Or.inl (Nat.lt_of_le_of_ne hle hne.symm)
  | pre u => exact Or.inl (Nat.lt_of_not_le h)
  | cond c a => exact Or.inl (Nat.lt_of_not_le h)
  | paren => exact (h trivial).elim
  | quest c => exact (h trivial).elim

theorem lt_of_not_admits_cond (h : ¬f.Admits g g.condLevel) : f.level g < g.condLevel := by
  cases f with
  | bin a o => exact g.lt_condLevel o
  | pre u => exact g.preLevel_lt_condLevel
  | cond c a => exact (h (Nat.le_refl _)).elim
  | paren => exact (h trivial).elim
  | quest c => exact (h trivial).elim

theorem close_level (h : f.Closes) (t : Expr A U B) : (f.close t).level g = f.level g := by
  cases f with
  | paren => exact h.elim
  | quest c => exact h.elim
  | _ => rfl

theorem close_tokens (h : f.Closes) (t : Expr A U B) : (f.close t).tokens g = f.tokens g ++ t.tokens g := by
  cases f with
  | paren => exact h.elim
  | quest c => exact h.elim
  | _ => simp [close, tokens, Expr.tokens]

theorem close_fits (h : f.Closes) {t : Expr A U B} (hf : f.Fits g) (ht : t.Fits g)
    (hadm : f.Admits g (t.level g)) : (f.close t).Fits g := by
  cases f with
  | bin a o => exact ⟨hf.1, ht, hf.2, hadm⟩
  | pre u => exact ⟨ht, hadm⟩
  | cond c a => exact ⟨hf.1, hf.2.1, ht, hf.2.2, hadm⟩
  | paren => exact h.elim
  | quest c => exact h.elim

/-- A frame no looser than the left operand of an operator is closed by it. -/
theorem not_admits_prec (hf : f.Closes) {o : B} {n : ℕ} (hn : g.left (g.prec o) n) (h : f.level g ≤ n) :
    ¬f.Admits g (g.prec o) := by
  have hno : n ≤ g.prec o := hn.elim Nat.le_of_lt fun h => Nat.le_of_eq h.1
  cases f with
  | bin a o' =>
    intro hadm
    have hle : g.prec o' ≤ n := h
    rcases hadm with hlt | ⟨heq, hr⟩
    · omega
    · rcases hn with hlt | ⟨-, hl⟩
      · omega
      · exact hr hl
  | pre u =>
    intro hadm
    have := g.preLevel_lt o
    have hle : g.prec o ≤ g.preLevel := hadm
    omega
  | cond c a =>
    have := g.lt_condLevel o
    have hle : g.condLevel ≤ n := h
    omega
  | paren => exact hf.elim
  | quest c => exact hf.elim

theorem not_admits_cond (hf : f.Closes) (h : f.level g < g.condLevel) : ¬f.Admits g g.condLevel := by
  cases f with
  | bin a o =>
    have := g.lt_condLevel o
    rintro (hlt | ⟨heq, -⟩) <;> omega
  | pre u => exact Nat.not_le_of_lt g.preLevel_lt_condLevel
  | cond c a => exact (Nat.lt_irrefl _ h).elim
  | paren => exact hf.elim
  | quest c => exact hf.elim

theorem not_admits_end (hf : f.Closes) : ¬f.Admits g (g.condLevel + 1) := by
  cases f with
  | bin a o =>
    have := g.lt_condLevel o
    rintro (hlt | ⟨heq, -⟩) <;> omega
  | pre u => exact Nat.not_le_of_lt (Nat.lt_succ_of_lt g.preLevel_lt_condLevel)
  | cond c a => exact Nat.not_succ_le_self _
  | paren => exact hf.elim
  | quest c => exact hf.elim

end Frame

/-! ## What an operator does to the stack -/

section Reduce

variable {p n m : ℕ} {f : Frame A U B} {fs : List (Frame A U B)} {t : Expr A U B}

theorem Top.nil : Top g n ([] : List (Frame A U B)) := by
  intro f hf
  cases hf

theorem Top.cons (h : f.Admits g n) : Top g n (f :: fs) := by
  intro f' hf'
  obtain rfl : f = f' := Option.some.inj hf'
  exact h

theorem Top.mono (h : Top g n fs) (hm : m ≤ n) : Top g m fs := fun f hf => (h f hf).mono hm

theorem Top.zero : Top g 0 fs := fun _ _ => Frame.admits_zero

theorem reduce_of_top (h : Top g p fs) (t : Expr A U B) : g.reduce p fs t = (fs, t) := by
  cases fs with
  | nil => rfl
  | cons f fs => exact if_pos (h f rfl)

theorem reduce_cons (h : ¬f.Admits g p) (t : Expr A U B) :
    g.reduce p (f :: fs) t = g.reduce p fs (f.close t) := if_neg h

/-- **Closing frames keeps the tokens.** -/
theorem reduce_render (p : ℕ) (fs : List (Frame A U B)) (t : Expr A U B) :
    render g (g.reduce p fs t).1 ++ (g.reduce p fs t).2.tokens g = render g fs ++ t.tokens g := by
  induction fs generalizing t with
  | nil => rfl
  | cons f fs ih =>
    by_cases h : f.Admits g p
    · rw [reduce_of_top (Top.cons h)]
    · rw [reduce_cons h, ih, Frame.close_tokens (Frame.closes_of_not_admits h), render, List.append_assoc]

theorem reduce_stop (p : ℕ) (fs : List (Frame A U B)) (t : Expr A U B) : Top g p (g.reduce p fs t).1 := by
  induction fs generalizing t with
  | nil => exact Top.nil
  | cons f fs ih =>
    by_cases h : f.Admits g p
    · rw [reduce_of_top (Top.cons h)]
      exact Top.cons h
    · rw [reduce_cons h]
      exact ih _

/-- What the tree left by `reduce` is made of. -/
structure Reduced (g : Grammar U B S) (fs : List (Frame A U B)) (t : Expr A U B) : Prop where
  held : Held g fs
  fits : t.Fits g
  top : Top g (t.level g) fs

/-- **Closing frames keeps the stack a part of a tree.** -/
theorem Held.reduce (hs : Held g fs) (ht : t.Fits g) (htop : Top g (t.level g) fs) :
    Reduced g (g.reduce p fs t).1 (g.reduce p fs t).2 := by
  induction fs generalizing t with
  | nil => exact ⟨hs, ht, htop⟩
  | cons f fs ih =>
    by_cases h : f.Admits g p
    · rw [reduce_of_top (Top.cons h)]
      exact ⟨hs, ht, htop⟩
    · have hcl := Frame.closes_of_not_admits h
      rw [reduce_cons h]
      refine ih hs.2.2 (Frame.close_fits hcl hs.1 ht (htop f rfl)) ?_
      rw [Frame.close_level hcl]
      exact hs.2.1

/-- The tree may stand to the left of the operator. -/
theorem reduce_left (h : g.left p (t.level g)) : g.left p ((g.reduce p fs t).2.level g) := by
  induction fs generalizing t with
  | nil => exact h
  | cons f fs ih =>
    by_cases hf : f.Admits g p
    · rw [reduce_of_top (Top.cons hf)]
      exact h
    · rw [reduce_cons hf]
      apply ih
      rw [Frame.close_level (Frame.closes_of_not_admits hf)]
      exact Frame.left_of_not_admits hf

theorem reduce_lt_condLevel (h : t.level g < g.condLevel) :
    (g.reduce g.condLevel fs t).2.level g < g.condLevel := by
  induction fs generalizing t with
  | nil => exact h
  | cons f fs ih =>
    by_cases hf : f.Admits g g.condLevel
    · rw [reduce_of_top (Top.cons hf)]
      exact h
    · rw [reduce_cons hf]
      apply ih
      rw [Frame.close_level (Frame.closes_of_not_admits hf)]
      exact Frame.lt_of_not_admits_cond hf

/-- At the end only parentheses and conditions are left open. -/
theorem reduce_end (hf : ∀ f ∈ fs, f.Closes) (t : Expr A U B) :
    (g.reduce (g.condLevel + 1) fs t).1 = [] := by
  induction fs generalizing t with
  | nil => rfl
  | cons f fs ih =>
    rw [reduce_cons (Frame.not_admits_end (hf f List.mem_cons_self))]
    exact ih (fun f hf' => hf f (List.mem_cons_of_mem _ hf')) _

/-- The tree of a stack of operators. -/
def closeAll : List (Frame A U B) → Expr A U B → Expr A U B
  | [], t => t
  | f :: fs, t => closeAll fs (f.close t)

theorem closeAll_append (fs fs' : List (Frame A U B)) (t : Expr A U B) :
    closeAll (fs ++ fs') t = closeAll fs' (closeAll fs t) := by
  induction fs generalizing t with
  | nil => rfl
  | cons f fs ih => exact ih _

theorem reduce_append {fs' : List (Frame A U B)} (h : ∀ f ∈ fs', ¬f.Admits g p) (t : Expr A U B) :
    g.reduce p (fs' ++ fs) t = g.reduce p fs (closeAll fs' t) := by
  induction fs' generalizing t with
  | nil => rfl
  | cons f fs' ih =>
    have hrest : ∀ f ∈ fs', ¬f.Admits g p := fun f hf => h f (List.mem_cons_of_mem _ hf)
    rw [List.cons_append, reduce_cons (h f List.mem_cons_self), ih hrest]
    rfl

end Reduce

/-! ## The parser -/

/-- What the parser expects next. -/
inductive Mode (A U B : Type)
  | operand (fs : List (Frame A U B))
  | operator (fs : List (Frame A U B)) (t : Expr A U B)

namespace Grammar

variable (g : Grammar U B S)

/-- One token. -/
def step : Mode A U B → Tok A S → Option (Mode A U B)
  | .operand fs, .atom a => some (.operator fs (.atom a))
  | .operand fs, .lParen => some (.operand (.paren :: fs))
  | .operand fs, .sym s => (g.asPre s).map fun u => .operand (.pre u :: fs)
  | .operator fs t, .sym s => (g.asBin s).map fun o =>
    .operand (.bin (g.reduce (g.prec o) fs t).2 o :: (g.reduce (g.prec o) fs t).1)
  | .operator fs t, .question =>
    some (.operand (.quest (g.reduce g.condLevel fs t).2 :: (g.reduce g.condLevel fs t).1))
  | .operator fs t, .colon =>
    match g.reduce (g.condLevel + 1) fs t with
    | (.quest c :: fs, a) => some (.operand (.cond c a :: fs))
    | _ => none
  | .operator fs t, .rParen =>
    match g.reduce (g.condLevel + 1) fs t with
    | (.paren :: fs, e) => some (.operator fs (.paren e))
    | _ => none
  | _, _ => none

def run : Mode A U B → List (Tok A S) → Option (Mode A U B)
  | m, [] => some m
  | m, k :: ks => (g.step m k).bind fun m => run m ks

attribute [local simp] Grammar.run

/-- The end of the text. -/
def finish : Mode A U B → Option (Expr A U B)
  | .operator fs t => if (g.reduce (g.condLevel + 1) fs t).1.isEmpty then
      some (g.reduce (g.condLevel + 1) fs t).2 else none
  | .operand _ => none

/-- The tree of a text. -/
def parse (ks : List (Tok A S)) : Option (Expr A U B) := (g.run (.operand []) ks).bind g.finish

end Grammar

section

variable {fs fs' : List (Frame A U B)} {t e c : Expr A U B}

theorem step_pre (u : U) (fs : List (Frame A U B)) :
    g.step (.operand fs) (.sym (g.preSym u) : Tok A S) = some (.operand (.pre u :: fs)) := by
  change (g.asPre (g.preSym u)).map _ = _
  rw [g.asPre_preSym]
  rfl

theorem step_bin {o : B} (h : g.reduce (g.prec o) fs t = (fs', e)) :
    g.step (.operator fs t) (.sym (g.binSym o) : Tok A S) = some (.operand (.bin e o :: fs')) := by
  change (g.asBin (g.binSym o)).map _ = _
  rw [g.asBin_binSym]
  dsimp only [Option.map]
  rw [h]

theorem step_question (h : g.reduce g.condLevel fs t = (fs', e)) :
    g.step (.operator fs t) (.question : Tok A S) = some (.operand (.quest e :: fs')) := by
  unfold Grammar.step
  dsimp only
  rw [h]

theorem step_colon (h : g.reduce (g.condLevel + 1) fs t = (.quest c :: fs', e)) :
    g.step (.operator fs t) (.colon : Tok A S) = some (.operand (.cond c e :: fs')) := by
  unfold Grammar.step
  dsimp only
  rw [h]

theorem step_rParen (h : g.reduce (g.condLevel + 1) fs t = (.paren :: fs', e)) :
    g.step (.operator fs t) (.rParen : Tok A S) = some (.operator fs' (.paren e)) := by
  unfold Grammar.step
  dsimp only
  rw [h]

/-- Nothing is open that the token could end. -/
theorem step_end {k : Tok A S} (hk : k = .rParen ∨ k = .colon)
    (h : g.reduce (g.condLevel + 1) fs t = ([], e)) : g.step (.operator fs t) k = none := by
  rcases hk with rfl | rfl
  · unfold Grammar.step
    dsimp only
    rw [h]
  · unfold Grammar.step
    dsimp only
    rw [h]

end

theorem run_cons {m m' : Mode A U B} {k : Tok A S} (h : g.step m k = some m') (ks : List (Tok A S)) :
    g.run m (k :: ks) = g.run m' ks := by
  rw [Grammar.run, h]
  rfl

theorem run_append (m : Mode A U B) (ks ks' : List (Tok A S)) :
    g.run m (ks ++ ks') = (g.run m ks).bind fun m => g.run m ks' := by
  induction ks generalizing m with
  | nil => rfl
  | cons k ks ih =>
    rw [List.cons_append, Grammar.run, Grammar.run]
    cases g.step m k with
    | none => rfl
    | some m => exact ih m

/-- The frames `fs'` and the tree `t` are what the parser makes of `e`. -/
structure Pending (g : Grammar U B S) (e : Expr A U B) (fs' : List (Frame A U B)) (t : Expr A U B) : Prop where
  tree : closeAll fs' t = e
  closes : ∀ f ∈ fs', f.Closes
  level : ∀ f ∈ fs', f.level g ≤ e.level g

namespace Pending

variable {e t : Expr A U B} {fs fs' : List (Frame A U B)}

theorem refl (e : Expr A U B) : Pending g e [] e := ⟨rfl, fun _ h => (by cases h), fun _ h => (by cases h)⟩

theorem reduce_prec (h : Pending g e fs' t) {o : B} (hl : g.left (g.prec o) (e.level g))
    (htop : Top g (g.prec o) fs) : g.reduce (g.prec o) (fs' ++ fs) t = (fs, e) := by
  rw [reduce_append fun f hf => Frame.not_admits_prec (h.closes f hf) hl (h.level f hf), h.tree,
    reduce_of_top htop]

theorem reduce_cond (h : Pending g e fs' t) (hl : e.level g < g.condLevel)
    (htop : Top g g.condLevel fs) : g.reduce g.condLevel (fs' ++ fs) t = (fs, e) := by
  have hna : ∀ f ∈ fs', ¬f.Admits g g.condLevel := fun f hf =>
    Frame.not_admits_cond (h.closes f hf) (Nat.lt_of_le_of_lt (h.level f hf) hl)
  rw [reduce_append hna, h.tree, reduce_of_top htop]

theorem reduce_end (h : Pending g e fs' t) (htop : Top g (g.condLevel + 1) fs) :
    g.reduce (g.condLevel + 1) (fs' ++ fs) t = (fs, e) := by
  rw [reduce_append fun f hf => Frame.not_admits_end (h.closes f hf), h.tree, reduce_of_top htop]

/-- The frame below is closed by what closes `e'`. -/
theorem snoc {f : Frame A U B} {e' : Expr A U B} (h : Pending g e fs' t) (hf : f.Closes) (he : f.close e = e')
    (hle : e.level g ≤ e'.level g) (hlf : f.level g ≤ e'.level g) : Pending g e' (fs' ++ [f]) t := by
  refine ⟨?_, ?_, ?_⟩
  · rw [closeAll_append, h.tree]
    exact he
  · intro f' hf'
    rcases List.mem_append.1 hf' with hf' | hf'
    · exact h.closes f' hf'
    · obtain rfl := List.mem_singleton.1 hf'
      exact hf
  · intro f' hf'
    rcases List.mem_append.1 hf' with hf' | hf'
    · exact Nat.le_trans (h.level f' hf') hle
    · obtain rfl := List.mem_singleton.1 hf'
      exact hlf

end Pending

/-- The level of the right operand is no more than that of the tree. -/
theorem Grammar.right.le {p n : ℕ} (h : g.right p n) : n ≤ p := h.elim Nat.le_of_lt fun h => Nat.le_of_eq h.1

theorem Grammar.left.le {p n : ℕ} (h : g.left p n) : n ≤ p := h.elim Nat.le_of_lt fun h => Nat.le_of_eq h.1

/-- **The parser reads an expression where its level is admitted.** -/
theorem run_tokens (e : Expr A U B) (he : e.Fits g) (fs : List (Frame A U B)) (htop : Top g (e.level g) fs) :
    ∃ fs' t, g.run (.operand fs) (e.tokens g) = some (.operator (fs' ++ fs) t) ∧ Pending g e fs' t := by
  induction e generalizing fs with
  | atom a => exact ⟨[], .atom a, rfl, .refl _⟩
  | paren e ih =>
    obtain ⟨fs', t, hrun, hp⟩ := ih he (.paren :: fs) (Top.cons trivial)
    refine ⟨[], .paren e, ?_, .refl _⟩
    have hred : g.reduce (g.condLevel + 1) (fs' ++ .paren :: fs) t = (.paren :: fs, e) :=
      hp.reduce_end (Top.cons trivial)
    change g.run (.operand (.paren :: fs)) (e.tokens g ++ [.rParen]) = _
    rw [run_append, hrun, Option.bind_some, run_cons (step_rParen hred)]
    rfl
  | pre u e ih =>
    obtain ⟨he, hle⟩ := he
    obtain ⟨fs', t, hrun, hp⟩ := ih he (.pre u :: fs) (Top.cons hle)
    have hcl : (Frame.pre u : Frame A U B).Closes := trivial
    refine ⟨fs' ++ [.pre u], t, ?_, hp.snoc hcl rfl hle (Nat.le_refl _)⟩
    rw [Expr.tokens, run_cons (step_pre u fs), List.append_assoc]
    exact hrun
  | bin o a b iha ihb =>
    obtain ⟨ha, hb, hl, hr⟩ := he
    obtain ⟨fsa, ta, hruna, hpa⟩ := iha ha fs (htop.mono hl.le)
    obtain ⟨fsb, tb, hrunb, hpb⟩ := ihb hb (.bin a o :: fs) (Top.cons hr)
    have hcl : (Frame.bin a o).Closes := trivial
    refine ⟨fsb ++ [.bin a o], tb, ?_, hpb.snoc hcl rfl hr.le (Nat.le_refl _)⟩
    have hop := step_bin (hpa.reduce_prec hl htop)
    rw [Expr.tokens, run_append, hruna, Option.bind_some, run_cons hop, List.append_assoc]
    exact hrunb
  | cond c a b ihc iha ihb =>
    obtain ⟨hc, ha, hb, hlc, hlb⟩ := he
    obtain ⟨fsc, tc, hrunc, hpc⟩ := ihc hc fs (htop.mono (Nat.le_of_lt hlc))
    obtain ⟨fsa, ta, hruna, hpa⟩ := iha ha (.quest c :: fs) (Top.cons trivial)
    obtain ⟨fsb, tb, hrunb, hpb⟩ := ihb hb (.cond c a :: fs) (Top.cons hlb)
    have hcl : (Frame.cond c a).Closes := trivial
    refine ⟨fsb ++ [.cond c a], tb, ?_, hpb.snoc hcl rfl hlb (Nat.le_refl _)⟩
    have hredc := hpc.reduce_cond hlc htop
    have hreda : g.reduce (g.condLevel + 1) (fsa ++ .quest c :: fs) ta = (.quest c :: fs, a) :=
      hpa.reduce_end (Top.cons trivial)
    have htokens : (Expr.cond c a b).tokens g =
        c.tokens g ++ (.question :: (a.tokens g ++ (.colon :: b.tokens g))) := by
      rw [Expr.tokens, List.append_assoc]
      rfl
    rw [htokens, run_append, hrunc, Option.bind_some, run_cons (step_question hredc), run_append, hruna, Option.bind_some,
      run_cons (step_colon hreda), List.append_assoc]
    exact hrunb

/-- **The parser finds the tree of a text.** -/
theorem parse_tokens (e : Expr A U B) (he : e.Fits g) : g.parse (e.tokens g) = some e := by
  obtain ⟨fs', t, hrun, hp⟩ := run_tokens e he [] Top.nil
  have htop : Top g (g.condLevel + 1) ([] : List (Frame A U B)) := Top.nil
  have hend := hp.reduce_end htop
  unfold Grammar.parse
  rw [hrun]
  change g.finish (.operator (fs' ++ []) t) = some e
  unfold Grammar.finish
  dsimp only
  rw [hend]
  rfl

/-- **A text has one tree.** -/
theorem Expr.Fits.eq_of_tokens {e e' : Expr A U B} (he : e.Fits g) (he' : e'.Fits g)
    (h : e.tokens g = e'.tokens g) : e = e' := by
  have hp := parse_tokens e he
  rw [h, parse_tokens e' he'] at hp
  exact (Option.some.inj hp).symm

/-- **No tree goes on after a whole one** with a token that ends expressions. -/
theorem Expr.Fits.not_ends {e e' : Expr A U B} (he : e.Fits g) (he' : e'.Fits g) {k : Tok A S}
    (hk : k = .rParen ∨ k = .colon) (ks : List (Tok A S)) : e'.tokens g ≠ e.tokens g ++ k :: ks := by
  intro h
  have hp := parse_tokens e' he'
  obtain ⟨fs', t, hrun, hpend⟩ := run_tokens e he [] Top.nil
  have hstep := step_end hk (hpend.reduce_end Top.nil)
  unfold Grammar.parse at hp
  rw [h, run_append, hrun, Option.bind_some, Grammar.run, hstep] at hp
  cases hp

end OpenHT.OpPrec
