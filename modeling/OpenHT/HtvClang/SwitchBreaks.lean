import Mathlib.Data.Nat.Notation

/-!
# `HtXformSwitchStmts`

The pass of `htv` that leaves each `case` of a switch with one `break`, at its end. What follows an `if` with
a `break` in it is moved into both of its branches.

* `transformCaseStmtListToRemoveBreaks`: the pass, from the end of a statement list to its beginning.
* `Stmts.run`: the assignments a list makes before its first `break`.
* `breaks_removed`: the pass keeps the meaning of a list exactly when it has a `break` of its own.
-/

namespace OpenHT.HtvClang

/-- A statement list: its first statement and the rest. `A` are the assignments and `C` the conditions. -/
inductive Stmts (A C : Type)
  | nil
  | assign (a : A) (rest : Stmts A C)
  | ifElse (c : C) (thenB elseB rest : Stmts A C)
  | brk (rest : Stmts A C)
deriving DecidableEq, Repr

namespace Stmts

variable {A C : Type}

/-- A list at the end of another one. -/
def append : Stmts A C → Stmts A C → Stmts A C
  | nil, post => post
  | assign a rest, post => assign a (rest.append post)
  | ifElse c t e rest, post => ifElse c t e (rest.append post)
  | brk rest, post => brk (rest.append post)

/-- `hasEmbeddedBreak` -/
def hasEmbeddedBreak : Stmts A C → Bool
  | nil => false
  | assign _ rest => rest.hasEmbeddedBreak
  | ifElse _ t e rest => rest.hasEmbeddedBreak || t.hasEmbeddedBreak || e.hasEmbeddedBreak
  | brk _ => true

/-- `transformCaseStmtListToRemoveBreaks`: the list it leaves and what it returns. `iPost` is the list that is
appended where this one ends, `none` for the default iterator, which belongs to no list: asking it for its end
is undefined. -/
def transformCaseStmtListToRemoveBreaks : Stmts A C → Option (Stmts A C) → Option (Stmts A C × Bool)
  | nil, iPost => iPost.map fun post => (post, false)
  | assign a rest, iPost =>
    (rest.transformCaseStmtListToRemoveBreaks iPost).map fun r => (assign a r.1, r.2)
  | brk _, _ => some (nil, true)
  | ifElse c t e rest, iPost =>
    (rest.transformCaseStmtListToRemoveBreaks iPost).bind fun r =>
      if t.hasEmbeddedBreak || e.hasEmbeddedBreak then
        -- the statements after the `if` go to the ends of its branches
        (t.transformCaseStmtListToRemoveBreaks (some r.1)).bind fun t' =>
          (e.transformCaseStmtListToRemoveBreaks (some r.1)).map fun e' => (ifElse c t'.1 e'.1 nil, r.2)
      else some (ifElse c t e r.1, r.2)

/-- `walkCallback` on the statements of a `case`: the new list, and whether the missing `break` is reported. -/
def walkCallback (body : Stmts A C) : Option (Stmts A C × Bool) :=
  (body.transformCaseStmtListToRemoveBreaks none).map fun r => (r.1.append (brk nil), !r.2)

/-! ## Meaning -/

/-- The assignments and the conditions on a store. -/
structure Sem (A C Store : Type) where
  assign : A → Store → Store
  cond : C → Store → Bool

/-- The assignments that were made, in order, the store after them and whether a `break` was reached. -/
structure Exec (A Store : Type) where
  done : List A
  store : Store
  broke : Bool

namespace Exec

variable {Store : Type}

/-- What follows is executed unless a `break` was reached. -/
def andThen (x : Exec A Store) (k : Store → Exec A Store) : Exec A Store :=
  if x.broke then x else ⟨x.done ++ (k x.store).done, (k x.store).store, (k x.store).broke⟩

/-- The same with the `break` taken away. -/
def unbroken (x : Exec A Store) (k : Store → Exec A Store) : Exec A Store :=
  if x.broke then { x with broke := false } else x.andThen k

end Exec

variable {Store : Type} (m : Sem A C Store)

/-- An execution up to the first `break`. -/
def run : Stmts A C → Store → Exec A Store
  | nil, σ => ⟨[], σ, false⟩
  | assign a rest, σ => { rest.run (m.assign a σ) with done := a :: (rest.run (m.assign a σ)).done }
  | ifElse c t e rest, σ => (if m.cond c σ then t.run σ else e.run σ).andThen rest.run
  | brk _, σ => ⟨[], σ, true⟩

/-- Every path reaches a `break`. -/
def allPathsBreak : Stmts A C → Bool
  | nil => false
  | assign _ rest => rest.allPathsBreak
  | ifElse _ t e rest => t.allPathsBreak && e.allPathsBreak || rest.allPathsBreak
  | brk _ => true

/-- The list has a `break` of its own, outside every `if`. -/
def hasOwnBreak : Stmts A C → Bool
  | nil => false
  | assign _ rest => rest.hasOwnBreak
  | ifElse _ _ _ rest => rest.hasOwnBreak
  | brk _ => true

/-- No `break` but one at the end, and the same assignments from every store. -/
def Same (body body' : Stmts A C) : Prop :=
  ∃ b : Stmts A C, body' = b.append (brk nil) ∧ b.hasEmbeddedBreak = false ∧
    ∀ (Store : Type) (m : Sem A C Store) (σ : Store), body'.run m σ = body.run m σ

/-- What the pass is for: the meaning of a list in which every path breaks, an error for any other. -/
def Transforms (body : Stmts A C) : Prop :=
  (body.allPathsBreak = true → ∃ body', body.walkCallback = some (body', false) ∧ Same body body') ∧
    (body.allPathsBreak = false → ∃ body', body.walkCallback = some (body', true))

/-! ## The pass -/

variable {m} {b post : Stmts A C} {σ : Store}

attribute [local simp] run transformCaseStmtListToRemoveBreaks

theorem Exec.andThen_of_broke {x : Exec A Store} {k : Store → Exec A Store} (h : x.broke = true) :
    x.andThen k = x := if_pos h

theorem Exec.andThen_of_not_broke {x : Exec A Store} {k : Store → Exec A Store} (h : x.broke = false) :
    x.andThen k = ⟨x.done ++ (k x.store).done, (k x.store).store, (k x.store).broke⟩ :=
  if_neg (by rw [h]; exact Bool.false_ne_true)

theorem ite_unbroken {p : Prop} [Decidable p] {x y : Exec A Store} (hx : x.broke = false)
    (hy : y.broke = false) : (if p then x else y).broke = false := by
  by_cases hp : p
  · rw [if_pos hp]
    exact hx
  · rw [if_neg hp]
    exact hy

theorem run_unbroken (h : b.hasEmbeddedBreak = false) : (b.run m σ).broke = false := by
  induction b generalizing σ with
  | nil => rfl
  | assign a rest ih => exact ih h
  | ifElse c t e rest iht ihe ih =>
    simp only [hasEmbeddedBreak, Bool.or_eq_false_iff] at h
    rw [run, Exec.andThen_of_not_broke (ite_unbroken (iht h.1.2) (ihe h.2))]
    exact ih h.1.1
  | brk rest => cases h

theorem Exec.andThen_unbroken {x : Exec A Store} {k k' : Store → Exec A Store} :
    (x.andThen k).unbroken k' = x.unbroken fun σ => (k σ).unbroken k' := by
  unfold unbroken andThen
  by_cases hx : x.broke = true
  · simp [hx]
  · by_cases hk : (k x.store).broke = true <;> simp [hx, hk]

theorem Exec.unbroken_of_not_broke {x : Exec A Store} {k : Store → Exec A Store} (h : x.broke = false) :
    x.unbroken k = x.andThen k := if_neg (by rw [h]; exact Bool.false_ne_true)

/-- What the branches of an `if` have in common. -/
theorem Exec.unbroken_ite {p : Prop} [Decidable p] {x y : Exec A Store} {k : Store → Exec A Store} :
    (if p then x else y).unbroken k = if p then x.unbroken k else y.unbroken k := by
  by_cases hp : p <;> simp [hp]

theorem Exec.unbroken_congr {x : Exec A Store} {k k' : Store → Exec A Store} (h : ∀ σ, k σ = k' σ) :
    x.unbroken k = x.unbroken k' := by
  rw [show k = k' from funext h]

theorem andThen_nil (x : Exec A Store) : x.andThen (nil.run (C := C) m) = x := by
  obtain ⟨done, store, broke⟩ := x
  cases broke with
  | true => rfl
  | false => exact congrArg (Exec.mk · store false) (List.append_nil done)

/-- **A list and what was moved behind it.** -/
theorem transform_some (b post : Stmts A C) : ∃ b' k,
    b.transformCaseStmtListToRemoveBreaks (some post) = some (b', k) ∧
    (post.hasEmbeddedBreak = false → b'.hasEmbeddedBreak = false) ∧
    ∀ (Store : Type) (m : Sem A C Store) (σ : Store), post.hasEmbeddedBreak = false →
      b'.run m σ = (b.run m σ).unbroken (post.run m) := by
  induction b generalizing post with
  | nil =>
    refine ⟨post, false, rfl, id, fun Store m σ h => ?_⟩
    rfl
  | assign a rest ih =>
    obtain ⟨b', k, htr, hfree, hrun⟩ := ih post
    refine ⟨assign a b', k, ?_, hfree, fun Store m σ h => ?_⟩
    · rw [transformCaseStmtListToRemoveBreaks, htr]
      rfl
    · rw [run, hrun _ m _ h, run]
      unfold Exec.unbroken Exec.andThen
      by_cases hb : (rest.run m (m.assign a σ)).broke = true <;> simp [hb]
  | brk rest _ =>
    refine ⟨nil, true, rfl, fun _ => rfl, fun Store m σ _ => ?_⟩
    change _ = if true = true then _ else _
    rw [if_pos rfl]
    rfl
  | ifElse c t e rest iht ihe ih =>
    obtain ⟨r', k, htr, hfree, hrun⟩ := ih post
    rw [transformCaseStmtListToRemoveBreaks, htr, Option.bind_some]
    by_cases hemb : (t.hasEmbeddedBreak || e.hasEmbeddedBreak) = true
    · rw [if_pos hemb]
      obtain ⟨t', kt, htt, hft, hrt⟩ := iht r'
      obtain ⟨e', ke, hte, hfe, hre⟩ := ihe r'
      refine ⟨ifElse c t' e' nil, k, by rw [htt, hte]; rfl, fun h => ?_, fun Store m σ h => ?_⟩
      · rw [hasEmbeddedBreak, hft (hfree h), hfe (hfree h)]
        rfl
      · rw [run, andThen_nil, run, Exec.andThen_unbroken, Exec.unbroken_ite, hrt _ m σ (hfree h),
          hre _ m σ (hfree h), Exec.unbroken_congr (k := r'.run m) (hrun _ m · h),
          Exec.unbroken_congr (k := r'.run m) (hrun _ m · h)]
    · rw [if_neg hemb]
      have hnone : t.hasEmbeddedBreak = false ∧ e.hasEmbeddedBreak = false := by
        simpa using hemb
      refine ⟨ifElse c t e r', k, rfl, fun h => ?_, fun Store m σ h => ?_⟩
      · rw [hasEmbeddedBreak, hfree h, hnone.1, hnone.2]
        rfl
      · have ht : (t.run m σ).broke = false := run_unbroken hnone.1
        have he : (e.run m σ).broke = false := run_unbroken hnone.2
        have hcond := ite_unbroken (p := m.cond c σ = true) ht he
        rw [run, run, Exec.andThen_unbroken, Exec.unbroken_of_not_broke hcond, Exec.andThen_of_not_broke hcond,
          Exec.andThen_of_not_broke hcond, hrun _ m _ h]

/-- Without a `break` of its own the list is followed up to its end, where there is nothing to append. -/
theorem transform_none (h : b.hasOwnBreak = false) : b.transformCaseStmtListToRemoveBreaks none = none := by
  induction b with
  | nil => rfl
  | assign a rest ih =>
    rw [transformCaseStmtListToRemoveBreaks, ih h]
    rfl
  | ifElse c t e rest _ _ ih =>
    rw [transformCaseStmtListToRemoveBreaks, ih h]
    rfl
  | brk rest _ => cases h

/-- What would be appended is never reached behind a `break` of the list. -/
theorem transform_ownBreak (h : b.hasOwnBreak = true) (iPost : Option (Stmts A C)) :
    b.transformCaseStmtListToRemoveBreaks iPost = b.transformCaseStmtListToRemoveBreaks (some nil) ∧
      ∃ b', b.transformCaseStmtListToRemoveBreaks (some nil) = some (b', true) := by
  induction b with
  | nil => cases h
  | assign a rest ih =>
    obtain ⟨heq, b', hb'⟩ := ih h
    rw [transformCaseStmtListToRemoveBreaks, transformCaseStmtListToRemoveBreaks, heq, hb']
    exact ⟨rfl, _, rfl⟩
  | ifElse c t e rest _ _ ih =>
    obtain ⟨heq, b', hb'⟩ := ih h
    rw [transformCaseStmtListToRemoveBreaks, transformCaseStmtListToRemoveBreaks, heq, hb']
    refine ⟨rfl, ?_⟩
    rw [Option.bind_some]
    by_cases hemb : (t.hasEmbeddedBreak || e.hasEmbeddedBreak) = true
    · obtain ⟨t', kt, htt, -⟩ := transform_some t b'
      obtain ⟨e', ke, hte, -⟩ := transform_some e b'
      rw [if_pos hemb, htt, hte]
      exact ⟨_, rfl⟩
    · rw [if_neg hemb]
      exact ⟨_, rfl⟩
  | brk rest _ => exact ⟨rfl, nil, rfl⟩

theorem broke_of_ownBreak (h : b.hasOwnBreak = true) : (b.run m σ).broke = true := by
  induction b generalizing σ with
  | nil => cases h
  | assign a rest ih => exact ih h
  | ifElse c t e rest _ _ ih =>
    have hrest : ∀ x : Exec A Store, (x.andThen (rest.run m)).broke = true := by
      intro x
      unfold Exec.andThen
      split
      · assumption
      · exact ih h
    exact hrest _
  | brk rest _ => rfl

theorem allPathsBreak_of_ownBreak (h : b.hasOwnBreak = true) : b.allPathsBreak = true := by
  induction b with
  | nil => cases h
  | assign a rest ih => exact ih h
  | ifElse c t e rest _ _ ih => rw [allPathsBreak, ih h, Bool.or_true]
  | brk rest _ => rfl

/-- A `break` at the end of a list without one. -/
theorem run_append_brk (h : b.hasEmbeddedBreak = false) :
    (b.append (brk nil)).run m σ = { b.run m σ with broke := true } := by
  induction b generalizing σ with
  | nil => rfl
  | assign a rest ih =>
    rw [append, run, ih h]
    rfl
  | ifElse c t e rest iht ihe ih =>
    simp only [hasEmbeddedBreak, Bool.or_eq_false_iff] at h
    have ht : (t.run m σ).broke = false := run_unbroken h.1.2
    have he : (e.run m σ).broke = false := run_unbroken h.2
    have hcond := ite_unbroken (p := m.cond c σ = true) ht he
    rw [append, run, run, Exec.andThen_of_not_broke hcond, Exec.andThen_of_not_broke hcond, ih h.1.1]
  | brk rest _ => cases h

/-- **The pass does what it is for exactly when the list has a `break` of its own.** -/
theorem breaks_removed (body : Stmts A C) : body.Transforms ↔ body.hasOwnBreak = true := by
  constructor
  · intro h
    by_cases hown : body.hasOwnBreak = true
    · exact hown
    · have hnone : body.walkCallback = none := by
        rw [walkCallback, transform_none (Bool.eq_false_iff.2 hown)]
        rfl
      cases hall : body.allPathsBreak with
      | true =>
        obtain ⟨body', hw, -⟩ := h.1 hall
        rw [hnone] at hw
        cases hw
      | false =>
        obtain ⟨body', hw⟩ := h.2 hall
        rw [hnone] at hw
        cases hw
  · intro hown
    refine ⟨fun _ => ?_, fun hall => ?_⟩
    · obtain ⟨heq, b', hb'⟩ := transform_ownBreak hown none
      obtain ⟨b₁, k, htr, hfree, hrun⟩ := transform_some body nil
      rw [hb'] at htr
      cases htr
      have hfree' : b'.hasEmbeddedBreak = false := hfree rfl
      refine ⟨b'.append (brk nil), by rw [walkCallback, heq, hb']; rfl, b', rfl, hfree', fun Store m σ => ?_⟩
      have hbroke : (body.run m σ).broke = true := broke_of_ownBreak hown
      rw [run_append_brk hfree', hrun Store m σ rfl, Exec.unbroken, if_pos hbroke]
      rw [← hbroke]
    · rw [allPathsBreak_of_ownBreak hown] at hall
      cases hall

/-- **Two branches that break, and a list that breaks nowhere.** -/
theorem breaks_not_removed :
    ¬(ifElse () (assign 0 (brk nil)) (assign 1 (brk nil)) nil : Stmts ℕ Unit).Transforms ∧
      ¬(assign 0 nil : Stmts ℕ Unit).Transforms := by
  constructor
  · rintro ⟨h, -⟩
    obtain ⟨body', hw, -⟩ := h rfl
    cases hw
  · rintro ⟨-, h⟩
    obtain ⟨body', hw⟩ := h rfl
    cases hw

end Stmts

end OpenHT.HtvClang
