import OpenHT.Htfe.Statement

/-!
# Running statement lists

* `Meaning`: what the expressions of assignments, conditions and jumps do to a store.
* `Heap.exec`: execution along the pointers; `Stmts.task` is what it computes (`exec_returns`).
* `Stmts.call`: execution as C has it, where a jump leaves the list.
* `acc_first`: a list in the heap has no cycle.
-/

namespace OpenHT.Htfe

open Fuel Stmts

variable {E S : Type} {j : Jump} {h : Heap E} {l : Stmts E}

/-- A pointer from one node to another. -/
def Heap.Child (h : Heap E) (x i : ℕ) : Prop :=
  (h i).next = some x ∨ (h i).compound1 = some x ∨ (h i).compound2 = some x

/-- **No cycles**: every chain of pointers from the head of a list ends. -/
theorem acc_first (hl : l.Holds j h) {i : ℕ} (hi : l.first = some i) : Acc h.Child i := by
  induction l generalizing i with
  | nil => cases hi
  | assign i' e l ih =>
    obtain rfl := Option.some.inj hi
    refine ⟨_, fun x hx => ?_⟩
    rw [Heap.Child, hl.1] at hx
    simp only [reduceCtorEq, or_false] at hx
    exact ih hl.2 hx
  | jump i' e l ih =>
    obtain rfl := Option.some.inj hi
    refine ⟨_, fun x hx => ?_⟩
    rw [Heap.Child, hl.1] at hx
    simp only [reduceCtorEq, or_false] at hx
    exact ih hl.2 hx
  | ite i' e a b l iha ihb ihl =>
    obtain rfl := Option.some.inj hi
    refine ⟨_, fun x hx => ?_⟩
    rw [Heap.Child, hl.1] at hx
    obtain hx | hx | hx := hx
    · exact ihl hl.2.2.2 hx
    · exact iha hl.2.1 hx
    · exact ihb hl.2.2.1 hx

/-- What expressions do to a store. A return sets the result, which is in the store; a break does nothing. -/
structure Meaning (E S : Type) where
  assign : E → S → S
  test : E → S → Bool
  jump : Option E → S → S

variable (m : Meaning E S)

/-- Execution of a list that jumps do not leave: `return` sets the result, and goes on. -/
def Heap.exec : ℕ → Heap E → Option ℕ → S → Option S
  | 0, _, _, _ => none
  | _ + 1, _, none, s => some s
  | n + 1, h, some i, s =>
    match (h i).stType, (h i).expr with
    | .stAssign, some e => exec n h (h i).next (m.assign e s)
    | .stReturn, e | .stBreak, e => exec n h (h i).next (m.jump e s)
    | .stIf, some e => do
      let s' ← exec n h (if m.test e s then (h i).compound1 else (h i).compound2) s
      exec n h (h i).next s'
    | _, _ => none

namespace Stmts

/-- A list that jumps do not leave. -/
def task : Stmts E → S → S
  | nil, s => s
  | assign _ e l, s => l.task (m.assign e s)
  | jump _ e l, s => l.task (m.jump e s)
  | ite _ e a b l, s => l.task (if m.test e s then a.task s else b.task s)

/-- A list of C, and whether control has left it by a jump. -/
def call : Stmts E → S → Bool × S
  | nil, s => (false, s)
  | assign _ e l, s => l.call (m.assign e s)
  | jump _ e _, s => (true, m.jump e s)
  | ite _ e a b l, s =>
    let r := if m.test e s then a.call s else b.call s
    if r.1 then r else l.call r.2

end Stmts

/-- The branch that is executed. -/
def branch (m : Meaning E S) (e : E) (a b : Stmts E) (s : S) : Stmts E := if m.test e s then a else b

variable {m}

theorem call_ite (i : ℕ) (e : E) (a b l : Stmts E) (s : S) :
    (ite i e a b l).call m s =
      if ((branch m e a b s).call m s).1 then (branch m e a b s).call m s
      else l.call m ((branch m e a b s).call m s).2 := by
  unfold branch
  rw [call]
  cases m.test e s <;> rfl

theorem task_ite (i : ℕ) (e : E) (a b l : Stmts E) (s : S) :
    (ite i e a b l).task m s = l.task m ((branch m e a b s).task m s) := by
  unfold branch
  rw [task]
  cases m.test e s <;> rfl

/-- A property of both branches. -/
theorem branch_ind {p : Stmts E → Prop} {e : E} {a b : Stmts E} (ha : p a) (hb : p b) (s : S) : p (branch m e a b s) := by
  unfold branch
  split
  · exact ha
  · exact hb

theorem exec_returns (hl : l.Holds j h) (s : S) : Returns (h.exec m · l.first s) (l.task m s) := by
  induction l generalizing s with
  | nil => exact Returns.succ (fun n => rfl) (Returns.const s)
  | assign i e l ih =>
    refine Returns.succ (fun n => ?_) (ih hl.2 (m.assign e s))
    simp only [Heap.exec, first, hl.1]
  | jump i e l ih =>
    refine Returns.succ (fun n => ?_) (ih hl.2 (m.jump e s))
    simp only [Heap.exec, first, hl.1]
    cases j <;> rfl
  | ite i e a b l iha ihb ihl =>
    obtain ⟨hi, ha, hb, hl⟩ := hl
    have hbranch : Returns (h.exec m · (if m.test e s then a.first else b.first) s)
        (if m.test e s then a.task m s else b.task m s) := by
      split
      · exact iha ha s
      · exact ihb hb s
    have hrest := ihl hl (if m.test e s then a.task m s else b.task m s)
    refine Returns.succ (fun n => ?_) (Returns.bind (k := fun s' n => h.exec m n l.first s') hbranch hrest)
    simp only [Heap.exec, first, hi]

end OpenHT.Htfe
