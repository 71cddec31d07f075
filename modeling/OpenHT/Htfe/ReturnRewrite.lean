import OpenHT.Htfe.JumpRewrite
import OpenHT.Htfe.StmtRun

/-!
# `TransformFunctionStatementListForReturns`

A function becomes a task, where `return` only sets the result and the statements behind it are executed.

* `Stmts.taskTo`: what the transformed list computes (`task_push`).
* `Stmts.returnAt`: the return that stops a call, and the statements that stand behind it.
* `transform_returns_preserves_iff`: when the task computes what the function does.
-/

namespace OpenHT.Htfe

open Fuel Heap Stmts

variable {E S : Type} {h : Heap E} {l : Stmts E}

namespace Stmts

variable (m : Meaning E S)

/-- A list as a task with the rest `k`, where only the last statement of a list stops. -/
def taskTo : Stmts E → (S → S) → S → S
  | nil, k, s => k s
  | assign _ e l, k, s => l.taskTo k (m.assign e s)
  | jump _ e nil, _, s => m.jump e s
  | jump _ e l, k, s => l.taskTo k (m.jump e s)
  | ite _ e a b l, k, s => if m.test e s then a.taskTo (l.taskTo k) s else b.taskTo (l.taskTo k) s

attribute [local simp] Stmts.taskTo

/-- The return that stops a call: the statements behind it in its list, those behind the ifs around it, and the store. -/
def returnAt : Stmts E → S → Option (Stmts E × List (Stmts E) × S)
  | nil, _ => none
  | assign _ e l, s => l.returnAt (m.assign e s)
  | jump _ e l, s => some (l, [], m.jump e s)
  | ite _ e a b l, s =>
    match if m.test e s then a.returnAt s else b.returnAt s with
    | some (behind, outer, s') => some (behind, outer ++ [l], s')
    | none => l.returnAt (if m.test e s then (a.call m s).2 else (b.call m s).2)

/-- The lists `outer` one after the other, and then `k`. -/
def tasksTo (outer : List (Stmts E)) (k : S → S) : S → S := outer.foldr (fun l k => l.taskTo m k) k

end Stmts

variable {m : Meaning E S}

theorem taskTo_no_jump (hl : l.hasJump = false) (k : S → S) (s : S) : l.taskTo m k s = k (l.task m s) := by
  induction l generalizing k s with
  | nil => rfl
  | assign i e l ih => exact ih hl k _
  | jump i e l ih => cases hl
  | ite i e a b l iha ihb ihl =>
    simp only [hasJump, Bool.or_eq_false_iff] at hl
    unfold taskTo task
    split
    · rw [iha hl.1.1, ihl hl.2]
    · rw [ihb hl.1.2, ihl hl.2]

/-- What the transformed list computes. -/
theorem task_push (l k : Stmts E) (s : S) : (l.push .ret k).task m s = l.taskTo m (k.task m) s := by
  induction l generalizing k s with
  | nil => rfl
  | assign i e l ih => exact ih k _
  | jump i e l ih =>
    cases l with
    | nil => rfl
    | _ => exact ih k _
  | ite i e a b l iha ihb ihl =>
    have hrest : (l.push .ret k).task m = l.taskTo m (k.task m) := funext (ihl k)
    unfold push taskTo
    split
    next =>
      simp only [task, iha, ihb, hrest]
    next hj =>
      simp only [Bool.or_eq_true, not_or, Bool.not_eq_true] at hj
      simp only [task, hrest]
      split
      · rw [taskTo_no_jump hj.1]
      · rw [taskTo_no_jump hj.2]

/-- What is executed from the return that stops the call on. -/
def resume (m : Meaning E S) (k : S → S) : Stmts E × List (Stmts E) × S → S
  | (nil, _, s) => s
  | (behind, outer, s) => behind.taskTo m (tasksTo m outer k) s

theorem resume_outer (k : S → S) (behind : Stmts E) (outer : List (Stmts E)) (l : Stmts E) (s : S) :
    resume m k (behind, outer ++ [l], s) = resume m (l.taskTo m k) (behind, outer, s) := by
  cases behind with
  | nil => rfl
  | _ => simp only [resume, tasksTo, List.foldr_append, List.foldr_cons, List.foldr_nil]

section

variable (i : ℕ) (e : E) (a b l : Stmts E) (k : S → S) (s : S)

theorem returnAt_ite :
    (ite i e a b l).returnAt m s =
      match (branch m e a b s).returnAt m s with
      | some (behind, outer, s') => some (behind, outer ++ [l], s')
      | none => l.returnAt m ((branch m e a b s).call m s).2 := by
  unfold branch
  rw [returnAt]
  cases m.test e s <;> rfl

theorem taskTo_ite : (ite i e a b l).taskTo m k s = (branch m e a b s).taskTo m (l.taskTo m k) s := by
  unfold branch
  rw [taskTo]
  cases m.test e s <;> rfl

end

/-- A call and the task agree up to the return. -/
def Resumes (m : Meaning E S) (l : Stmts E) : Prop :=
  ∀ (k : S → S) (s : S), (l.returnAt m s = none → (l.call m s).1 = false ∧ l.taskTo m k s = k (l.call m s).2) ∧
    ∀ r, l.returnAt m s = some r → l.call m s = (true, r.2.2) ∧ l.taskTo m k s = resume m k r

theorem resumes (m : Meaning E S) (l : Stmts E) : Resumes m l := by
  induction l with
  | nil =>
    intro k s
    constructor
    · intro _
      exact ⟨rfl, rfl⟩
    · intro r hr
      cases hr
  | assign i e l ih =>
    intro k s
    exact ih k _
  | jump i e l ih =>
    intro k s
    constructor
    · intro hr
      cases hr
    · intro r hr
      obtain rfl := Option.some.inj hr
      cases l <;> exact ⟨rfl, rfl⟩
  | ite i e a b l iha ihb ihl =>
    intro k s
    have ihc : Resumes m (branch m e a b s) := branch_ind iha ihb s
    rw [returnAt_ite, call_ite, taskTo_ite]
    obtain ⟨hnone, hsome⟩ := ihc (l.taskTo m k) s
    cases hr : (branch m e a b s).returnAt m s with
    | none =>
      obtain ⟨hcall, htask⟩ := hnone hr
      rw [hcall, htask]
      exact ihl k _
    | some r =>
      obtain ⟨behind, outer, s'⟩ := r
      obtain ⟨hcall, htask⟩ := hsome _ hr
      rw [hcall, htask]
      constructor
      · intro h
        cases h
      · intro r h
        obtain rfl := Option.some.inj h
        exact ⟨rfl, (resume_outer k behind outer l s').symm⟩

/-- **The return transformation.** It ends without a cycle, and the task computes what the function does if and only
if nothing stands behind the return that is executed, or what stands there changes nothing. -/
theorem transform_returns_preserves_iff (hl : l.Holds .ret h) (hids : l.ids.Nodup) :
    ∃ h', Returns (transformReturns · h l.first) h' ∧ (∀ i, l.first = some i → Acc h'.Child i) ∧
      ∀ (S : Type) (m : Meaning E S) (s : S),
        Returns (h'.exec m · l.first s) (l.call m s).2 ↔
          ∀ behind outer s', l.returnAt m s = some (behind, outer, s') →
            behind = nil ∨ behind.taskTo m (tasksTo m outer id) s' = s' := by
  have hjoin : l.join .ret nil = l := by
    by_cases he : l.endsInJump
    · rw [join_endsInJump he, if_pos rfl]
    · rw [join_append (Bool.eq_false_iff.2 he), append_nil]
  have hl' : ((l.join .ret nil).append nil).Holds .ret h := by rwa [append_nil, hjoin]
  obtain ⟨h', hT, hpush, -⟩ := transformList_pushes l (k := nil) (t := nil) hl' trivial trivial hids
    (fun _ _ => List.not_mem_nil) (.inl rfl) (fun _ _ => List.not_mem_nil) (.inl rfl) fun h => by cases h
  have hfirst : (l.push .ret nil).first = l.first := by rw [first_push, hjoin]
  rw [append_nil, hjoin] at hT
  rw [append_nil] at hpush
  refine ⟨h', hT, fun i hi => acc_first hpush (hfirst.trans hi), fun S m s => ?_⟩
  have hexec := exec_returns (m := m) hpush s
  rw [hfirst, task_push] at hexec
  have hid : (nil : Stmts E).task m = id := rfl
  rw [hid] at hexec
  have hiff : Returns (h'.exec m · l.first s) (l.call m s).2 ↔ l.taskTo m id s = (l.call m s).2 := by
    constructor
    · intro h
      exact Returns.unique hexec h
    · intro h
      rw [← h]
      exact hexec
  rw [hiff]
  obtain ⟨hnone, hsome⟩ := resumes m l id s
  cases hr : l.returnAt m s with
  | none =>
    constructor
    · intro _ behind outer s' h
      cases h
    · intro _
      exact (hnone hr).2
  | some r =>
    obtain ⟨behind, outer, s'⟩ := r
    obtain ⟨hcall, htask⟩ := hsome _ hr
    rw [hcall, htask]
    constructor
    · intro h behind' outer' s'' hsame
      cases hsame
      cases behind with
      | nil => exact .inl rfl
      | _ => exact .inr h
    · intro h
      obtain rfl | h := h behind outer s' rfl
      · rfl
      · cases behind with
        | nil => rfl
        | _ => exact h

/-- `if (c) { return 1; } x = 2; return x;` in a heap. -/
def earlyReturn : Heap ℕ
  | 0 => ⟨.stIf, some 0, some 1, none, some 2⟩
  | 1 => ⟨.stReturn, some 1, none, none, none⟩
  | 2 => ⟨.stAssign, some 2, none, none, some 3⟩
  | 3 => ⟨.stReturn, some 3, none, none, none⟩
  | _ => ⟨.stNull, none, none, none, none⟩

theorem transform_returns_preserves_iff_demo :
    ∃ h', Returns (transformReturns · earlyReturn (some 0)) h' ∧ Acc h'.Child 0 := by
  have hholds : (Stmts.ite 0 0 (jump 1 (some 1) nil) nil (assign 2 2 (jump 3 (some 3) nil))).Holds .ret earlyReturn :=
    ⟨rfl, ⟨rfl, trivial⟩, trivial, rfl, rfl, trivial⟩
  obtain ⟨h', hT, hacc, -⟩ := transform_returns_preserves_iff hholds (by decide)
  exact ⟨h', hT, hacc 0 rfl⟩

/-- `return 1; x = 2;`: the task goes on behind the return. -/
def deadCode : Heap ℕ
  | 0 => ⟨.stReturn, some 1, none, none, some 1⟩
  | 1 => ⟨.stAssign, some 2, none, none, none⟩
  | _ => ⟨.stNull, none, none, none, none⟩

/-- The result and `x`, and the two statements. -/
def setX : Meaning ℕ (ℕ × ℕ) := ⟨fun e s => (s.1, e), fun _ _ => true, fun e s => (e.getD 0, s.2)⟩

theorem executes_behind_return :
    ¬∀ (h : Heap ℕ) (l : Stmts ℕ), l.Holds .ret h → l.ids.Nodup → ∀ (m : Meaning ℕ (ℕ × ℕ)) (s : ℕ × ℕ),
      ∃ h', Returns (transformReturns · h l.first) h' ∧ Returns (h'.exec m · l.first s) (l.call m s).2 := by
  intro hall
  have hholds : (jump 0 (some 1) (assign 1 2 nil)).Holds .ret deadCode := ⟨rfl, rfl, trivial⟩
  obtain ⟨h', hT, hexec⟩ := hall deadCode _ hholds (by decide) setX (0, 0)
  have hsame : Returns (transformReturns · deadCode (some 0)) deadCode :=
    transformList_none (firstIf_returns hholds)
  obtain rfl := Returns.unique hT hsame
  have hdone := Returns.unique hexec (exec_returns hholds (0, 0))
  revert hdone
  decide

end OpenHT.Htfe
