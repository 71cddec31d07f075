import Mathlib.Data.Nat.Notation

/-!
# Reachable states of a partial step function

`step s a` is the state after action `a`, or the reason why `a` cannot happen in
`s`. `Reach step ok s₀` are the states of runs from `s₀` whose every step meets the
side condition `ok` (`fun _ _ => True` for all runs).
-/

namespace OpenHT.Lts

variable {σ α ε : Type*} {step : σ → α → Except ε σ} {ok ok' : σ → α → Prop} {s₀ : σ}

/-- The states reached from `s₀` by steps that meet `ok`. -/
inductive Reach (step : σ → α → Except ε σ) (ok : σ → α → Prop) (s₀ : σ) : σ → Prop
  | init : Reach step ok s₀ s₀
  | next {s s' : σ} (a : α) : Reach step ok s₀ s → ok s a → step s a = .ok s' → Reach step ok s₀ s'

/-- **Invariants.** What holds at the start and is kept by every step (from a
reachable state) holds in every reachable state. -/
theorem Reach.invariant {I : σ → Prop} (h0 : I s₀)
    (hs : ∀ s s' a, Reach step ok s₀ s → I s → ok s a → step s a = .ok s' → I s') :
    ∀ s, Reach step ok s₀ s → I s := by
  intro s h
  induction h with
  | init => exact h0
  | next a hr hok he ih => exact hs _ _ a hr ih hok he

/-- A weaker side condition reaches at least as much. -/
theorem Reach.mono (h : ∀ s a, ok s a → ok' s a) {s : σ} (hr : Reach step ok s₀ s) :
    Reach step ok' s₀ s := by
  induction hr with
  | init => exact .init
  | next a _ hok he ih => exact ih.next a (h _ _ hok) he

theorem Reach.trans {s₁ s₂ : σ} (h₁ : Reach step ok s₀ s₁) (h₂ : Reach step ok s₁ s₂) : Reach step ok s₀ s₂ := by
  induction h₂ with
  | init => exact h₁
  | next a _ hok he ih => exact ih.next a hok he

/-- **Progress.** If from every state with `I` that is not at the goal some step lowers `m` and
keeps `I`, the goal can be reached from every state with `I`. -/
theorem Reach.drain (I goal : σ → Prop) (m : σ → ℕ)
    (hs : ∀ s, I s → ¬ goal s → ∃ a s', ok s a ∧ step s a = .ok s' ∧ I s' ∧ m s' < m s) (s : σ)
    (hI : I s) : ∃ s', Reach step ok s s' ∧ I s' ∧ goal s' := by
  induction hm : m s using Nat.strongRecOn generalizing s with
  | ind n ih =>
    by_cases hg : goal s
    · exact ⟨s, .init, hI, hg⟩
    · obtain ⟨a, s₁, hok, he, hI₁, hlt⟩ := hs s hI hg
      obtain ⟨s₂, hr, hI₂, hg₂⟩ := ih (m s₁) (hm ▸ hlt) s₁ hI₁ rfl
      exact ⟨s₂, .trans (.next a .init hok he) hr, hI₂, hg₂⟩

/-- The state after a list of actions. -/
def run (step : σ → α → Except ε σ) : σ → List α → Except ε σ
  | s, [] => .ok s
  | s, a :: as =>
    match step s a with
    | .ok s' => run step s' as
    | .error e => .error e

/-- A run whose actions meet a side condition on actions reaches its end. -/
theorem Reach.run (as : List α) {s s' : σ} (hr : Reach step ok s₀ s)
    (hok : ∀ a ∈ as, ∀ s, ok s a) (h : Lts.run step s as = .ok s') : Reach step ok s₀ s' := by
  induction as generalizing s with
  | nil => cases h; exact hr
  | cons a as ih =>
    simp only [Lts.run] at h
    cases he : step s a with
    | error e => rw [he] at h; cases h
    | ok s1 =>
      rw [he] at h
      exact ih (hr.next a (hok a List.mem_cons_self s) he)
        (fun b hb => hok b (List.mem_cons_of_mem a hb)) h

/-- The state after a list of actions, each of which passes a check in its state. -/
def runIf (step : σ → α → Except ε σ) (check : σ → α → Bool) : σ → List α → Option σ
  | s, [] => some s
  | s, a :: as =>
    if check s a then
      match step s a with
      | .ok s' => runIf step check s' as
      | .error _ => none
    else none

/-- A checked run reaches its end. -/
theorem Reach.runIf {check : σ → α → Bool} (hcheck : ∀ s a, check s a = true → ok s a) (as : List α)
    {s s' : σ} (hr : Reach step ok s₀ s) (h : Lts.runIf step check s as = some s') :
    Reach step ok s₀ s' := by
  induction as generalizing s with
  | nil =>
    cases h
    exact hr
  | cons a as ih =>
    simp only [Lts.runIf] at h
    split at h
    · rename_i hc
      cases he : step s a with
      | error e =>
        rw [he] at h
        cases h
      | ok s1 =>
        rw [he] at h
        exact ih (hr.next a (hcheck s a hc) he) h
    · cases h

end OpenHT.Lts

namespace OpenHT

/-- A sequence of two fallible computations succeeds when both do. -/
theorem bind_ok {ε α β : Type} {x : Except ε α} {f : α → Except ε β} {b : β} :
    (x >>= f) = .ok b ↔ ∃ a, x = .ok a ∧ f a = .ok b := by
  cases x with
  | error e => simp [bind, Except.bind]
  | ok a => simp [bind, Except.bind]

/-- A sequence of two fallible computations fails when one does. -/
theorem bind_error {ε α β : Type} {x : Except ε α} {f : α → Except ε β} {e : ε} :
    (x >>= f) = .error e ↔ x = .error e ∨ ∃ a, x = .ok a ∧ f a = .error e := by
  cases x with
  | error e' => simp [bind, Except.bind]
  | ok a => simp [bind, Except.bind]

end OpenHT
