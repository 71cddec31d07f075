import Mathlib.Data.Nat.Notation

/-!
# Computations with fuel

A loop that may not end is a function of the fuel it is given, `none` where the fuel runs out.

* `Returns f a`: with enough fuel, and with any more, `f` is `a`.
* `Returns.bind`, `Returns.succ`: how such computations are put together.
* `Returns.of_mono`: where more fuel changes no result, one run is enough.
-/

namespace OpenHT.Fuel

variable {α β : Type} {f g : ℕ → Option α} {a b : α}

/-- With enough fuel the result is `a`. -/
def Returns (f : ℕ → Option α) (a : α) : Prop := ∃ N, ∀ n, N ≤ n → f n = some a

namespace Returns

theorem const (a : α) : Returns (fun _ => some a) a := ⟨0, fun _ _ => rfl⟩

theorem unique (ha : Returns f a) (hb : Returns f b) : a = b := by
  obtain ⟨N, hN⟩ := ha
  obtain ⟨M, hM⟩ := hb
  have h₁ := hN (max N M) (Nat.le_max_left _ _)
  have h₂ := hM (max N M) (Nat.le_max_right _ _)
  exact Option.some.inj (h₁.symm.trans h₂)

/-- Two computations that agree from some fuel on return the same. -/
theorem congr (h : ∃ N, ∀ n, N ≤ n → f n = g n) (hg : Returns g a) : Returns f a := by
  obtain ⟨N, hN⟩ := h
  obtain ⟨M, hM⟩ := hg
  refine ⟨max N M, fun n hn => ?_⟩
  rw [hN n (Nat.le_trans (Nat.le_max_left _ _) hn)]
  exact hM n (Nat.le_trans (Nat.le_max_right _ _) hn)

/-- One after the other. -/
theorem bind {k : α → ℕ → Option β} {c : β} (hf : Returns f a) (hk : Returns (k a) c) :
    Returns (fun n => f n >>= fun x => k x n) c := by
  obtain ⟨N, hN⟩ := hf
  obtain ⟨M, hM⟩ := hk
  refine ⟨max N M, fun n hn => ?_⟩
  have h₁ := hN n (Nat.le_trans (Nat.le_max_left _ _) hn)
  have h₂ := hM n (Nat.le_trans (Nat.le_max_right _ _) hn)
  simp only [h₁, Option.bind_eq_bind, Option.bind_some]
  exact h₂

/-- A call, which takes one unit of fuel. -/
theorem succ (h : ∀ n, f (n + 1) = g n) (hg : Returns g a) : Returns f a := by
  obtain ⟨N, hN⟩ := hg
  refine ⟨N + 1, fun n hn => ?_⟩
  obtain ⟨k, rfl⟩ : ∃ k, n = k + 1 := ⟨n - 1, by omega⟩
  rw [h k]
  exact hN k (by omega)

/-- A step that is there from some fuel on. -/
theorem step (h : ∃ N, ∀ n, N ≤ n → f (n + 1) = g n) (hg : Returns g a) : Returns f a := by
  obtain ⟨N, hN⟩ := h
  obtain ⟨M, hM⟩ := hg
  refine ⟨max N M + 1, fun n hn => ?_⟩
  obtain ⟨k, rfl⟩ : ∃ k, n = k + 1 := ⟨n - 1, by omega⟩
  rw [hN k (by omega)]
  exact hM k (by omega)

theorem of_succ (h : ∀ n, f (n + 1) = g n) (hf : Returns f a) : Returns g a := by
  obtain ⟨N, hN⟩ := hf
  refine ⟨N, fun n hn => ?_⟩
  rw [← h n]
  exact hN (n + 1) (by omega)

theorem of_mono (h : ∀ {n m : ℕ} {a : α}, n ≤ m → f n = some a → f m = some a) {n : ℕ} (hn : f n = some a) :
    Returns f a := ⟨n, fun _ hm => h hm hn⟩

end Returns

/-- More fuel in one branch. -/
theorem ite_mono {c : Prop} [Decidable c] {x x' y : Option α} (hx : x = some a → x' = some a)
    (h : (if c then x else y) = some a) : (if c then x' else y) = some a := by
  by_cases hc : c
  · rw [if_pos hc] at h ⊢
    exact hx h
  · rw [if_neg hc] at h ⊢
    exact h

end OpenHT.Fuel
