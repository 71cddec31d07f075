import Mathlib

/-!
# Sorting by exchanges, largest first

For each place in turn, the element there is exchanged with every later one that is larger.

* `pass`: one place; `pass_perm` and `pass_max`: the elements stay, and a largest one is at that place.
* `exchangeSort`: all places; `exchangeSort_perm` and `exchangeSort_sorted`.
-/

namespace OpenHT.ExchangeSort

variable {α β : Type*} [LinearOrder β] {key : α → β}

/-- The element of a place against all later ones. -/
def pass (key : α → β) : α → List α → α × List α
  | x, [] => (x, [])
  | x, y :: ys =>
    if key x < key y then
      let r := pass key y ys
      (r.1, x :: r.2)
    else
      let r := pass key x ys
      (r.1, y :: r.2)

attribute [local simp] pass

/-- `n` places. -/
def exchangeSort (key : α → β) : ℕ → List α → List α
  | n + 1, x :: xs =>
    let r := pass key x xs
    r.1 :: exchangeSort key n r.2
  | _, l => l

theorem pass_perm (x : α) (ys : List α) : List.Perm ((pass key x ys).1 :: (pass key x ys).2) (x :: ys) := by
  induction ys generalizing x with
  | nil => exact List.Perm.refl _
  | cons y ys ih =>
    unfold pass
    split
    · have hswap := List.Perm.swap x (pass key y ys).1 (pass key y ys).2
      exact hswap.trans (((ih y).cons x))
    · have hswap := List.Perm.swap y (pass key x ys).1 (pass key x ys).2
      exact (hswap.trans ((ih x).cons y)).trans (List.Perm.swap x y ys)

theorem le_pass (x : α) (ys : List α) : key x ≤ key (pass key x ys).1 := by
  induction ys generalizing x with
  | nil => exact le_refl _
  | cons y ys ih =>
    unfold pass
    split
    · rename_i hlt
      exact hlt.le.trans (ih y)
    · exact ih x

/-- **A largest element is at the place.** -/
theorem pass_max (x : α) (ys : List α) : ∀ y ∈ (pass key x ys).2, key y ≤ key (pass key x ys).1 := by
  induction ys generalizing x with
  | nil => simp [pass]
  | cons y ys ih =>
    unfold pass
    split
    · rename_i hlt
      intro z hz
      rcases List.mem_cons.1 hz with rfl | hz
      · exact hlt.le.trans (le_pass y ys)
      · exact ih y z hz
    · rename_i hle
      intro z hz
      rcases List.mem_cons.1 hz with rfl | hz
      · exact (not_lt.1 hle).trans (le_pass x ys)
      · exact ih x z hz

theorem exchangeSort_perm (n : ℕ) (l : List α) : (exchangeSort key n l).Perm l := by
  induction n generalizing l with
  | zero => exact List.Perm.refl _
  | succ n ih =>
    cases l with
    | nil => exact List.Perm.refl _
    | cons x xs => exact ((ih _).cons _).trans (pass_perm x xs)

theorem exchangeSort_sorted (n : ℕ) (l : List α) (h : l.length ≤ n) :
    (exchangeSort key n l).Pairwise fun x y => key y ≤ key x := by
  induction n generalizing l with
  | zero =>
    have hnil : l = [] := List.length_eq_zero_iff.1 (by omega)
    rw [hnil]
    exact List.Pairwise.nil
  | succ n ih =>
    cases l with
    | nil => exact List.Pairwise.nil
    | cons x xs =>
      have hlen : (pass key x xs).2.length ≤ n := by
        have hperm : ((pass key x xs).1 :: (pass key x xs).2).length = (x :: xs).length :=
          (pass_perm x xs).length_eq
        simp only [List.length_cons] at hperm h
        omega
      refine List.pairwise_cons.2 ⟨?_, ih _ hlen⟩
      intro y hy
      exact pass_max x xs y ((exchangeSort_perm n _).mem_iff.1 hy)

example : exchangeSort id 4 [2, 5, 3, 5] = [5, 5, 3, 2] := by decide

end OpenHT.ExchangeSort
