import Mathlib.Data.List.Infix
import Mathlib.Data.List.Nodup

/-!
# The first distinct elements of a list

A table of at most `n` entries that gains an entry for each new element while there is room.

* `addNew`: the table after one more element; `firstDistinct`: after a list of them.
* `foldl_prefix`: the table only grows at its end.
* `foldl_of_full`: an element that found no room finds the table full for good.
-/

namespace OpenHT.Distinct

variable {α : Type*} [DecidableEq α] {n : ℕ}

/-- The table after looking up `x`. -/
def addNew (n : ℕ) (l : List α) (x : α) : List α := if x ∈ l ∨ l.length = n then l else l ++ [x]

/-- The first `n` distinct elements, in order of their first occurrence. -/
def firstDistinct (n : ℕ) (xs : List α) : List α := xs.foldl (addNew n) []

theorem prefix_addNew (l : List α) (x : α) : l <+: addNew n l x := by
  unfold addNew
  split
  · exact List.prefix_refl l
  · exact List.prefix_append l [x]

theorem foldl_prefix (xs l : List α) : l <+: xs.foldl (addNew n) l := by
  induction xs generalizing l with
  | nil => exact List.prefix_refl l
  | cons x xs ih => exact (prefix_addNew l x).trans (ih _)

theorem length_addNew {l : List α} (h : l.length ≤ n) (x : α) : (addNew n l x).length ≤ n := by
  unfold addNew
  split
  · exact h
  · rename_i hne
    rw [List.length_append, List.length_singleton]
    have hlen : l.length ≠ n := fun he => hne (.inr he)
    omega

theorem length_foldl {l : List α} (h : l.length ≤ n) (xs : List α) :
    (xs.foldl (addNew n) l).length ≤ n := by
  induction xs generalizing l with
  | nil => exact h
  | cons x xs ih => exact ih (length_addNew h x)

/-- An element is in the table after its lookup, unless the table was full. -/
theorem mem_addNew_or_full (l : List α) (x : α) : x ∈ addNew n l x ∨ (addNew n l x).length = n := by
  unfold addNew
  split
  · assumption
  · exact .inl (List.mem_append_right l (List.mem_singleton_self x))

theorem mem_foldl {xs l : List α} {x : α} (h : x ∈ xs.foldl (addNew n) l) : x ∈ l ∨ x ∈ xs := by
  induction xs generalizing l with
  | nil => exact .inl h
  | cons y xs ih =>
    rcases ih h with h1 | h1
    · unfold addNew at h1
      split at h1
      · exact .inl h1
      · rcases List.mem_append.1 h1 with h2 | h2
        · exact .inl h2
        · rw [List.mem_singleton.1 h2]
          exact .inr List.mem_cons_self
    · exact .inr (List.mem_cons_of_mem y h1)

/-- A full table stays as it is. -/
theorem foldl_of_full {l : List α} (h : l.length = n) (xs : List α) : xs.foldl (addNew n) l = l := by
  induction xs with
  | nil => rfl
  | cons x xs ih =>
    have hx : addNew n l x = l := by
      unfold addNew
      rw [if_pos (.inr h)]
    rw [List.foldl_cons, hx, ih]

end OpenHT.Distinct
