import Mathlib

/-!
# Parts in a row and parts over one another

A record holds its parts one behind the other, a union holds them over one another. A part may bring several entries, as
an unnamed record in a record does.

* `Piece`: a width, and the entries that the part makes at a position.
* `row`, `rowWidth`: the entries of parts in a row, and their width.
* `overlaid`, `overWidth`: the same for parts over one another.
* `starts_chain`, `starts_pairwise`: parts in a row touch, and are apart.
-/

namespace OpenHT.Overlay

structure Piece (ε : Type) where
  width : ℕ
  place : ℕ → List ε

variable {ε : Type}

/-- The entries of parts in a row from position `p` on. -/
def row : ℕ → List (Piece ε) → List ε
  | _, [] => []
  | p, i :: l => i.place p ++ row (p + i.width) l

def rowWidth (l : List (Piece ε)) : ℕ := (l.map (·.width)).sum

/-- The entries of parts that all start at bit 0. -/
def overlaid (l : List (Piece ε)) : List ε := l.flatMap (·.place 0)

def overWidth (l : List (Piece ε)) : ℕ := (l.map (·.width)).foldr max 0

/-- The parts in a row with their positions. -/
def starts : ℕ → List (Piece ε) → List (ℕ × Piece ε)
  | _, [] => []
  | p, i :: l => (p, i) :: starts (p + i.width) l

variable {p : ℕ} {l k : List (Piece ε)}

theorem row_eq : row p l = (starts p l).flatMap fun s => s.2.place s.1 := by
  induction l generalizing p with
  | nil => rfl
  | cons i l ih => simp only [row, starts, List.flatMap_cons, ih]

/-- **Parts in a row touch.** -/
theorem starts_chain : (starts p l).IsChain fun s t => t.1 = s.1 + s.2.width := by
  induction l generalizing p with
  | nil => exact .nil
  | cons i l ih =>
    cases l with
    | nil => exact .singleton _
    | cons j l => exact .cons_cons rfl (ih (p := p + i.width))

theorem le_starts : ∀ s ∈ starts p l, p ≤ s.1 ∧ s.1 + s.2.width ≤ p + rowWidth l := by
  induction l generalizing p with
  | nil => simp [starts]
  | cons i l ih =>
    intro s hs
    have hw : rowWidth (i :: l) = i.width + rowWidth l := by simp [rowWidth]
    rcases List.mem_cons.1 hs with rfl | hs
    · rw [hw]
      exact ⟨Nat.le_refl p, by dsimp only; omega⟩
    · have hrest := ih s hs
      rw [hw]
      omega

/-- **Parts in a row are apart**, in order. -/
theorem starts_pairwise : (starts p l).Pairwise fun s t => s.1 + s.2.width ≤ t.1 := by
  induction l generalizing p with
  | nil => exact .nil
  | cons i l ih => exact .cons (fun t ht => (le_starts t ht).1) ih

theorem row_append : row p (l ++ k) = row p l ++ row (p + rowWidth l) k := by
  induction l generalizing p with
  | nil => rfl
  | cons i l ih =>
    have hw : rowWidth (i :: l) = i.width + rowWidth l := by simp [rowWidth]
    rw [List.cons_append, row, row, ih, hw, List.append_assoc, Nat.add_assoc]

theorem rowWidth_append : rowWidth (l ++ k) = rowWidth l + rowWidth k := by
  simp [rowWidth]

theorem overlaid_append : overlaid (l ++ k) = overlaid l ++ overlaid k := by
  simp [overlaid]

theorem overWidth_le_iff {n : ℕ} : overWidth l ≤ n ↔ ∀ i ∈ l, i.width ≤ n := by
  induction l with
  | nil => simp [overWidth]
  | cons i l ih =>
    have hw : overWidth (i :: l) = max i.width (overWidth l) := rfl
    rw [hw, max_le_iff, ih, List.forall_mem_cons]

theorem overWidth_append : overWidth (l ++ k) = max (overWidth l) (overWidth k) := by
  apply le_antisymm
  · rw [overWidth_le_iff]
    intro i hi
    rcases List.mem_append.1 hi with hi | hi
    · exact le_max_of_le_left (overWidth_le_iff.1 le_rfl i hi)
    · exact le_max_of_le_right (overWidth_le_iff.1 le_rfl i hi)
  · refine max_le (overWidth_le_iff.2 fun i hi => ?_) (overWidth_le_iff.2 fun i hi => ?_)
    · exact overWidth_le_iff.1 le_rfl i (List.mem_append_left _ hi)
    · exact overWidth_le_iff.1 le_rfl i (List.mem_append_right _ hi)

end OpenHT.Overlay
