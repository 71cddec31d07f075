import Mathlib.Data.Nat.Notation

/-!
# Running indices kept modulo `M`

Two running indices `rd ≤ wr` are stored as their residues modulo `M`. As long as they are less
than `M` apart, the residues tell the distance.

* `Wrap.dist`: the distance computed from two residues.
* `Wrap.dist_mod`: it is the distance of the indices.
* `Wrap.mod_eq_iff`: equal residues mean equal indices.
-/

namespace OpenHT.Wrap

variable {M rd wr : ℕ}

/-- The distance from the residue `b` up to the residue `a`. -/
def dist (M a b : ℕ) : ℕ := if a ≥ b then a - b else a + M - b

/-- The residue of a later index, by whether it wrapped since the earlier one. -/
theorem mod_cases (h : rd ≤ wr) (hM : wr < rd + M) :
    wr % M = rd % M + (wr - rd) ∧ rd % M + (wr - rd) < M ∨
      wr % M + M = rd % M + (wr - rd) ∧ M ≤ rd % M + (wr - rd) := by
  have hpos : 0 < M := by omega
  have hlt := Nat.mod_lt rd hpos
  have hwr : wr % M = (rd % M + (wr - rd)) % M := by
    rw [Nat.mod_add_mod]
    congr 1
    omega
  by_cases hw : rd % M + (wr - rd) < M
  · exact .inl ⟨by rw [hwr, Nat.mod_eq_of_lt hw], hw⟩
  · have hsub : (rd % M + (wr - rd)) % M = rd % M + (wr - rd) - M := by
      rw [Nat.mod_eq_sub_mod (by omega), Nat.mod_eq_of_lt (by omega)]
    exact .inr ⟨by omega, by omega⟩

/-- **Distances survive wrapping.** -/
theorem dist_mod (h : rd ≤ wr) (hM : wr < rd + M) : dist M (wr % M) (rd % M) = wr - rd := by
  unfold dist
  rcases mod_cases h hM with ⟨h1, h2⟩ | ⟨h1, h2⟩
  · rw [if_pos (by omega)]
    omega
  · by_cases hge : wr % M ≥ rd % M
    · omega
    · rw [if_neg hge]
      omega

theorem mod_eq_iff (h : rd ≤ wr) (hM : wr < rd + M) : wr % M = rd % M ↔ wr = rd := by
  constructor
  · intro he
    rcases mod_cases h hM with ⟨h1, h2⟩ | ⟨h1, h2⟩
    · omega
    · omega
  · rintro rfl
    rfl

end OpenHT.Wrap
