import Mathlib.Data.Nat.Notation
import Mathlib.Data.List.Basic

/-!
# Tilings of a range of numbers

Cells `α` with a first and a last number.

* `Tiles`: the cells cover a range, one behind the other.
* `Cut`: a cell starts there, or the range ends.
* `Tiles.exists_within`: between two cuts there are whole cells.
-/

namespace OpenHT.Tiling

variable {α : Type*} (lo hi : α → ℕ)

/-- The cells of the list cover the numbers from `a` up to, but not including, `z`. -/
def Tiles : ℕ → List α → ℕ → Prop
  | a, [], z => a = z
  | a, c :: l, z => lo c = a ∧ a ≤ hi c ∧ Tiles (hi c + 1) l z

/-- A cell starts at `b`, or the cells end there. -/
def Cut (l : List α) (z b : ℕ) : Prop := b = z ∨ ∃ c ∈ l, lo c = b

variable {lo hi} {a z b : ℕ} {l : List α}

theorem cut_cons {c : α} : Cut lo (c :: l) z b ↔ lo c = b ∨ Cut lo l z b := by
  unfold Cut
  rw [List.exists_mem_cons_iff]
  exact or_left_comm

theorem Tiles.le (h : Tiles lo hi a l z) : a ≤ z := by
  induction l generalizing a with
  | nil => exact Nat.le_of_eq h
  | cons c l ih =>
    obtain ⟨_, hle, hl⟩ := h
    have := ih hl
    omega

/-- The cells are inside the range. -/
theorem Tiles.bounds (h : Tiles lo hi a l z) {c : α} (hc : c ∈ l) : a ≤ lo c ∧ lo c ≤ hi c ∧ hi c < z := by
  induction l generalizing a with
  | nil => cases hc
  | cons d l ih =>
    obtain ⟨hlo, hle, hl⟩ := h
    have hz := hl.le
    rcases List.mem_cons.1 hc with rfl | hc
    · exact ⟨Nat.le_of_eq hlo.symm, by omega, by omega⟩
    · obtain ⟨h1, h2, h3⟩ := ih hl hc
      exact ⟨by omega, h2, h3⟩

/-- Every number of the range is in a cell. -/
theorem Tiles.exists_mem (h : Tiles lo hi a l z) (ha : a ≤ b) (hz : b < z) : ∃ c ∈ l, lo c ≤ b ∧ b ≤ hi c := by
  induction l generalizing a with
  | nil =>
    have : a = z := h
    omega
  | cons c l ih =>
    obtain ⟨hlo, hle, hl⟩ := h
    by_cases hb : b ≤ hi c
    · exact ⟨c, List.mem_cons_self, by omega, hb⟩
    · obtain ⟨d, hd, hbd⟩ := ih hl (by omega)
      exact ⟨d, List.mem_cons_of_mem c hd, hbd⟩

/-- **No cell crosses a cut.** -/
theorem Tiles.cut (h : Tiles lo hi a l z) {c : α} (hc : c ∈ l) (hb : Cut lo l z b) : b ≤ lo c ∨ hi c < b := by
  rcases hb with rfl | ⟨d, hd, rfl⟩
  · exact .inr (h.bounds hc).2.2
  · induction l generalizing a with
    | nil => cases hc
    | cons e l ih =>
      obtain ⟨hlo, hle, hl⟩ := h
      rcases List.mem_cons.1 hc with rfl | hcl
      · rcases List.mem_cons.1 hd with rfl | hdl
        · exact .inl (Nat.le_refl _)
        · have := (hl.bounds hdl).1
          exact .inr (by omega)
      · rcases List.mem_cons.1 hd with rfl | hdl
        · have := (hl.bounds hcl).1
          exact .inl (by omega)
        · exact ih hl hcl hdl

/-- **Between two cuts** every number is in a cell that lies between them. -/
theorem Tiles.exists_within (h : Tiles lo hi a l z) {x y : ℕ} (hx : Cut lo l z x) (hy : Cut lo l z y) (ha : a ≤ b)
    (hxb : x ≤ b) (hby : b < y) (hz : b < z) : ∃ c ∈ l, x ≤ lo c ∧ hi c < y ∧ lo c ≤ b ∧ b ≤ hi c := by
  obtain ⟨c, hc, hlo, hhi⟩ := h.exists_mem ha hz
  have hcx := h.cut hc hx
  have hcy := h.cut hc hy
  exact ⟨c, hc, by omega, by omega, hlo, hhi⟩

/-- The cell behind a cell starts at a cut. -/
theorem Tiles.cut_behind (h : Tiles lo hi a l z) {c : α} (hc : c ∈ l) : Cut lo l z (hi c + 1) := by
  induction l generalizing a with
  | nil => cases hc
  | cons d l ih =>
    obtain ⟨hlo, hle, hl⟩ := h
    rcases List.mem_cons.1 hc with rfl | hc
    · cases l with
      | nil => exact .inl hl
      | cons e l => exact .inr ⟨e, List.mem_cons_of_mem _ List.mem_cons_self, hl.1⟩
    · rcases ih hl hc with heq | ⟨e, he, heq⟩
      · exact .inl heq
      · exact .inr ⟨e, List.mem_cons_of_mem d he, heq⟩

/-- Cells are in order. -/
theorem Tiles.pairwise (h : Tiles lo hi a l z) : l.Pairwise fun c d => hi c < lo d := by
  induction l generalizing a with
  | nil => exact List.Pairwise.nil
  | cons c l ih =>
    obtain ⟨_, _, hl⟩ := h
    refine List.pairwise_cons.2 ⟨?_, ih hl⟩
    intro d hd
    have := (hl.bounds hd).1
    omega

/-- **At a cut the list falls into two.** -/
theorem Tiles.split (h : Tiles lo hi a l z) (hb : Cut lo l z b) :
    ∃ l1 l2, l = l1 ++ l2 ∧ Tiles lo hi a l1 b ∧ Tiles lo hi b l2 z := by
  induction l generalizing a with
  | nil =>
    have hz : b = z := hb.elim id fun hc => absurd hc.choose_spec.1 List.not_mem_nil
    exact ⟨[], [], rfl, hz ▸ h, hz ▸ rfl⟩
  | cons c l ih =>
    obtain ⟨hlo, hle, hl⟩ := h
    rcases cut_cons.1 hb with hc | hcut
    · have hab : a = b := by omega
      exact ⟨[], c :: l, rfl, hab, hab ▸ ⟨hlo, hle, hl⟩⟩
    · obtain ⟨l1, l2, heq, h1, h2⟩ := ih hl hcut
      exact ⟨c :: l1, l2, by rw [heq]; rfl, ⟨hlo, hle, h1⟩, h2⟩

/-- A cut behind another one is a cut of the second part. -/
theorem cut_of_append {l1 l2 : List α} {x : ℕ} (h1 : Tiles lo hi a l1 x) (hxb : x ≤ b)
    (hb : Cut lo (l1 ++ l2) z b) : Cut lo l2 z b := by
  rcases hb with hz | ⟨c, hc, hcb⟩
  · exact .inl hz
  · rcases List.mem_append.1 hc with hc | hc
    · have := h1.bounds hc
      omega
    · exact .inr ⟨c, hc, hcb⟩

/-- A cell of one number is one between two cuts. -/
theorem Tiles.mem_single (h : Tiles lo hi a l z) (ha : a ≤ b) (hz : b < z) :
    (∃ c ∈ l, lo c = b ∧ hi c = b) ↔ Cut lo l z b ∧ Cut lo l z (b + 1) := by
  constructor
  · rintro ⟨c, hc, hlo, hhi⟩
    have hbehind := h.cut_behind hc
    rw [hhi] at hbehind
    exact ⟨.inr ⟨c, hc, hlo⟩, hbehind⟩
  · rintro ⟨hx, hy⟩
    obtain ⟨c, hc, h1, h2, h3, h4⟩ := h.exists_within hx hy ha (Nat.le_refl b) (Nat.lt_succ_self b) hz
    exact ⟨c, hc, by omega, by omega⟩

/-- One cell is the whole range. -/
theorem Tiles.of_length_one (h : Tiles lo hi a l z) (hl : l.length = 1) : ∃ c, l = [c] ∧ lo c = a ∧ hi c + 1 = z := by
  obtain ⟨c, rfl⟩ := List.length_eq_one_iff.1 hl
  exact ⟨c, rfl, h.1, h.2.2⟩

end OpenHT.Tiling
