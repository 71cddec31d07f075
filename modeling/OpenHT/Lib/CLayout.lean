import Mathlib.Data.Nat.Notation

/-!
# The layout of C records

Where the System V ABI of x86-64 puts the fields of a struct or a union. Positions and sizes are in bits.

* `Item`: a field, by the size and the alignment of its type.
* `place`, `next`: the position of a field, and the first bit behind it.
* `layout`: the positions of all fields, the size and the alignment of the record.
* `layout_valid`: fields are apart, in order, aligned, and inside the record.
-/

namespace OpenHT.CLayout

/-- The next multiple of `a`. -/
def roundUp (n a : ℕ) : ℕ := if n % a = 0 then n else n + a - n % a

/-- A field: `count` elements of a type, or a bit-field of that type. -/
structure Item where
  size : ℕ
  align : ℕ
  count : ℕ
  bits : Option ℕ
deriving DecidableEq, Repr

/-- The fields that C has: alignments are powers of two from 8 to 64, and a bit-field fits in its type. -/
structure Item.Ok (i : Item) : Prop where
  align : i.align = 8 ∨ i.align = 16 ∨ i.align = 32 ∨ i.align = 64
  bits : ∀ w, i.bits = some w → i.size = i.align ∧ 0 < w ∧ w ≤ i.size

/-- The bits of a field. -/
def Item.used (i : Item) : ℕ := i.bits.getD (i.size * i.count)

/-- The position of a field when `n` bits are taken. A bit-field may start in the unit of its type that `n` is in. -/
def place (union : Bool) (n : ℕ) (i : Item) : ℕ :=
  if union then 0
  else match i.bits with
    | some w => if n % i.size + w ≤ i.size then n else roundUp n i.align
    | none => roundUp n i.align

/-- The bits that are taken after a field. -/
def next (union : Bool) (n : ℕ) (i : Item) : ℕ := max n (place union n i + i.used)

def positions (union : Bool) : ℕ → List Item → List ℕ
  | _, [] => []
  | n, i :: is => place union n i :: positions union (next union n i) is

/-- The bits that all fields take. -/
def extent (union : Bool) : ℕ → List Item → ℕ
  | n, [] => n
  | n, i :: is => extent union (next union n i) is

def alignment : ℕ → List Item → ℕ
  | a, [] => a
  | a, i :: is => alignment (max a i.align) is

/-- A record: the positions of its fields, its size and its alignment. -/
structure Layout where
  positions : List Int
  width : Int
  align : Int
deriving DecidableEq, Repr

def size (union : Bool) (is : List Item) : ℕ := roundUp (extent union 0 is) (alignment 8 is)

/-- The layout of a record. -/
def layout (union : Bool) (is : List Item) : Layout where
  positions := (positions union 0 is).map Nat.cast
  width := size union is
  align := alignment 8 is

/-- What makes a layout usable: the fields of a struct are in order and apart, each field is aligned or in one
unit of its type, and all are inside the record. -/
structure Layout.Valid (union : Bool) (is : List Item) (l : Layout) : Prop where
  apart : union = false → (is.zip l.positions).Pairwise fun f g : Item × Int => f.2 + f.1.used ≤ g.2
  aligned : ∀ f ∈ is.zip l.positions, f.1.bits = none → f.2 % f.1.align = 0
  unit : ∀ f ∈ is.zip l.positions, ∀ w : ℕ, f.1.bits = some w → f.2 / f.1.size = (f.2 + w - 1) / f.1.size
  inside : ∀ f ∈ is.zip l.positions, 0 ≤ f.2 ∧ f.2 + f.1.used ≤ l.width
  multiple : l.width % l.align = 0

section

variable {u : Bool} {n m a : ℕ} {i : Item} {is : List Item}

theorem le_roundUp (ha : 0 < a) : n ≤ roundUp n a := by
  have hlt := Nat.mod_lt n ha
  unfold roundUp
  split <;> omega

theorem roundUp_le_of_dvd (h : n ≤ m) (hm : m % a = 0) (ha : 0 < a) : roundUp n a ≤ m := by
  unfold roundUp
  by_cases hn : n % a = 0
  · rw [if_pos hn]
    exact h
  · have hdiv := Nat.div_add_mod n a
    have hdivm := Nat.div_add_mod m a
    have hlt : n / a < m / a := by
      apply Nat.lt_of_mul_lt_mul_left (a := a)
      omega
    have hmul := Nat.mul_le_mul_left a (Nat.succ_le_of_lt hlt)
    rw [Nat.mul_succ] at hmul
    rw [if_neg hn]
    omega

/-- The end of the unit that `p` is in. -/
theorem unit_le {t p m : ℕ} (ht : 0 < t) (hp : p < m) (hm : m % t = 0) : (p / t + 1) * t ≤ m := by
  have hdivm := Nat.div_add_mod m t
  have hlt : p / t < m / t := by
    apply (Nat.div_lt_iff_lt_mul ht).2
    rw [Nat.mul_comm]
    omega
  have hle : p / t + 1 ≤ m / t := hlt
  have hmul := Nat.mul_le_mul_right t hle
  rw [Nat.mul_comm (m / t)] at hmul
  omega

theorem roundUp_mod (n a : ℕ) : roundUp n a % a = 0 := by
  unfold roundUp
  by_cases h : n % a = 0
  · rw [if_pos h]
    exact h
  · have hdiv := Nat.div_add_mod n a
    have heq : n + a - n % a = a * (n / a + 1) := by
      rw [Nat.mul_add, Nat.mul_one]
      omega
    rw [if_neg h, heq]
    exact Nat.mul_mod_right a _

theorem Item.Ok.align_pos (h : i.Ok) : 0 < i.align := by
  have := h.align
  omega

theorem le_place (h : i.Ok) (hu : u = false) : n ≤ place u n i := by
  have hround := le_roundUp (n := n) h.align_pos
  unfold place
  rw [if_neg (by rw [hu]; exact Bool.false_ne_true)]
  split
  · split
    · exact Nat.le_refl n
    · exact hround
  · exact hround

theorem le_next : n ≤ next u n i := Nat.le_max_left _ _

theorem place_used_le_next : place u n i + i.used ≤ next u n i := Nat.le_max_right _ _

theorem next_eq (h : i.Ok) (hu : u = false) : next u n i = place u n i + i.used :=
  Nat.max_eq_right (Nat.le_trans (le_place h hu) (Nat.le_add_right _ _))

theorem le_extent : n ≤ extent u n is := by
  induction is generalizing n with
  | nil => exact Nat.le_refl n
  | cons i is ih => exact Nat.le_trans le_next ih

theorem le_alignment : a ≤ alignment a is := by
  induction is generalizing a with
  | nil => exact Nat.le_refl a
  | cons i is ih => exact Nat.le_trans (Nat.le_max_left _ _) ih

theorem alignment_ok (is : List Item) (ha : a = 8 ∨ a = 16 ∨ a = 32 ∨ a = 64) (h : ∀ i ∈ is, i.Ok) :
    alignment a is = 8 ∨ alignment a is = 16 ∨ alignment a is = 32 ∨ alignment a is = 64 := by
  induction is generalizing a with
  | nil => exact ha
  | cons i is ih =>
    have hi := (h i List.mem_cons_self).align
    apply ih
    · rcases Nat.le_total a i.align with hle | hle
      · rw [Nat.max_eq_right hle]
        exact hi
      · rw [Nat.max_eq_left hle]
        exact ha
    · exact fun j hj => h j (List.mem_cons_of_mem i hj)

theorem le_alignment_of_mem (h : i ∈ is) : i.align ≤ alignment a is := by
  induction is generalizing a with
  | nil => cases h
  | cons j is ih =>
    rcases List.mem_cons.1 h with rfl | h
    · exact Nat.le_trans (Nat.le_max_right _ _) le_alignment
    · exact ih h

/-! ## The layout is valid -/

/-- The fields with their positions. -/
def pairs (u : Bool) (n : ℕ) (is : List Item) : List (Item × Int) :=
  is.zip ((positions u n is).map Nat.cast)

@[simp] theorem pairs_nil : pairs u n [] = [] := rfl

@[simp] theorem pairs_cons :
    pairs u n (i :: is) = (i, (place u n i : Int)) :: pairs u (next u n i) is := rfl

/-- A field is where `place` puts it. -/
theorem mem_pairs {f : Item × Int} (h : f ∈ pairs u n is) :
    f.1 ∈ is ∧ ∃ k, n ≤ k ∧ f.2 = place u k f.1 ∧ next u k f.1 ≤ extent u n is := by
  induction is generalizing n with
  | nil => cases h
  | cons i is ih =>
    rw [pairs_cons, List.mem_cons] at h
    rcases h with rfl | h
    · exact ⟨List.mem_cons_self, n, Nat.le_refl n, rfl, le_extent⟩
    · obtain ⟨hmem, k, hk, hpos, hext⟩ := ih h
      exact ⟨List.mem_cons_of_mem i hmem, k, Nat.le_trans le_next hk, hpos, hext⟩

theorem pairs_apart (h : ∀ i ∈ is, i.Ok) (hu : u = false) :
    (pairs u n is).Pairwise fun f g : Item × Int => f.2 + f.1.used ≤ g.2 := by
  induction is generalizing n with
  | nil => exact List.Pairwise.nil
  | cons i is ih =>
    rw [pairs_cons, List.pairwise_cons]
    have hrest : ∀ j ∈ is, j.Ok := fun j hj => h j (List.mem_cons_of_mem i hj)
    refine ⟨fun g hg => ?_, ih hrest⟩
    obtain ⟨hmem, k, hk, hpos, -⟩ := mem_pairs hg
    have hle := le_place (n := k) (hrest _ hmem) hu
    have hused := place_used_le_next (u := u) (n := n) (i := i)
    rw [hpos]
    change ((place u n i : ℕ) : Int) + i.used ≤ place u k g.1
    omega

/-- A bit-field is in one unit of its type. -/
theorem place_unit (h : i.Ok) {w : ℕ} (hw : i.bits = some w) :
    place u n i / i.size = (place u n i + w - 1) / i.size := by
  obtain ⟨hsize, hpos, hle⟩ := h.bits w hw
  have halign := h.align
  have hplace : place u n i % i.size + w ≤ i.size := by
    unfold place
    rw [hw]
    dsimp only
    split
    · rw [Nat.zero_mod]
      omega
    · split
      · assumption
      · rw [hsize, roundUp_mod]
        omega
  generalize place u n i = p at hplace ⊢
  rcases halign with ha | ha | ha | ha
  all_goals
    rw [hsize, ha] at hplace ⊢
    omega

/-- **The layout of a record is valid.** -/
theorem layout_valid (u : Bool) (is : List Item) (h : ∀ i ∈ is, i.Ok) :
    (layout u is).Valid u is where
  apart hu := pairs_apart h hu
  aligned f hf hb := by
    obtain ⟨hmem, k, -, hpos, -⟩ := mem_pairs (n := 0) hf
    have hround : place u k f.1 % f.1.align = 0 := by
      unfold place
      rw [hb]
      dsimp only
      split
      · exact Nat.zero_mod _
      · exact roundUp_mod _ _
    rw [hpos]
    exact_mod_cast hround
  unit f hf w hw := by
    obtain ⟨hmem, k, -, hpos, -⟩ := mem_pairs (n := 0) hf
    obtain ⟨-, hwpos, -⟩ := (h _ hmem).bits w hw
    have hunit := place_unit (u := u) (n := k) (h _ hmem) hw
    rw [hpos]
    have hcast : ((place u k f.1 : Int) + w - 1) = ((place u k f.1 + w - 1 : ℕ) : Int) := by omega
    rw [hcast]
    exact_mod_cast hunit
  inside f hf := by
    obtain ⟨hmem, k, -, hpos, hext⟩ := mem_pairs (n := 0) hf
    have hused := place_used_le_next (u := u) (n := k) (i := f.1)
    have hpos' : 0 < alignment 8 is := Nat.lt_of_lt_of_le (by decide) le_alignment
    have hround := le_roundUp (n := extent u 0 is) hpos'
    rw [hpos]
    change (0 : Int) ≤ _ ∧ _ ≤ ((size u is : ℕ) : Int)
    unfold size
    omega
  multiple := by
    have hmod := roundUp_mod (extent u 0 is) (alignment 8 is)
    change ((size u is : ℕ) : Int) % (alignment 8 is : ℕ) = 0
    unfold size
    exact_mod_cast hmod

end

end OpenHT.CLayout
