import Mathlib.Data.List.Nodup
import Mathlib.Data.List.Range
import Mathlib.Tactic.Ring

/-!
# Arrays of several dimensions, last index first

* `count`, `indices`, `offset`: the number of elements, their index vectors in order, and where an element is.
* `after`: the index vectors behind one.
* `next`: the index vector behind one, if there is one.
-/

namespace OpenHT.RowMajor

def count (dims : List ℕ) : ℕ := dims.foldr (· * ·) 1

def indices : List ℕ → List (List ℕ)
  | [] => [[]]
  | d :: ds => (List.range d).flatMap fun i => (indices ds).map (i :: ·)

def offset : List ℕ → List ℕ → ℕ
  | _ :: ds, i :: is => i * count ds + offset ds is
  | _, _ => 0

def zeros (dims : List ℕ) : List ℕ := dims.map fun _ => 0

/-- The index vectors behind `idx`. -/
def after : List ℕ → List ℕ → List (List ℕ)
  | d :: ds, i :: is =>
    (after ds is).map (i :: ·) ++ (List.range' (i + 1) (d - (i + 1))).flatMap fun j => (indices ds).map (j :: ·)
  | _, _ => []

/-- An index vector with an index for each dimension. -/
def InRange : List ℕ → List ℕ → Prop
  | [], [] => True
  | d :: ds, i :: is => i < d ∧ InRange ds is
  | _, _ => False

/-- The index vector behind `idx`; behind the last one there is none. -/
def next : List ℕ → List ℕ → Option (List ℕ)
  | d :: ds, i :: is =>
    match next ds is with
    | some is => some (i :: is)
    | none => if i + 1 < d then some ((i + 1) :: zeros ds) else none
  | _, _ => none

variable {dims idx : List ℕ}

theorem zeros_inRange (h : ∀ d ∈ dims, 0 < d) : InRange dims (zeros dims) := by
  induction dims with
  | nil => trivial
  | cons d ds ih => exact ⟨h d List.mem_cons_self, ih fun e he => h e (List.mem_cons_of_mem d he)⟩

theorem offset_zeros : offset dims (zeros dims) = 0 := by
  induction dims with
  | nil => rfl
  | cons d ds ih =>
    have hz : zeros (d :: ds) = 0 :: zeros ds := rfl
    rw [hz, offset, ih, Nat.zero_mul]

/-- **All index vectors.** -/
theorem indices_eq (h : ∀ d ∈ dims, 0 < d) : indices dims = zeros dims :: after dims (zeros dims) := by
  induction dims with
  | nil => rfl
  | cons d ds ih =>
    have hd := h d List.mem_cons_self
    obtain ⟨n, rfl⟩ : ∃ n, d = n + 1 := ⟨d - 1, by omega⟩
    have hr : List.range (n + 1) = 0 :: List.range' 1 n := by
      rw [List.range_eq_range', List.range'_succ]
    have hz : zeros ((n + 1) :: ds) = 0 :: zeros ds := rfl
    rw [indices, hr, List.flatMap_cons, hz, after, ih fun e he => h e (List.mem_cons_of_mem _ he)]
    simp

theorem offset_lt (h : InRange dims idx) : offset dims idx < count dims := by
  induction dims generalizing idx with
  | nil =>
    cases idx with
    | nil => exact Nat.zero_lt_one
    | cons i is => cases h
  | cons d ds ih =>
    cases idx with
    | nil => cases h
    | cons i is =>
      obtain ⟨hi, his⟩ := h
      have hlt := ih his
      show i * count ds + offset ds is < d * count ds
      calc i * count ds + offset ds is < i * count ds + count ds := by omega
        _ = (i + 1) * count ds := by ring
        _ ≤ d * count ds := Nat.mul_le_mul_right _ hi

/-- **Two index vectors** have different offsets. -/
theorem offset_inj {idx' : List ℕ} (h : InRange dims idx) (h' : InRange dims idx')
    (heq : offset dims idx = offset dims idx') : idx = idx' := by
  induction dims generalizing idx idx' with
  | nil =>
    cases idx with
    | nil =>
      cases idx' with
      | nil => rfl
      | cons i is => cases h'
    | cons i is => cases h
  | cons d ds ih =>
    cases idx with
    | nil => cases h
    | cons i is =>
      cases idx' with
      | nil => cases h'
      | cons j js =>
        have hi := offset_lt h.2
        have hj := offset_lt h'.2
        have hsum : i * count ds + offset ds is = j * count ds + offset ds js := heq
        have hlt (m n : ℕ) (hmn : m < n) : m * count ds + count ds ≤ n * count ds := by
          rw [← Nat.succ_mul]
          exact Nat.mul_le_mul_right _ hmn
        have hij : i = j := by
          rcases Nat.lt_trichotomy i j with hlt' | heq' | hlt'
          · have := hlt i j hlt'
            omega
          · exact heq'
          · have := hlt j i hlt'
            omega
        subst hij
        rw [ih h.2 h'.2 (by omega)]

/-- The last index vector is at the last offset, the next one at the next. -/
theorem next_spec (hd : ∀ d ∈ dims, 0 < d) (h : InRange dims idx) :
    (next dims idx = none ∧ after dims idx = [] ∧ offset dims idx + 1 = count dims) ∨
      ∃ idx', next dims idx = some idx' ∧ after dims idx = idx' :: after dims idx' ∧
        offset dims idx' = offset dims idx + 1 ∧ InRange dims idx' := by
  induction dims generalizing idx with
  | nil =>
    cases idx with
    | nil => exact .inl ⟨rfl, rfl, rfl⟩
    | cons i is => cases h
  | cons d ds ih =>
    cases idx with
    | nil => cases h
    | cons i is =>
      obtain ⟨hi, his⟩ := h
      have hds : ∀ e ∈ ds, 0 < e := fun e he => hd e (List.mem_cons_of_mem d he)
      rcases ih hds his with ⟨hnext, hafter, hoff⟩ | ⟨is', hnext, hafter, hoff, hin⟩
      · by_cases hlast : i + 1 < d
        · -- the next value of this index
          refine .inr ⟨(i + 1) :: zeros ds, ?_, ?_, ?_, hlast, zeros_inRange hds⟩
          · simp [next, hnext, hlast]
          · obtain ⟨n, hn⟩ : ∃ n, d - (i + 1) = n + 1 := ⟨d - (i + 1) - 1, by omega⟩
            have hn' : d - (i + 1 + 1) = n := by omega
            rw [after, after, hafter, hn, hn', List.range'_succ, List.flatMap_cons, indices_eq hds]
            simp
          · simp only [offset, offset_zeros]
            rw [← hoff]
            ring
        · refine .inl ⟨?_, ?_, ?_⟩
          · simp [next, hnext, hlast]
          · have hn : d - (i + 1) = 0 := by omega
            rw [after, hafter, hn]
            rfl
          · have hd' : d = i + 1 := by omega
            show i * count ds + offset ds is + 1 = d * count ds
            rw [Nat.add_assoc, hoff, hd']
            ring
      · refine .inr ⟨i :: is', ?_, ?_, ?_, hi, hin⟩
        · simp [next, hnext]
        · rw [after, after, hafter]
          rfl
        · simp only [offset, hoff]
          ring

theorem mem_indices : idx ∈ indices dims ↔ InRange dims idx := by
  induction dims generalizing idx with
  | nil =>
    cases idx with
    | nil => simp [indices, InRange]
    | cons i is => simp [indices, InRange]
  | cons d ds ih =>
    cases idx with
    | nil => simp [indices, InRange]
    | cons i is => simp [indices, InRange, ih]

theorem indices_nodup : (indices dims).Nodup := by
  induction dims with
  | nil => exact List.pairwise_singleton _ _
  | cons d ds ih =>
    rw [indices, List.nodup_flatMap]
    refine ⟨?_, ?_⟩
    · intro i _
      exact ih.map List.cons_injective
    · refine List.Pairwise.imp ?_ (List.pairwise_lt_range (n := d))
      intro i j hij x hi hj
      obtain ⟨a, -, rfl⟩ := List.mem_map.1 hi
      obtain ⟨b, -, hb⟩ := List.mem_map.1 hj
      have hij' : j = i := (List.cons.inj hb).1
      omega

end OpenHT.RowMajor
