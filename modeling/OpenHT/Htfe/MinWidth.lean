import OpenHT.Htfe.ConstOps
import Mathlib.Data.Nat.Size

/-!
# The minimal width of a constant

`GetMinWidth` counts the bits of a constant up to its first significant one, by a binary search over masks, and
a sign bit. `Cast` cuts a constant to a width and extends what is left.

* `getLeadingZeroCnt`, `getLeadingOnesCnt`, `getMinWidth`: the functions of `CConstValue`.
* `getLeadingZeroCnt_eq`: the search ends, at the length of the number in binary.
* `castBack_iff`: the widths that a constant can be cast to and stay what it is.
* `getMinWidth_least`: they are those from the minimal width on.
-/

namespace OpenHT.Htfe

open CInt CInt.IntType

namespace CConstValue

/-- The loop of `GetLeadingZeroCnt`, by the turns it is given. -/
def leadingZeroLoop (v : BitVec 64) : ℕ → (hi lo w : ℕ) → Option ℕ
  | 0, _, _, _ => none
  | n + 1, hi, lo, w =>
    if hi ≠ lo then
      if v &&& (BitVec.allOnes 64 <<< w) = 0 then leadingZeroLoop v n w lo ((w + lo) / 2)
      else leadingZeroLoop v n hi (w + 1) ((hi + (w + 1)) / 2)
    else some w

def getLeadingZeroCnt (v : BitVec 64) : Option ℕ := leadingZeroLoop v 64 64 1 16

def getLeadingOnesCnt (v : BitVec 64) : Option ℕ := getLeadingZeroCnt (~~~v)

/-- A number as a `uint64_t`. -/
def asUint64 (x : Int) : BitVec 64 := BitVec.ofInt 64 x

def isNeg (v : CConstValue) : Bool :=
  match v.type with
  | int64 => (getSint64 v).value < 0
  | int32 => (getSint32 v).value < 0
  | uint32 | uint64 => false

/-- The arms of `GetMinWidth` for signed constants. -/
def signedWidth (v x : CConstValue) : Option ℕ :=
  (if isNeg v then getLeadingOnesCnt (asUint64 x.value) else getLeadingZeroCnt (asUint64 x.value)).map (· + 1)

def getMinWidth (v : CConstValue) : Option ℕ :=
  match v.type with
  | uint32 => getLeadingZeroCnt (asUint64 (getUint32 v).value)
  | uint64 => getLeadingZeroCnt (asUint64 (getUint64 v).value)
  | int32 => signedWidth v (getSint32 v)
  | int64 => signedWidth v (getSint64 v)

/-! ## The search -/

/-- **A mask** leaves nothing of a number just if the number is no longer than the bits it masks. -/
theorem and_mask_eq_zero {v : BitVec 64} {w : ℕ} : v &&& (BitVec.allOnes 64 <<< w) = 0 ↔ v.toNat.size ≤ w := by
  rw [Nat.size_le]
  constructor
  · intro h
    apply Nat.lt_pow_two_of_testBit
    intro i hi
    have hbit := congrArg (BitVec.getLsbD · i) h
    simp only [BitVec.getLsbD_and, BitVec.getLsbD_shiftLeft, BitVec.getLsbD_allOnes] at hbit
    by_cases h64 : i < 64
    · have hlow : ¬i < w := by omega
      have hsub : i - w < 64 := by omega
      have hzero : v.getLsbD i = false := by simpa [h64, hlow, hsub] using hbit
      exact hzero
    · exact BitVec.getLsbD_of_ge v i (by omega)
  · intro h
    apply BitVec.eq_of_getLsbD_eq
    intro i hi
    simp only [BitVec.getLsbD_and, BitVec.getLsbD_shiftLeft, BitVec.getLsbD_allOnes]
    by_cases hw : i < w
    · simp [hw]
    · have hbit : v.toNat.testBit i = false := by
        apply Nat.testBit_lt_two_pow
        exact Nat.lt_of_lt_of_le h (Nat.pow_le_pow_right (by omega) (by omega))
      have hzero : v.getLsbD i = false := hbit
      simp [hzero]

theorem leadingZeroLoop_eq {v : BitVec 64} {n hi lo w : ℕ} (hlo : 1 ≤ lo) (hle : lo ≤ hi) (hwlo : lo ≤ w)
    (hmid : w < hi ∨ w = hi ∧ lo = hi) (hhi : v.toNat.size ≤ hi) (hbelow : lo = 1 ∨ lo ≤ v.toNat.size)
    (hn : hi - lo < n) : leadingZeroLoop v n hi lo w = some (max 1 v.toNat.size) := by
  induction n generalizing hi lo w with
  | zero => omega
  | succ n ih =>
    rw [leadingZeroLoop]
    by_cases hne : hi ≠ lo
    · rw [if_pos hne]
      by_cases hmask : v &&& (BitVec.allOnes 64 <<< w) = 0
      · have hsize : v.toNat.size ≤ w := and_mask_eq_zero.1 hmask
        rw [if_pos hmask]
        exact ih hlo hwlo (by omega) (by omega) hsize hbelow (by omega)
      · have hsize : w < v.toNat.size := by
          have hlarge := mt and_mask_eq_zero.2 hmask
          omega
        rw [if_neg hmask]
        exact ih (by omega) (by omega) (by omega) (by omega) hhi (by omega) (by omega)
    · have hw : w = max 1 v.toNat.size := by omega
      rw [if_neg hne, hw]

/-- **`GetLeadingZeroCnt` ends**, at the length of the number in binary. -/
theorem getLeadingZeroCnt_eq (v : BitVec 64) : getLeadingZeroCnt v = some (max 1 v.toNat.size) := by
  have h64 : v.toNat.size ≤ 64 := Nat.size_le.2 v.isLt
  exact leadingZeroLoop_eq (by omega) (by omega) (by omega) (by omega) h64 (by omega) (by omega)

theorem asUint64_toNat {x : Int} (h0 : 0 ≤ x) (h : x < 18446744073709551616) : (asUint64 x).toNat = x.toNat := by
  have hmod : x % 18446744073709551616 = x := Int.emod_eq_of_lt h0 h
  unfold asUint64
  rw [BitVec.toNat_ofInt]
  have hpow : ((2 ^ 64 : ℕ) : Int) = 18446744073709551616 := rfl
  rw [hpow, hmod]

theorem asUint64_not_toNat {x : Int} (hneg : x < 0) (h : -18446744073709551616 ≤ x) :
    (~~~asUint64 x).toNat = (-x - 1).toNat := by
  have hmod : x % 18446744073709551616 = x + 18446744073709551616 := by
    rw [← Int.add_emod_right]
    exact Int.emod_eq_of_lt (by omega) (by omega)
  unfold asUint64
  rw [BitVec.toNat_not, BitVec.toNat_ofInt]
  have hpow : ((2 ^ 64 : ℕ) : Int) = 18446744073709551616 := rfl
  rw [hpow, hmod]
  omega

/-- What is counted of a constant: a negative one has its complement counted. -/
def magnitude (v : CConstValue) : ℕ := (if v.value < 0 then -v.value - 1 else v.value).toNat

/-- The widths that `GetMinWidth` can have. -/
def floorWidth (v : CConstValue) : ℕ := if v.type.isSigned then 2 else 1

theorem signedWidth_eq {v : CConstValue} (hneg : isNeg v = decide (v.value < 0))
    (hlo : -9223372036854775808 ≤ v.value) (hhi : v.value < 9223372036854775808) :
    signedWidth v v = some (max 1 v.magnitude.size + 1) := by
  unfold signedWidth magnitude
  rw [hneg]
  by_cases h : v.value < 0
  · rw [if_pos (decide_eq_true h), if_pos h, getLeadingOnesCnt, getLeadingZeroCnt_eq,
      asUint64_not_toNat h (by omega), Option.map_some]
  · have hdec : ¬decide (v.value < 0) = true := by simpa using h
    rw [if_neg hdec, if_neg h, getLeadingZeroCnt_eq, asUint64_toNat (by omega) (by omega), Option.map_some]

/-- **`GetMinWidth`** counts the magnitude and, of a signed constant, the sign. -/
theorem getMinWidth_eq (v : CConstValue) :
    getMinWidth v = some (max 1 v.magnitude.size + if v.type.isSigned then 1 else 0) := by
  have hrange := v.ok
  unfold getMinWidth
  cases htype : v.type with
  | uint32 =>
    rw [htype, inRange_uint32] at hrange
    have hpos : ¬v.value < 0 := by omega
    simp only [getUint32_self htype, getLeadingZeroCnt_eq, magnitude, if_neg hpos]
    rw [asUint64_toNat hrange.1 (by omega)]
    rfl
  | uint64 =>
    rw [htype, inRange_uint64] at hrange
    have hpos : ¬v.value < 0 := by omega
    simp only [getUint64_self htype, getLeadingZeroCnt_eq, magnitude, if_neg hpos]
    rw [asUint64_toNat hrange.1 (by omega)]
    rfl
  | int32 =>
    rw [htype, inRange_int32] at hrange
    have hneg : isNeg v = decide (v.value < 0) := by
      unfold isNeg
      rw [htype, getSint32_self htype]
    simp only [getSint32_self htype]
    exact signedWidth_eq hneg (by omega) (by omega)
  | int64 =>
    rw [htype, inRange_int64] at hrange
    have hneg : isNeg v = decide (v.value < 0) := by
      unfold isNeg
      rw [htype, getSint64_self htype]
    simp only [getSint64_self htype]
    exact signedWidth_eq hneg hrange.1 hrange.2

/-! ## Casts -/

/-- Casting to the width, with the signedness of the constant, gives back its value. -/
def CastBack (v : CConstValue) (width : ℕ) : Prop :=
  ∃ u : CConstValue, v.cast v.type.isSigned width = some u ∧ u.value = v.value

/-- The value of a cast. -/
theorem cast_value (isSigned : Bool) {width : ℕ} (h1 : 1 ≤ width) (h64 : width ≤ 64) (v : CConstValue) :
    ∃ u, v.cast isSigned width = some u ∧
      u.value = if isSigned ∧ (Nat.pow 2 width : ℕ) ≤ 2 * (v.value % (Nat.pow 2 width : ℕ))
        then v.value % (Nat.pow 2 width : ℕ) - (Nat.pow 2 width : ℕ) else v.value % (Nat.pow 2 width : ℕ) := by
  have hwidth : ¬(width = 0 ∨ 64 < width) := by omega
  have hpos : 0 < Nat.pow 2 width := Nat.pow_pos (by omega)
  have hcard64 : Nat.pow 2 width ≤ 2 ^ 64 := Nat.pow_le_pow_right (by omega) h64
  have hcard32 : ¬32 < width → Nat.pow 2 width ≤ 2 ^ 32 := fun h => Nat.pow_le_pow_right (by omega) (by omega)
  unfold CConstValue.cast
  rw [if_neg hwidth]
  refine ⟨_, rfl, Val.of_value ?_⟩
  generalize Nat.pow 2 width = card at hpos hcard64 hcard32
  have hlow := Int.emod_nonneg v.value (b := (card : Int)) (by omega)
  have hhigh := Int.emod_lt_of_pos v.value (b := (card : Int)) (by omega)
  generalize v.value % (card : Int) = low at hlow hhigh
  cases isSigned with
  | false =>
    simp only [Bool.false_eq_true, false_and, if_false]
    by_cases h32 : 32 < width
    · rw [if_pos h32, inRange_uint64]
      omega
    · have hsmall := hcard32 h32
      rw [if_neg h32, inRange_uint32]
      omega
  | true =>
    simp only [true_and, if_true]
    by_cases h32 : 32 < width
    · rw [if_pos h32, inRange_int64]
      split <;> omega
    · have hsmall := hcard32 h32
      rw [if_neg h32, inRange_int32]
      split <;> omega

theorem emod_eq_iff {x card : Int} (hpos : 0 < card) : x % card = x ↔ 0 ≤ x ∧ x < card := by
  constructor
  · intro h
    have hlow := Int.emod_nonneg x (Int.ne_of_gt hpos)
    have hhigh := Int.emod_lt_of_pos x hpos
    omega
  · intro h
    exact Int.emod_eq_of_lt h.1 h.2

/-- **Extension by the sign** gives back the numbers that half the values are for. -/
theorem signExtend_eq_iff {x half : Int} (hpos : 0 < half) :
    (if 2 * half ≤ 2 * (x % (2 * half)) then x % (2 * half) - 2 * half else x % (2 * half)) = x ↔
      -half ≤ x ∧ x < half := by
  have hcard : 0 < 2 * half := by omega
  constructor
  · intro h
    have hlow := Int.emod_nonneg x (Int.ne_of_gt hcard)
    have hhigh := Int.emod_lt_of_pos x hcard
    split at h <;> omega
  · rintro ⟨hlo, hhi⟩
    by_cases hneg : x < 0
    · have hmod : x % (2 * half) = x + 2 * half := by
        rw [← Int.add_emod_right]
        exact Int.emod_eq_of_lt (by omega) (by omega)
      rw [hmod, if_pos (by omega)]
      omega
    · have hmod : x % (2 * half) = x := Int.emod_eq_of_lt (by omega) (by omega)
      rw [hmod, if_neg (by omega)]

/-- **The widths a constant can be cast to** and stay what it is. -/
theorem castBack_iff (v : CConstValue) {width : ℕ} (hfloor : v.floorWidth ≤ width) (h64 : width ≤ 64) :
    v.CastBack width ↔ max 1 v.magnitude.size + (if v.type.isSigned then 1 else 0) ≤ width := by
  have h1 : 1 ≤ width := by
    unfold floorWidth at hfloor
    split at hfloor <;> omega
  obtain ⟨u, hcast, hvalue⟩ := cast_value v.type.isSigned h1 h64 v
  have hback : v.CastBack width ↔ u.value = v.value := by
    unfold CastBack
    rw [hcast]
    constructor
    · rintro ⟨u', hu', hsame⟩
      rwa [Option.some.inj hu']
    · intro h
      exact ⟨u, rfl, h⟩
  rw [hback, hvalue]
  cases hsigned : v.type.isSigned with
  | false =>
    have hnonneg : 0 ≤ v.value := by
      have hrange := v.ok
      cases htype : v.type with
      | uint32 | uint64 =>
        rw [htype] at hrange
        exact hrange.1
      | int32 | int64 =>
        rw [htype] at hsigned
        cases hsigned
    have hmag : v.magnitude = v.value.toNat := by
      unfold magnitude
      rw [if_neg (by omega)]
    have hpos : 0 < Nat.pow 2 width := Nat.pow_pos (by omega)
    have hsize : v.magnitude.size ≤ width ↔ v.magnitude < Nat.pow 2 width := Nat.size_le
    simp only [Bool.false_eq_true, false_and, if_false]
    rw [emod_eq_iff (by omega)]
    omega
  | true =>
    unfold floorWidth at hfloor
    rw [hsigned, if_pos rfl] at hfloor
    obtain ⟨k, rfl⟩ : ∃ k, width = k + 1 := ⟨width - 1, by omega⟩
    have hcard : ((Nat.pow 2 (k + 1) : ℕ) : Int) = 2 * (Nat.pow 2 k : ℕ) := by
      have hsucc : Nat.pow 2 (k + 1) = Nat.pow 2 k * 2 := Nat.pow_succ 2 k
      omega
    have hpos : 0 < Nat.pow 2 k := Nat.pow_pos (by omega)
    have hmag : (v.magnitude : Int) = if v.value < 0 then -v.value - 1 else v.value := by
      unfold magnitude
      split <;> omega
    have hsize : v.magnitude.size ≤ k ↔ v.magnitude < Nat.pow 2 k := Nat.size_le
    simp only [true_and, if_true, hcard]
    rw [signExtend_eq_iff (by omega)]
    split at hmag <;> omega

/-- **`GetMinWidth` is the least width** that the constant can be cast to and stay what it is, and it stays what
it is at every larger one. -/
theorem getMinWidth_least (v : CConstValue) :
    ∃ w, getMinWidth v = some w ∧ v.floorWidth ≤ w ∧ w ≤ 64 ∧
      ∀ width, v.floorWidth ≤ width → width ≤ 64 → (v.CastBack width ↔ w ≤ width) := by
  refine ⟨_, getMinWidth_eq v, ?_, ?_, fun width hfloor h64 => castBack_iff v hfloor h64⟩
  · unfold floorWidth
    split <;> omega
  · have hrange := v.ok
    have hmag : (v.magnitude : Int) = if v.value < 0 then -v.value - 1 else v.value := by
      unfold magnitude
      split <;> omega
    cases htype : v.type with
    | uint32 | uint64 =>
      rw [htype] at hrange
      have hsize : v.magnitude.size ≤ 64 := by
        apply Nat.size_le.2
        simp only [inRange_uint32, inRange_uint64] at hrange
        split at hmag <;> omega
      have hunsigned : ¬isSigned v.type = true := by
        rw [htype]
        exact Bool.false_ne_true
      simp only [isSigned, Bool.false_eq_true, if_false]
      omega
    | int32 | int64 =>
      rw [htype] at hrange
      have hsize : v.magnitude.size ≤ 63 := by
        apply Nat.size_le.2
        simp only [inRange_int32, inRange_int64] at hrange
        split at hmag <;> omega
      simp only [isSigned, if_true]
      omega

end CConstValue

end OpenHT.Htfe
