import Mathlib.Data.Nat.Notation

/-!
# The integers of C

Values of the integer types of 32 and 64 bits and their conversions.

* `IntType`, `Val`: the types, and a value with its type.
* `Val.of`: conversion to a type.
* `usual`, `Val.rel`: the usual arithmetic conversions, and comparison after them.
-/

namespace OpenHT.CInt

/-- The integer types with 32 and 64 bits. -/
inductive IntType
  | uint32
  | uint64
  | int32
  | int64
deriving DecidableEq, Repr

namespace IntType

def is32Bit : IntType → Bool
  | uint32 | int32 => true
  | uint64 | int64 => false

def isSigned : IntType → Bool
  | uint32 | uint64 => false
  | int32 | int64 => true

/-- The number of values. -/
def card (t : IntType) : Int := if t.is32Bit then 4294967296 else 18446744073709551616

/-- The smallest value. -/
def lo (t : IntType) : Int := if t.isSigned then -(t.card / 2) else 0

def InRange (t : IntType) (x : Int) : Prop := t.lo ≤ x ∧ x < t.lo + t.card

instance (t : IntType) (x : Int) : Decidable (t.InRange x) := inferInstanceAs (Decidable (_ ∧ _))

theorem inRange_uint32 {x : Int} : uint32.InRange x ↔ 0 ≤ x ∧ x < 4294967296 := Iff.rfl

theorem inRange_uint64 {x : Int} : uint64.InRange x ↔ 0 ≤ x ∧ x < 18446744073709551616 := Iff.rfl

theorem inRange_int32 {x : Int} : int32.InRange x ↔ -2147483648 ≤ x ∧ x < 2147483648 := Iff.rfl

theorem inRange_int64 {x : Int} : int64.InRange x ↔ -9223372036854775808 ≤ x ∧ x < 9223372036854775808 := Iff.rfl

/-- The value of the type that is congruent to `x`. -/
def wrap (t : IntType) (x : Int) : Int := (x - t.lo) % t.card + t.lo

theorem card_pos (t : IntType) : 0 < t.card := by
  cases t <;> decide

theorem wrap_inRange (t : IntType) (x : Int) : t.InRange (t.wrap x) := by
  have hpos := t.card_pos
  have h0 := Int.emod_nonneg (x - t.lo) (Int.ne_of_gt hpos)
  have h1 := Int.emod_lt_of_pos (x - t.lo) hpos
  unfold InRange wrap
  omega

theorem wrap_of_inRange {t : IntType} {x : Int} (h : t.InRange x) : t.wrap x = x := by
  have hmod : (x - t.lo) % t.card = x - t.lo := by
    apply Int.emod_eq_of_lt
    · have := h.1
      omega
    · have := h.2
      omega
  unfold wrap
  omega

/-- Types of one width convert one to one. -/
theorem wrap_inj {s t : IntType} {x y : Int} (hst : s.card = t.card) (hx : t.InRange x) (hy : t.InRange y) :
    s.wrap x = s.wrap y ↔ x = y := by
  constructor
  · intro h
    have hpos := s.card_pos
    have hdiv := Int.emod_add_mul_ediv (x - s.lo) s.card
    have hdiv' := Int.emod_add_mul_ediv (y - s.lo) s.card
    have hmod : (x - s.lo) % s.card = (y - s.lo) % s.card := by
      unfold wrap at h
      omega
    have hdvd : s.card ∣ x - y := by
      refine ⟨(x - s.lo) / s.card - (y - s.lo) / s.card, ?_⟩
      rw [Int.mul_sub]
      omega
    obtain ⟨hx0, hx1⟩ := hx
    obtain ⟨hy0, hy1⟩ := hy
    have hzero := Int.eq_zero_of_dvd_of_natAbs_lt_natAbs hdvd (by omega)
    omega
  · intro h
    rw [h]

/-- The usual arithmetic conversions. -/
def usual : IntType → IntType → IntType
  | uint64, _ | _, uint64 => uint64
  | int64, _ | _, int64 => int64
  | uint32, _ | _, uint32 => uint32
  | int32, int32 => int32

theorem usual_usual_left (s t : IntType) : usual (usual s t) t = usual s t := by
  cases s <;> cases t <;> rfl

theorem usual_usual_right (s t : IntType) : usual s (usual s t) = usual s t := by
  cases s <;> cases t <;> rfl

end IntType

/-- A value with its type. -/
structure Val where
  type : IntType
  value : Int
  ok : type.InRange value

instance : DecidableEq Val := fun x y =>
  decidable_of_iff (x.type = y.type ∧ x.value = y.value) <| by
    cases x
    cases y
    simp

namespace Val

/-- Conversion to a type. -/
def of (t : IntType) (x : Int) : Val := ⟨t, t.wrap x, t.wrap_inRange x⟩

def ofBool (t : IntType) (b : Bool) : Val := of t (if b then 1 else 0)

@[simp] theorem of_type (t : IntType) (x : Int) : (of t x).type = t := rfl

theorem of_value {t : IntType} {x : Int} (h : t.InRange x) : (of t x).value = x := IntType.wrap_of_inRange h

/-- A conversion to its own type changes nothing. -/
theorem of_self (x : Val) : of x.type x.value = x := by
  obtain ⟨t, v, h⟩ := x
  simp only [of, IntType.wrap_of_inRange h]

/-- A relational operator. -/
def rel (r : Int → Int → Bool) (x y : Val) : Bool :=
  r ((IntType.usual x.type y.type).wrap x.value) ((IntType.usual x.type y.type).wrap y.value)

/-- The left operand may be converted first. -/
theorem rel_left (r : Int → Int → Bool) (x y : Val) : (of (IntType.usual x.type y.type) x.value).rel r y = x.rel r y := by
  unfold rel
  rw [of_type, IntType.usual_usual_left]
  exact congrArg (r · _) (IntType.wrap_of_inRange (IntType.wrap_inRange ..))

/-- The right operand may be converted first. -/
theorem rel_right (r : Int → Int → Bool) (x y : Val) : x.rel r (of (IntType.usual x.type y.type) y.value) = x.rel r y := by
  unfold rel
  rw [of_type, IntType.usual_usual_right]
  exact congrArg (r _) (IntType.wrap_of_inRange (IntType.wrap_inRange ..))

/-- Between two values that the common type has, the operator compares the values. -/
theorem rel_of_inRange {r : Int → Int → Bool} {x y : Val} (hx : (IntType.usual x.type y.type).InRange x.value)
    (hy : (IntType.usual x.type y.type).InRange y.value) : x.rel r y = r x.value y.value := by
  unfold rel
  rw [IntType.wrap_of_inRange hx, IntType.wrap_of_inRange hy]

end Val

end OpenHT.CInt
