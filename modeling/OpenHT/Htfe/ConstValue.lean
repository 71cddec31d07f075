import OpenHT.Lib.CInt

/-!
# `CConstValue`

The constants of Htfe, in one of four types. Each operator is a switch over the types of its operands.

* `getSint64` .. `getUint32`: the accessors.
* `relArms`, `eqArms`: what the arms of the relational operators compare; `==` has its own.
* `isEquivalent` and the operators.
-/

namespace OpenHT.Htfe

open CInt CInt.IntType

/-- `EConstType`, without `UNKNOWN`. -/
abbrev EConstType := IntType

/-- `CConstValue`: a type and a value of that type. -/
abbrev CConstValue := Val

namespace CConstValue

def getSint64 (v : CConstValue) : CConstValue := .of int64 v.value
def getUint64 (v : CConstValue) : CConstValue := .of uint64 v.value
def getSint32 (v : CConstValue) : CConstValue := .of int32 v.value
def getUint32 (v : CConstValue) : CConstValue := .of uint32 v.value

/-- `SetUint32() =` a condition. -/
def ofCond (b : Bool) : CConstValue := .ofBool uint32 b

/-- What `!=`, `<`, `>`, `<=` and `>=` compare, with the type that each operand has in the arm. -/
def relArms (l r : CConstValue) : CConstValue × CConstValue :=
  match l.type, r.type with
  | uint32, uint32 => (getUint32 l, getUint32 r)
  | uint32, uint64 => (getUint32 l, getUint64 r)
  | uint32, int32 => (getUint32 l, .of uint32 (getSint32 r).value)
  | uint32, int64 => (getUint32 l, getSint64 r)
  | uint64, uint32 => (getUint64 l, getUint32 r)
  | uint64, uint64 => (getUint64 l, getUint64 r)
  | uint64, int32 => (getUint64 l, .of uint64 (getSint32 r).value)
  | uint64, int64 => (getUint64 l, .of uint64 (getSint64 r).value)
  | int32, uint32 => (.of uint32 (getSint32 l).value, getUint32 r)
  | int32, uint64 => (.of uint64 (getSint32 l).value, getUint64 r)
  | int32, int32 => (getSint32 l, getSint32 r)
  | int32, int64 => (getSint32 l, getSint64 r)
  | int64, uint32 => (getSint64 l, getUint32 r)
  | int64, uint64 => (.of uint64 (getSint64 l).value, getUint64 r)
  | int64, int32 => (getSint64 l, getSint32 r)
  | int64, int64 => (getSint64 l, getSint64 r)

/-- What `==` and `IsEquivalent` compare. -/
def eqArms (l r : CConstValue) : CConstValue × CConstValue :=
  match r.type with
  | uint32 => (getUint32 l, getUint32 r)
  | uint64 => (getUint32 l, getUint64 r)
  | int32 => (getUint32 l, .of uint32 (getSint32 r).value)
  | int64 => (getUint32 l, getSint64 r)

def relOp (c : Int → Int → Bool) (l r : CConstValue) : CConstValue := ofCond ((relArms l r).1.rel c (relArms l r).2)

/-- `IsEquivalent` -/
def isEquivalent (v₁ v₂ : CConstValue) : Bool := (eqArms v₁ v₂).1.rel (· == ·) (eqArms v₁ v₂).2

/-- `operator ==` -/
def equalEqual (l r : CConstValue) : CConstValue := ofCond ((eqArms l r).1.rel (· == ·) (eqArms l r).2)

/-- `operator !=` -/
def bangEqual : CConstValue → CConstValue → CConstValue := relOp (· != ·)

/-- `operator <` -/
def less : CConstValue → CConstValue → CConstValue := relOp (· < ·)

/-- `operator >` -/
def greater : CConstValue → CConstValue → CConstValue := relOp (· > ·)

/-- `operator <=` -/
def lessEqual : CConstValue → CConstValue → CConstValue := relOp (· ≤ ·)

/-- `operator >=` -/
def greaterEqual : CConstValue → CConstValue → CConstValue := relOp (· ≥ ·)

/-! ## The usual arithmetic conversions -/

variable {v l r : CConstValue}

theorem getUint32_self (h : v.type = uint32) : getUint32 v = v := by
  unfold getUint32
  rw [← h, Val.of_self]

theorem getUint64_self (h : v.type = uint64) : getUint64 v = v := by
  unfold getUint64
  rw [← h, Val.of_self]

theorem getSint32_self (h : v.type = int32) : getSint32 v = v := by
  unfold getSint32
  rw [← h, Val.of_self]

theorem getSint64_self (h : v.type = int64) : getSint64 v = v := by
  unfold getSint64
  rw [← h, Val.of_self]

/-- **The arms of a relational operator compare as C does.** An arm converts one of its operands to the common type,
or none. -/
theorem relArms_rel (c : Int → Int → Bool) (l r : CConstValue) : (relArms l r).1.rel c (relArms l r).2 = l.rel c r := by
  have hleft := Val.rel_left c l r
  have hright := Val.rel_right c l r
  unfold relArms
  split
  next hl hr => rw [getUint32_self hl, getUint32_self hr]
  next hl hr => rw [getUint32_self hl, getUint64_self hr]
  next hl hr =>
    rw [hl, hr] at hright
    rw [getUint32_self hl, getSint32_self hr]
    exact hright
  next hl hr => rw [getUint32_self hl, getSint64_self hr]
  next hl hr => rw [getUint64_self hl, getUint32_self hr]
  next hl hr => rw [getUint64_self hl, getUint64_self hr]
  next hl hr =>
    rw [hl, hr] at hright
    rw [getUint64_self hl, getSint32_self hr]
    exact hright
  next hl hr =>
    rw [hl, hr] at hright
    rw [getUint64_self hl, getSint64_self hr]
    exact hright
  next hl hr =>
    rw [hl, hr] at hleft
    rw [getSint32_self hl, getUint32_self hr]
    exact hleft
  next hl hr =>
    rw [hl, hr] at hleft
    rw [getSint32_self hl, getUint64_self hr]
    exact hleft
  next hl hr => rw [getSint32_self hl, getSint32_self hr]
  next hl hr => rw [getSint32_self hl, getSint64_self hr]
  next hl hr => rw [getSint64_self hl, getUint32_self hr]
  next hl hr =>
    rw [hl, hr] at hleft
    rw [getSint64_self hl, getUint64_self hr]
    exact hleft
  next hl hr => rw [getSint64_self hl, getSint32_self hr]
  next hl hr => rw [getSint64_self hl, getSint64_self hr]

theorem relOp_eq (c : Int → Int → Bool) (l r : CConstValue) : relOp c l r = ofCond (l.rel c r) :=
  congrArg ofCond (relArms_rel c l r)

/-- The operands that `==` compares as C does: two of 32 bits, or a left one that 32 bits without sign can hold next
to one that is no negative `int`. -/
def EqFits (l r : CConstValue) : Prop :=
  l.type.is32Bit ∧ r.type.is32Bit ∨ uint32.InRange l.value ∧ (r.type = int32 → 0 ≤ r.value)

/-- Of two operands of 32 bits, the low halves are all there is. -/
theorem eqArms_rel_32 (hl : l.type.is32Bit) (hr : r.type.is32Bit) :
    (eqArms l r).1.rel (· == ·) (eqArms l r).2 = l.rel (· == ·) r := by
  have hleft := Val.rel_left (· == ·) l r
  have hright := Val.rel_right (· == ·) l r
  unfold eqArms
  obtain ⟨lt, x, hx⟩ := l
  obtain ⟨rt, y, hy⟩ := r
  cases lt with
  | uint64 => cases hl
  | int64 => cases hl
  | uint32 =>
    cases rt with
    | uint64 => cases hr
    | int64 => cases hr
    | uint32 =>
      dsimp only
      rw [getUint32_self (v := ⟨uint32, x, hx⟩) rfl, getUint32_self (v := ⟨uint32, y, hy⟩) rfl]
    | int32 =>
      dsimp only
      rw [getUint32_self (v := ⟨uint32, x, hx⟩) rfl, getSint32_self (v := ⟨int32, y, hy⟩) rfl]
      exact hright
  | int32 =>
    cases rt with
    | uint64 => cases hr
    | int64 => cases hr
    | uint32 =>
      dsimp only
      rw [getUint32_self (v := ⟨uint32, y, hy⟩) rfl]
      exact hleft
    | int32 =>
      dsimp only
      rw [getSint32_self (v := ⟨int32, y, hy⟩) rfl]
      refine (Val.rel_of_inRange (wrap_inRange ..) (wrap_inRange ..)).trans ?_
      refine Eq.trans ?_ (Val.rel_of_inRange (x := ⟨int32, x, hx⟩) (y := ⟨int32, y, hy⟩) hx hy).symm
      rw [Bool.eq_iff_iff, beq_iff_eq, beq_iff_eq]
      exact wrap_inj (t := int32) rfl hx hy

/-- A left operand that fits is its own low half. -/
theorem eqArms_rel_fits (hl : uint32.InRange l.value) (hr : r.type = int32 → 0 ≤ r.value) :
    (eqArms l r).1.rel (· == ·) (eqArms l r).2 = (l.value == r.value) := by
  have hleft : (getUint32 l).value = l.value := Val.of_value hl
  have hl' := inRange_uint32.1 hl
  rw [← hleft] at hl'
  obtain ⟨rt, y, hy⟩ := r
  rw [← hleft]
  cases rt with
  | uint32 =>
    change (getUint32 l).rel (· == ·) (getUint32 ⟨uint32, y, hy⟩) = _
    rw [getUint32_self (v := ⟨uint32, y, hy⟩) rfl]
    exact Val.rel_of_inRange (getUint32 l).ok hy
  | uint64 =>
    change (getUint32 l).rel (· == ·) (getUint64 ⟨uint64, y, hy⟩) = _
    rw [getUint64_self (v := ⟨uint64, y, hy⟩) rfl]
    exact Val.rel_of_inRange (inRange_uint64.2 (by omega)) hy
  | int64 =>
    change (getUint32 l).rel (· == ·) (getSint64 ⟨int64, y, hy⟩) = _
    rw [getSint64_self (v := ⟨int64, y, hy⟩) rfl]
    exact Val.rel_of_inRange (inRange_int64.2 (by omega)) hy
  | int32 =>
    have hpos : 0 ≤ y := hr rfl
    have hy' : uint32.InRange y := inRange_uint32.2 (by have := inRange_int32.1 hy; omega)
    change (getUint32 l).rel (· == ·) (.of uint32 (getSint32 ⟨int32, y, hy⟩).value) = _
    rw [getSint32_self (v := ⟨int32, y, hy⟩) rfl]
    refine (Val.rel_of_inRange (x := getUint32 l) (y := .of uint32 y) (getUint32 l).ok (wrap_inRange ..)).trans ?_
    rw [Val.of_value hy']

/-- Such operands are equal in C when their values are. -/
theorem rel_fits (hl : uint32.InRange l.value) (hr : r.type = int32 → 0 ≤ r.value) :
    l.rel (· == ·) r = (l.value == r.value) := by
  have hl' := inRange_uint32.1 hl
  obtain ⟨lt, x, hx⟩ := l
  obtain ⟨rt, y, hy⟩ := r
  dsimp only at hr hl'
  by_cases hneg : lt = uint64 ∧ rt = int64
  · obtain ⟨rfl, rfl⟩ := hneg
    -- a negative value is converted to one past all of 32 bits
    have hy' := inRange_int64.1 hy
    change (uint64.wrap x == uint64.wrap y) = (x == y)
    rw [Bool.eq_iff_iff, beq_iff_eq, beq_iff_eq]
    have hx' : int64.InRange x := inRange_int64.2 (by omega)
    exact wrap_inj (t := int64) rfl hx' hy
  · have hxy : (usual lt rt).InRange x ∧ (usual lt rt).InRange y := by
      cases lt <;> cases rt <;>
        simp only [usual, inRange_uint32, inRange_uint64, inRange_int32, inRange_int64, reduceCtorEq, and_self,
          forall_const, not_true_eq_false, false_and, and_false, false_implies] at hx hy hr hneg ⊢ <;>
        omega
    exact Val.rel_of_inRange (x := ⟨lt, x, hx⟩) (y := ⟨rt, y, hy⟩) hxy.1 hxy.2

theorem equalEqual_eq (h : EqFits l r) : l.equalEqual r = ofCond (l.rel (· == ·) r) := by
  apply congrArg ofCond
  rcases h with ⟨hl, hr⟩ | ⟨hl, hr⟩
  · exact eqArms_rel_32 hl hr
  · rw [eqArms_rel_fits hl hr, rel_fits hl hr]

end CConstValue

end OpenHT.Htfe
