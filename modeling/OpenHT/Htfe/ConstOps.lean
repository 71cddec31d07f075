import OpenHT.Htfe.ConstValue

/-!
# The operators of `CConstValue`

* `UnOp`, `BinOp`: the operators that constants are folded with.
* `UnOp.eval`, `BinOp.eval`, `cast`: their values, `none` where C++ leaves them undefined.
-/

namespace OpenHT.Htfe

open CInt CInt.IntType

inductive UnOp
  | unaryPlus | unaryMinus | tilda | bang
deriving DecidableEq, Repr

inductive BinOp
  | plus | minus | slash | asterisk | percent | vbar | carot | ampersand | lessLess | greaterGreater
  | equalEqual | vbarVbar | ampersandAmpersand | bangEqual | less | greater | greaterEqual | lessEqual
deriving DecidableEq, Repr

namespace CConstValue

/-- `IsZero` -/
def isZero (v : CConstValue) : Bool := v.value == 0

/-- `v != 0`, of `v` and an `int64_t`. -/
def nonzero (v : CConstValue) : Bool := v.value != 0

/-- The type of an arithmetic result: as wide as the wider operand, and signed if both are. -/
def rsltType (l r : EConstType) : EConstType :=
  match l.is32Bit && r.is32Bit, l.isSigned && r.isSigned with
  | true, false => uint32
  | true, true => int32
  | false, false => uint64
  | false, true => int64

/-- A signed result that its type does not have is undefined. -/
def checked (t : EConstType) (x : Int) : Option CConstValue :=
  if t.isSigned ∧ ¬t.InRange x then none else some (.of t x)

/-- An operator of C, on the operands after the usual arithmetic conversions. -/
def arith (f : Int → Int → Option Int) (l r : CConstValue) : Option CConstValue := do
  let t := usual l.type r.type
  let x ← f (t.wrap l.value) (t.wrap r.value)
  let v ← checked t x
  return .of (rsltType l.type r.type) v.value

/-- The 64 bits of a value. -/
def bits (x : Int) : ℕ := (uint64.wrap x).toNat

def bitwise (f : ℕ → ℕ → ℕ) (l r : CConstValue) : Option CConstValue :=
  let t := usual l.type r.type
  some (.of (rsltType l.type r.type) (t.wrap (f (bits (t.wrap l.value)) (bits (t.wrap r.value)))))

/-- A shift: of the type of the left operand, by less than its width. -/
def shift (f : Int → ℕ → Option Int) (l r : CConstValue) : Option CConstValue :=
  if r.value < 0 ∨ (if l.type.is32Bit then 32 else 64) ≤ r.value then none
  else (f l.value r.value.toNat).map (.of l.type)

end CConstValue

open CConstValue

def UnOp.eval (op : UnOp) (v : CConstValue) : Option CConstValue :=
  match op with
  | unaryPlus => some v
  | unaryMinus => checked v.type (-v.value)
  | tilda => some (.of v.type (-v.value - 1))
  | bang => some (.ofBool v.type v.isZero)

def BinOp.eval (op : BinOp) (l r : CConstValue) : Option CConstValue :=
  match op with
  | plus => arith (fun x y => some (x + y)) l r
  | minus => arith (fun x y => some (x - y)) l r
  | asterisk => arith (fun x y => some (x * y)) l r
  | slash => arith (fun x y => if y = 0 then none else some (x.tdiv y)) l r
  | percent => arith (fun x y => if y = 0 then none else some (x.tmod y)) l r
  | vbar => bitwise (· ||| ·) l r
  | carot => bitwise (· ^^^ ·) l r
  | ampersand => bitwise (· &&& ·) l r
  | lessLess => shift (fun x n => if x < 0 then none else some (x * (Nat.pow 2 n : ℕ))) l r
  | greaterGreater => shift (fun x n => some (x.fdiv (Nat.pow 2 n : ℕ))) l r
  | equalEqual => some (l.equalEqual r)
  | bangEqual => some (l.bangEqual r)
  | less => some (l.less r)
  | greater => some (l.greater r)
  | lessEqual => some (l.lessEqual r)
  | greaterEqual => some (l.greaterEqual r)
  | vbarVbar => some (ofCond (l.nonzero || r.nonzero))
  | ampersandAmpersand => some (ofCond (l.nonzero && r.nonzero))

/-- `Cast`: the low `width` bits, extended by the sign or by zeros. -/
def CConstValue.cast (isSigned : Bool) (width : ℕ) (v : CConstValue) : Option CConstValue :=
  if width = 0 ∨ 64 < width then none
  else
    let card : Int := (Nat.pow 2 width : ℕ)
    let low := v.value % card
    let t := if isSigned then (if 32 < width then int64 else int32) else if 32 < width then uint64 else uint32
    some (.of t (if isSigned ∧ card ≤ 2 * low then low - card else low))

end OpenHT.Htfe
