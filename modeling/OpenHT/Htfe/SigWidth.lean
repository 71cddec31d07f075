import OpenHT.Htfe.MinWidth

/-!
# The significant width of an expression

`SetOpWidthAndSign` and then `CheckWidthRules` go through an expression and give each node a minimal and a significant
width. The operators here are those on unsigned values; variables are unsigned and so are constants.

* `Expr`, `Node`: an expression, and what is stored in a node of it.
* `constWidth`, `opWidth`, `amount`, `diagnostics`: what the first function does.
* `checkWidthRules`: the widths.
* `eval`, `Under`: the exact value, and what a width says of it.
* `Fits`: the nodes that the rules hold for.
-/

namespace OpenHT.Htfe.SigWidth

open CInt CInt.IntType

/-- A variable: its type's width, the width of operations on it, and whether it is promoted to a signed type. -/
structure Var where
  name : String
  width : ℕ
  opWidth : ℕ
  bIsSigned : Bool
  width_pos : 0 < width
  width_le : width ≤ 64

/-- A constant of an unsigned type. -/
structure UConst where
  val : CConstValue
  unsigned : val.type.isSigned = false

/-- Its value. -/
def UConst.toNat (c : UConst) : ℕ := c.val.value.toNat

/-- The operators on two values, `+ * / % & | ^`. -/
inductive BinOp
  | plus
  | asterisk
  | slash
  | percent
  | ampersand
  | vbar
  | carot
deriving DecidableEq, Repr

inductive Expr
  | var (x : Var)
  | const (c : UConst)
  | bin (op : BinOp) (a b : Expr)
  /-- `<<` or `>>` by a constant. -/
  | shift (left : Bool) (a : Expr) (k : UConst)
  /-- `?:` -/
  | question (c a b : Expr)

/-! ## `SetOpWidthAndSign` -/

/-- `GetMinWidth` of a constant. -/
def minWidth (c : CConstValue) : ℕ := (c.getMinWidth).getD 0

/-- `IsConstWidth()` before the widths are checked. -/
def constWidth : Expr → Bool
  | .var _ => false
  | .const _ => true
  | .bin op a b =>
    match op with
    | .plus | .asterisk | .slash | .percent => constWidth a && constWidth b
    | .ampersand | .vbar | .carot => false
  | .shift _ _ _ => false
  | .question _ a b => constWidth a && constWidth b

def isSigned : Expr → Bool
  | .var x => x.bIsSigned
  | .const _ => false
  | .bin _ a b => isSigned a && isSigned b
  | .shift _ a _ => isSigned a
  | .question _ a b => isSigned a && isSigned b

def opWidth : Expr → ℕ
  | .var x => x.opWidth
  | .const c => if c.val.type.is32Bit then 32 else 64
  | .bin _ a b => max (opWidth a) (opWidth b)
  | .shift _ a _ => opWidth a
  | .question _ a b => max (opWidth a) (opWidth b)

/-- The amount of a shift, which is cut to as many bits as the width of the operation asks for. -/
def amount (a : Expr) (k : UConst) : ℕ :=
  let op1Width := if opWidth a ≤ 32 then 5 else if opWidth a ≤ 64 then 6 else 32
  k.toNat % Nat.pow 2 (min op1Width (minWidth k.val))

/-! ## `CheckWidthRules` -/

/-- What a node has: `m_minWidth`, `m_sigWidth`, `m_bIsConstWidth`, `m_bIsSigned`, and `m_constValue`. -/
structure Node where
  minWidth : Int
  sigWidth : Int
  bIsConstWidth : Bool
  bIsSigned : Bool
  constValue : Option UConst

namespace Node

def getMinWidth (n : Node) : Int :=
  if n.minWidth > 0 then n.minWidth else n.constValue.elim 0 fun c => SigWidth.minWidth c.val

def getSigWidth (n : Node) : Int := if n.sigWidth > 0 then n.sigWidth else n.getMinWidth

def isUnknownWidth (n : Node) : Bool := n.getMinWidth ≤ 0

def isConstWidth (n : Node) : Bool := n.bIsConstWidth || n.constValue.isSome

end Node

/-- Conversion to `int`. -/
def int (x : Int) : Int := int32.wrap x

/-- `((v - 1) & v) == 0` for an `int64_t`. -/
def isPowerOfTwo (v : BitVec 64) : Bool := (v - 1) &&& v = 0

def sint64 (c : UConst) : BitVec 64 := BitVec.ofNat 64 c.toNat

/-- The bits that a constant factor adds; a power of two is a shift. -/
def factorWidth (c : UConst) : Int :=
  let op1Value := if (sint64 c).msb then -sint64 c else sint64 c
  (minWidth c.val : Int) - if isPowerOfTwo op1Value then 1 else 0

/-- The bits of a remainder; that of a power of two is a mask. -/
def modulusWidth (c : UConst) : Int := (minWidth c.val : Int) - if isPowerOfTwo (sint64 c) then 1 else 0

/-- The width of `((1ull << width) - 1u) / c`; the processor takes the amount of the shift modulo 64. -/
def quotientWidth (width : Int) (c : UConst) : Int :=
  minWidth (.of uint64 (((Nat.pow 2 (width.toNat % 64) - 1) / c.toNat : ℕ) : Int))

namespace BinOp

/-- The arms of `|` and `^`. -/
def orRule (node a b : Node) : Node :=
  if a.isConstWidth && b.isConstWidth then
    { node with bIsConstWidth := true, minWidth := max a.getMinWidth b.getMinWidth }
  else if a.isConstWidth then
    { node with minWidth := max a.getMinWidth b.getMinWidth, sigWidth := max a.getMinWidth b.getSigWidth }
  else if b.isConstWidth then
    { node with minWidth := max a.getMinWidth b.getMinWidth, sigWidth := max a.getSigWidth b.getMinWidth }
  else { node with minWidth := max a.getMinWidth b.getMinWidth, sigWidth := max a.getSigWidth b.getSigWidth }

/-- An arm of `&` with an operand `k` of constant width. -/
def maskRule (node k b : Node) : Node :=
  match k.constValue with
  | some c =>
    if (sint64 c).msb then { node with minWidth := b.getMinWidth, sigWidth := b.getSigWidth }
    else
      { node with minWidth := min (minWidth c.val) b.getMinWidth, sigWidth := min (minWidth c.val) b.getSigWidth }
  | none => { node with minWidth := min k.getSigWidth b.getMinWidth, sigWidth := min k.getSigWidth b.getSigWidth }

def andRule (node a b : Node) : Node :=
  if a.isConstWidth && b.isConstWidth then
    { node with bIsConstWidth := true, minWidth := min a.getSigWidth b.getSigWidth }
  else if a.isConstWidth then maskRule node a b
  else if b.isConstWidth then maskRule node b a
  else { node with minWidth := min a.getMinWidth b.getMinWidth, sigWidth := min a.getSigWidth b.getSigWidth }

def slashRule (node a b : Node) : Node :=
  match b.constValue with
  | some c =>
    if c.toNat = 0 then node
    else
      let sign := if a.bIsSigned then 1 else 0
      { node with
        minWidth := quotientWidth a.getMinWidth c + sign, sigWidth := quotientWidth a.getSigWidth c + sign }
  | none => { node with minWidth := a.getMinWidth, sigWidth := a.getSigWidth }

def plusRule (node a b : Node) : Node :=
  { node with
    minWidth := max a.getMinWidth b.getMinWidth, sigWidth := int (max a.getSigWidth b.getSigWidth + 1) }

/-- The bits that the factor `a` adds to those of the other one. -/
def asteriskRule (node a b : Node) : Node :=
  match a.constValue with
  | some c =>
    { node with minWidth := int (b.getMinWidth + factorWidth c), sigWidth := int (b.getSigWidth + factorWidth c) }
  | none =>
    match b.constValue with
    | some c =>
      { node with minWidth := int (a.getMinWidth + factorWidth c), sigWidth := int (a.getSigWidth + factorWidth c) }
    | none =>
      { node with
        minWidth := int (a.getMinWidth + b.getMinWidth), sigWidth := int (a.getSigWidth + b.getSigWidth) }

def percentRule (node a b : Node) : Node :=
  match b.constValue with
  | some c =>
    { node with minWidth := min a.getMinWidth (modulusWidth c), sigWidth := min a.getSigWidth (modulusWidth c) }
  | none => { node with minWidth := min a.getMinWidth b.getMinWidth, sigWidth := min a.getSigWidth b.getSigWidth }

/-- What becomes of a node with two operands. -/
def rule (op : BinOp) (node a b : Node) : Node :=
  if a.isUnknownWidth || b.isUnknownWidth then node
  else
    match op with
    | plus => plusRule node a b
    | asterisk => asteriskRule node a b
    | slash => slashRule node a b
    | percent => percentRule node a b
    | ampersand => andRule node a b
    | vbar | carot => orRule node a b

end BinOp

def shiftRule (left : Bool) (node a : Node) (k : ℕ) : Node :=
  if left then { node with minWidth := int (a.getMinWidth + k), sigWidth := int (a.getSigWidth + k) }
  else { node with minWidth := int (a.getMinWidth - k), sigWidth := int (a.getSigWidth - k) }

def questionRule (node c a b : Node) : Node :=
  if c.isUnknownWidth || a.isUnknownWidth || b.isUnknownWidth then node
  else { node with minWidth := max a.getMinWidth b.getMinWidth, sigWidth := max a.getSigWidth b.getSigWidth }

/-- A node as `SetOpWidthAndSign` leaves it. -/
def start (e : Expr) : Node := ⟨0, 0, constWidth e, isSigned e, none⟩

/-- **The widths of an expression.** -/
def checkWidthRules : Expr → Node
  | .var x => ⟨x.width, 0, false, x.bIsSigned, none⟩
  | .const c => ⟨0, 0, false, false, some c⟩
  | .bin op a b => op.rule (start (.bin op a b)) (checkWidthRules a) (checkWidthRules b)
  | .shift left a k => shiftRule left (start (.shift left a k)) (checkWidthRules a) (amount a k)
  | .question c a b =>
    questionRule (start (.question c a b)) (checkWidthRules c) (checkWidthRules a) (checkWidthRules b)

/-- `GetParseMsgWidthStr` -/
def widthStr (n : Node) : String :=
  if n.getMinWidth = n.getSigWidth then toString n.getMinWidth
  else toString n.getMinWidth ++ "+" ++ toString (n.getSigWidth - n.getMinWidth)

/-- The messages of both functions. -/
def diagnostics : Expr → List String
  | .var _ | .const _ => []
  | .bin op a b =>
    diagnostics a ++ diagnostics b ++
      match op, (checkWidthRules b).constValue with
      | .slash, some c =>
        if !(checkWidthRules a).isUnknownWidth && c.toNat == 0 then ["division by zero"] else []
      | _, _ => []
  | .shift _ a k =>
    diagnostics a ++
      if (opWidth a : Int) ≤ (sint64 k).toInt then ["shift by amount greater than operand width"] else []
  | .question c a b =>
    diagnostics c ++ diagnostics a ++ diagnostics b ++
      let nc := checkWidthRules c
      let na := checkWidthRules a
      let nb := checkWidthRules b
      if nc.isUnknownWidth || na.isUnknownWidth || nb.isUnknownWidth || na.isConstWidth || nb.isConstWidth ||
        (na.getMinWidth ≤ nb.getSigWidth && na.getSigWidth ≥ nb.getMinWidth) then []
      else ["operand width mismatch, " ++ widthStr nc ++ " ? " ++ widthStr na ++ " : " ++ widthStr nb ++ "\n"]

/-! ## Values -/

/-- Values of the variables. -/
structure Valuation where
  val : Var → ℕ
  lt : ∀ x, val x < Nat.pow 2 x.width

def BinOp.apply : BinOp → ℕ → ℕ → ℕ
  | plus, m, n => m + n
  | asterisk, m, n => m * n
  | slash, m, n => m / n
  | percent, m, n => m % n
  | ampersand, m, n => m &&& n
  | vbar, m, n => m ||| n
  | carot, m, n => m ^^^ n

/-- **The exact value**, without a width. -/
def eval (ρ : Valuation) : Expr → ℕ
  | .var x => ρ.val x
  | .const c => c.toNat
  | .bin op a b => op.apply (eval ρ a) (eval ρ b)
  | .shift left a k => if left then eval ρ a * Nat.pow 2 (amount a k) else eval ρ a / Nat.pow 2 (amount a k)
  | .question c a b => if eval ρ c = 0 then eval ρ b else eval ρ a

/-- No divisor is zero. -/
def NonzeroDivisors (ρ : Valuation) : Expr → Prop
  | .var _ | .const _ => True
  | .bin op a b =>
    NonzeroDivisors ρ a ∧ NonzeroDivisors ρ b ∧ (op = .slash ∨ op = .percent → eval ρ b ≠ 0)
  | .shift _ a _ => NonzeroDivisors ρ a
  | .question c a b => NonzeroDivisors ρ c ∧ NonzeroDivisors ρ a ∧ NonzeroDivisors ρ b

def subexprs : Expr → List Expr
  | .var x => [.var x]
  | .const c => [.const c]
  | .bin op a b => .bin op a b :: (subexprs a ++ subexprs b)
  | .shift left a k => .shift left a k :: .const k :: subexprs a
  | .question c a b => .question c a b :: (subexprs c ++ subexprs a ++ subexprs b)

/-- The value is below two to the power of the width. -/
def Under (v : Nat) (width : Int) : Prop := v < Nat.pow 2 width.toNat

/-! ## Where the rules hold -/

/-- The widths of the node are set: those of its operands are known (of a shift, they are set). -/
def IsSet : Expr → Prop
  | .var _ | .const _ => True
  | .bin _ a b => (checkWidthRules a).isUnknownWidth = false ∧ (checkWidthRules b).isUnknownWidth = false
  | .shift _ a _ => IsSet a
  | .question c a b =>
    (checkWidthRules c).isUnknownWidth = false ∧ (checkWidthRules a).isUnknownWidth = false ∧
      (checkWidthRules b).isUnknownWidth = false

/-- Above half of the range, and a power of two short of its end. -/
def NegatedPower (c : UConst) : Prop := 9223372036854775808 < c.toNat ∧ (18446744073709551616 - c.toNat).isPowerOfTwo

/-- A product has a width that an `int` can be. -/
def BinOp.asteriskFits (a b : Node) : Prop :=
  match a.constValue with
  | some c => ¬ NegatedPower c ∧ b.getSigWidth + factorWidth c < 2147483648
  | none =>
    match b.constValue with
    | some c => ¬ NegatedPower c ∧ a.getSigWidth + factorWidth c < 2147483648
    | none => a.getSigWidth + b.getSigWidth < 2147483648

/-- A constant width has no carry, unless the other operand has room for it. -/
def BinOp.orFits (a b : Node) : Prop :=
  (a.isConstWidth = true →
    a.getSigWidth ≤ max a.getMinWidth (if b.isConstWidth then b.getMinWidth else b.getSigWidth)) ∧
  (b.isConstWidth = true →
    b.getSigWidth ≤ max b.getMinWidth (if a.isConstWidth then a.getMinWidth else a.getSigWidth))

/-- The operands of an operator that its rule holds for. -/
def BinOp.Fits : BinOp → Node → Node → Prop
  | plus, a, b => max a.getSigWidth b.getSigWidth + 1 < 2147483648
  | asterisk, a, b => asteriskFits a b
  | slash, a, b => b.constValue.isSome = true → a.getSigWidth < 64
  | percent, _, _ | ampersand, _, _ => True
  | vbar, a, b | carot, a, b => orFits a b

/-- **The rules hold at every node.** -/
def Fits : Expr → Prop
  | .var _ | .const _ => True
  | .bin op a b =>
    Fits a ∧ Fits b ∧
      ((checkWidthRules a).isUnknownWidth = false → (checkWidthRules b).isUnknownWidth = false →
        op.Fits (checkWidthRules a) (checkWidthRules b))
  | .shift left a k =>
    Fits a ∧ (IsSet a ∨ if left then amount a k = 0 else amount a k ≤ 2147483648) ∧
      (left = true → (checkWidthRules a).getSigWidth + amount a k < 2147483648)
  | .question c a b => Fits c ∧ Fits a ∧ Fits b

end OpenHT.Htfe.SigWidth
