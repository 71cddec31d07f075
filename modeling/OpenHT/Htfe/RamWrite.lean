import OpenHT.Lib.RowMajor

/-!
# Partial writes of a distributed RAM

`write_mem().path = expr` becomes an assignment to a part of the write data, and assignments to the write enables of
the bits of that part. With indices that are no constants, there is one such assignment for every value of them.

* `Index`, `CScSubField`: the path.
* `getSubFieldRange`, `lowBit`, `idxInc`: the bits of a path, and the walk over the values of its indices.
* `replaceEqualEqualOp1`: how the index expressions get into the condition.
* `setHtDistRamWeSubRange`, `synHtDistRamWe`: the ranges that share a write enable, and an assignment to them.
* `writeMem`: the assignments of a statement.
* `EnablesExactly`: the bits of the addressed element are enabled, and no others.
-/

namespace OpenHT.Htfe.RamWrite

/-- An index operand. `V` are the valuations of the variables. -/
structure Index (V : Type) where
  eval : V → ℕ
  /-- What `EvalConstantExpr` finds: also variables that are known to be constant. -/
  evalConstantExpr : Option ℕ
  /-- `IsConstValue`: a literal or an enumerator. -/
  isConstValue : Bool
  sound : ∀ c ∈ evalConstantExpr, ∀ ρ, eval ρ = c
  leaf : isConstValue = true → evalConstantExpr.isSome = true

/-- What a path needs of the member that `m_pIdent` points to. -/
structure Member where
  structPos : ℕ
  dimenList : List ℕ
deriving DecidableEq, Repr

/-- The dimensions of the indices; without a member it is a bit index or a bit range. -/
def dimens : Option Member → List ℕ
  | some m => m.dimenList
  | none => [1]

structure CScSubField (V : Type) where
  pIdent : Option Member
  indexList : List (Index V)
  subFieldWidth : ℕ
  indexCnt : indexList.length = (dimens pIdent).length

variable {V : Type}

namespace CScSubField

variable (f : CScSubField V)

/-- The indices with their dimensions, in the order of the loops: last one first. -/
def slots : List (Index V × ℕ) := (f.indexList.zip (dimens f.pIdent)).reverse

/-- What an index adds to the low bit. -/
def lowBit (idx : ℕ) : ℕ :=
  match f.pIdent with
  | some m => m.structPos + f.subFieldWidth * idx
  | none => idx

end CScSubField

/-! ## The bits of a path -/

/-- The loop over the indices of a sub-field in `GetSubFieldRange`, with `idx` and `idxBase`. -/
def constIdx : List (Index V × ℕ) → ℕ → ℕ → Bool → ℕ × Bool
  | [], idx, _, bConstRange => (idx, bConstRange)
  | (e, d) :: l, idx, idxBase, bConstRange =>
    match e.evalConstantExpr with
    | some c => constIdx l (idx + c * idxBase) (idxBase * d) bConstRange
    | none => constIdx l idx idxBase false

/-- `GetSubFieldRange`: the low bit, the width, and whether all indices are constants. -/
def getSubFieldRange : List (CScSubField V) → ℕ → ℕ → Bool → ℕ × ℕ × Bool
  | [], lowBit, width, bConstRange => (lowBit, width, bConstRange)
  | f :: path, lowBit, _, bConstRange =>
    let r := constIdx f.slots 0 1 bConstRange
    getSubFieldRange path (lowBit + f.lowBit r.1) f.subFieldWidth r.2

/-- `m_exprList` and `m_dimenList` of `SubFieldRangeIter`. -/
def slots (path : List (CScSubField V)) : List (Index V × ℕ) := path.flatMap CScSubField.slots

/-- `m_idxList` at the start. -/
def firstIdx (s : List (Index V × ℕ)) : List ℕ := s.map fun x => x.1.evalConstantExpr.getD 0

/-- The loop over the indices of a sub-field, with their values. -/
def idxLoop : List (ℕ × ℕ) → ℕ → ℕ → ℕ
  | [], idx, _ => idx
  | (i, d) :: l, idx, idxBase => idxLoop l (idx + i * idxBase) (idxBase * d)

/-- `m_lowBit` for the values `idxList`. -/
def lowBit : List (CScSubField V) → List ℕ → ℕ
  | [], _ => 0
  | f :: path, idxList =>
    f.lowBit (idxLoop ((idxList.take f.slots.length).zip (f.slots.map Prod.snd)) 0 1) +
      lowBit path (idxList.drop f.slots.length)

/-- `m_width` -/
def lastWidth (width : ℕ) : List (CScSubField V) → ℕ
  | [] => width
  | f :: path => lastWidth f.subFieldWidth path

/-- The indices that are no constants go back to 0. -/
def idxReset : List (Index V × ℕ) → List ℕ → List ℕ
  | (e, _) :: s, i :: is => (if e.evalConstantExpr.isSome then i else 0) :: idxReset s is
  | _, _ => []

/-- `IdxInc`: the last index that is no constant counts up, with a carry to the one before it. `none`: done. -/
def idxInc : List (Index V × ℕ) → List ℕ → Option (List ℕ)
  | (e, d) :: s, i :: is =>
    match idxInc s is with
    | some is' => some (i :: is')
    | none =>
      if e.evalConstantExpr.isSome then none
      else if i + 1 < d then some ((i + 1) :: idxReset s is)
      else none
  | _, _ => none

/-! ## The condition -/

/-- The right side of an assignment to the write enable. -/
inductive CondExpr (V : Type)
  | constant (value : ℕ)
  | operand (e : Index V)
  | equalEqual (op1 op2 : CondExpr V)
  | ampersandAmpersand (op1 op2 : CondExpr V)

namespace CondExpr

def eval (ρ : V) : CondExpr V → ℕ
  | constant c => c
  | operand e => e.eval ρ
  | equalEqual a b => if a.eval ρ = b.eval ρ then 1 else 0
  | ampersandAmpersand a b => if a.eval ρ ≠ 0 ∧ b.eval ρ ≠ 0 then 1 else 0

/-- `IsConstValue() && GetConstValue().GetSint32() == matchConst` -/
def isConst (matchConst : ℕ) : CondExpr V → Bool
  | constant c => c == matchConst
  | operand e => e.isConstValue && e.evalConstantExpr == some matchConst
  | _ => false

/-- `ReplaceEqualEqualOp1`: the first comparison whose left side is the constant. `none`: there is no such one. -/
def replaceEqualEqualOp1 (matchConst : ℕ) (matchExpr : Index V) : CondExpr V → Option (CondExpr V)
  | equalEqual a b => if a.isConst matchConst then some (equalEqual (operand matchExpr) b) else none
  | ampersandAmpersand a b =>
    match replaceEqualEqualOp1 matchConst matchExpr a with
    | some a' => some (ampersandAmpersand a' b)
    | none => (replaceEqualEqualOp1 matchConst matchExpr b).map (ampersandAmpersand a)
  | _ => none

/-- The comparisons of a list, joined from the left. -/
def join (e : CondExpr V) : List (CondExpr V × ℕ) → CondExpr V
  | [] => e
  | (a, v) :: l => join (ampersandAmpersand e (equalEqual a (constant v))) l

def joinAll : List (CondExpr V × ℕ) → Option (CondExpr V)
  | [] => none
  | (a, v) :: l => some (join (equalEqual a (constant v)) l)

/-- The text `0x0 == 0x%x && 0x1 == 0x%x && …`, parsed. -/
def ofText (idxList : List ℕ) : Option (CondExpr V) :=
  joinAll (((List.range idxList.length).map constant).zip idxList)

/-- The loop that puts the index expressions in, with `Assert(bFound)`. -/
def replaceAll : ℕ → List (Index V) → CondExpr V → Option (CondExpr V)
  | _, [], cond => some cond
  | idx, e :: es, cond => replaceEqualEqualOp1 idx e cond >>= replaceAll (idx + 1) es

end CondExpr

/-! ## The ranges of the write enable -/

/-- `CHtDistRamWeWidth` -/
structure WeWidth where
  highBit : ℕ
  lowBit : ℕ
deriving DecidableEq, Repr

/-- The first loop of `SetHtDistRamWeSubRange`: a range starts at `lowBit`. -/
def splitLow (lowBit : ℕ) : List WeWidth → List WeWidth
  | [] => []
  | r :: l =>
    if lowBit = r.lowBit then r :: l
    else if r.lowBit < lowBit ∧ lowBit ≤ r.highBit then ⟨lowBit - 1, r.lowBit⟩ :: ⟨r.highBit, lowBit⟩ :: l
    else r :: splitLow lowBit l

/-- The second loop: a range ends at `highBit`. -/
def splitHigh (highBit : ℕ) : List WeWidth → List WeWidth
  | [] => []
  | r :: l =>
    if highBit = r.highBit then r :: l
    else if r.lowBit ≤ highBit ∧ highBit < r.highBit then ⟨highBit, r.lowBit⟩ :: ⟨r.highBit, highBit + 1⟩ :: l
    else r :: splitHigh highBit l

/-- The write enable is declared as `bool`: the width that `GetWidth` returns for it. -/
def wrEnWidth : ℕ := 1

/-- `SetHtDistRamWeSubRange` -/
def setHtDistRamWeSubRange (l : List WeWidth) (c : WeWidth) : List WeWidth :=
  if c.highBit - c.lowBit + 1 = wrEnWidth then l else splitHigh c.highBit (splitLow c.lowBit l)

/-- The ranges after the calls of all statements. -/
def weWidths (dataWidth : ℕ) (calls : List WeWidth) : List WeWidth :=
  calls.foldl setHtDistRamWeSubRange [⟨dataWidth - 1, 0⟩]

/-- `SynHtDistRamWe`: whether an assignment for `range` sets the write enable of a bit. Without a range it sets all. -/
def synHtDistRamWe (l : List WeWidth) (range : Option WeWidth) (bit : ℕ) : Bool :=
  l.any fun r =>
    (l.length == 1 || range.all fun e => decide (e.lowBit ≤ r.lowBit ∧ r.highBit ≤ e.highBit)) &&
      decide (r.lowBit ≤ bit ∧ bit ≤ r.highBit)

/-! ## The statement -/

/-- An assignment to the write enable, with `m_distRamWeWidth`. -/
structure WrEn (V : Type) where
  range : Option WeWidth
  value : CondExpr V

/-- The inner loop: parts of at most 64 bits. The first argument is a bound on their number. -/
def parts : ℕ → ℕ → ℕ → List WeWidth
  | 0, _, _ => []
  | n + 1, lowBit, highBit =>
    if lowBit ≤ highBit then
      let width := if highBit - lowBit + 1 > 64 then 64 else highBit - lowBit + 1
      ⟨lowBit + width - 1, lowBit⟩ :: parts n (lowBit + width) highBit
    else []

/-- The parts of `width` bits from `lowBit` on. -/
def partsOf (lowBit width : ℕ) : List WeWidth := parts width lowBit (lowBit + width - 1)

/-- Why a statement has no result: more fuel is needed, the text for the lexer is empty, or `Assert(bFound)` fails. -/
inductive Stop
  | fuel
  | noText
  | assert
deriving DecidableEq, Repr

/-- The values of `m_idxList`, one after the other. -/
def walk (s : List (Index V × ℕ)) : ℕ → List ℕ → Except Stop (List (List ℕ))
  | 0, _ => .error .fuel
  | n + 1, idxList =>
    match idxInc s idxList with
    | none => .ok [idxList]
    | some next => (walk s n next).map (idxList :: ·)

/-- The condition for the values `idxList`. -/
def condition (s : List (Index V × ℕ)) (idxList : List ℕ) : Except Stop (CondExpr V) :=
  match CondExpr.ofText idxList >>= CondExpr.replaceAll 0 (s.map Prod.fst) with
  | some cond => .ok cond
  | none => .error .assert

/-- The assignments in the order in which they are made. Each one is put before the ones that are there. -/
def writeMem (dataWidth : ℕ) (path : List (CScSubField V)) (n : ℕ) : Except Stop (List (WrEn V)) :=
  let r := getSubFieldRange path 0 dataWidth true
  if r.2.2 then
    .ok (if dataWidth = 1 then [⟨none, .constant 1⟩]
      else (partsOf r.1 r.2.1).map fun c => ⟨some c, .constant 1⟩)
  else if dataWidth = 1 then .error .noText
  else do
    let idxLists ← walk (slots path) n (firstIdx (slots path))
    let stmts ← idxLists.mapM fun idxList => do
      let cond ← condition (slots path) idxList
      return (partsOf (lowBit path idxList) (lastWidth dataWidth path)).map fun c => (⟨some c, cond⟩ : WrEn V)
    return stmts.flatten

/-- The value of a bit's write enable after the assignments, the last one made first. -/
def enabled (l : List WeWidth) (stmts : List (WrEn V)) (ρ : V) (bit : ℕ) : Bool :=
  stmts.foldr (fun s acc => if synHtDistRamWe l s.range bit then s.value.eval ρ != 0 else acc) false

/-! ## What a write is to enable -/

/-- The members and bits of a path are inside what they are taken from. -/
def Fits (width : ℕ) : List (CScSubField V) → Prop
  | [] => 0 < width
  | f :: path =>
    (∀ m ∈ f.pIdent, m.structPos + f.subFieldWidth * RowMajor.count m.dimenList ≤ width) ∧ Fits f.subFieldWidth path

/-- The values of the indices of a sub-field, first one first. -/
def CScSubField.values (f : CScSubField V) (ρ : V) : List ℕ := f.indexList.map fun e => e.eval ρ

/-- The indices are within their bounds: the dimensions, or the bits that are there. -/
def InBounds (ρ : V) (width : ℕ) : List (CScSubField V) → Prop
  | [] => True
  | f :: path =>
    (match f.pIdent with
      | some m => RowMajor.InRange m.dimenList (f.values ρ)
      | none => ∀ i ∈ f.values ρ, i + f.subFieldWidth ≤ width) ∧ InBounds ρ f.subFieldWidth path

/-- Where the addressed element starts: arrays are laid out with the last index running fastest. -/
def addr (ρ : V) : List (CScSubField V) → ℕ
  | [] => 0
  | f :: path => f.lowBit (RowMajor.offset (dimens f.pIdent) (f.values ρ)) + addr ρ path

/-- **Exactly the bits of the addressed element** are enabled, where `calls` are the sub-ranges of all writes. -/
def EnablesExactly (dataWidth : ℕ) (path : List (CScSubField V)) (calls : List WeWidth) (ρ : V) : Prop :=
  ∃ stmts, (∃ N, ∀ n, N ≤ n → writeMem dataWidth path n = .ok stmts) ∧
    ∀ bit, enabled (weWidths dataWidth calls) stmts ρ bit = true ↔
      addr ρ path ≤ bit ∧ bit < addr ρ path + lastWidth dataWidth path

end OpenHT.Htfe.RamWrite
