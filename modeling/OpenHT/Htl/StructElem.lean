import OpenHT.Lib.RowMajor

/-!
# The iterator over the elements of a record

`CStructElemIter` walks through the fields of a record that is laid out, through the elements of arrays, and through
the fields of the records among them. The generators take the name, the position and the width of each element from it.

* `Fields`: a record with the positions of its fields.
* `CStack`, `next`, `start`: the stack of the iterator, `operator++`, and the constructor.
* `Visits`: the states that a loop over the iterator sees.
* `leaves`: the elements as the layout has them.
-/

namespace OpenHT.Htl.StructElem

abbrev Str := List Char

/-- What the iterator reads of a field: its name, the width of its type, its dimensions and its position. -/
structure CField where
  name : Str
  clangBitWidth : ℕ
  dimenList : List ℕ
  clangBitPos : ℕ
  /-- An array has an element. -/
  dimen_pos : ∀ d ∈ dimenList, 0 < d

/-- The fields of a record, each of an integer type, with its `m_fldWidth`, or of a record type. -/
inductive Fields
  | nil
  | int (f : CField) (fldWidth : ℤ) (rest : Fields)
  | record (f : CField) (fields : Fields) (rest : Fields)

namespace Fields

def head? : Fields → Option CField
  | nil => none
  | int f _ _ => some f
  | record f _ _ => some f

def tail : Fields → Fields
  | nil => nil
  | int _ _ rest => rest
  | record _ _ rest => rest

/-- `vector<int>(m_dimenList.size())` of the first field. -/
def zeroRefs (fs : Fields) : List ℕ :=
  match fs.head? with
  | some f => RowMajor.zeros f.dimenList
  | none => []

end Fields

/-- `m_fldWidth`, or the width of the type if it has none. -/
def intWidth (f : CField) (fldWidth : ℤ) : ℕ := if fldWidth > 0 then fldWidth.toNat else f.clangBitWidth

/-- The parameters of the constructor. -/
structure Mode where
  bFollowNamedStruct : Bool
  bDimenIter : Bool

/-- The record is walked through, and not an element itself. -/
def Mode.follows (m : Mode) (f : CField) : Bool := f.name = [] || m.bFollowNamedStruct

/-- A level of the stack. `fields` are the fields of `m_pRecord` from `m_fieldIdx` on. -/
structure CStack where
  fields : Fields
  heirName : Str
  heirBitPos : ℕ
  elemBitPos : ℕ
  refList : List ℕ

/-- `IndexStr`. The text of each index is printed to a `char buf[8]`. -/
def indexStr : List ℕ → Option Str
  | [] => some []
  | i :: is =>
    let buf := '[' :: Nat.toDigits 10 i ++ [']']
    if buf.length < 8 then (indexStr is).map (buf ++ ·) else none

/-- `DimenIter`: whether there is an element behind, and its indices. -/
def dimenIter : List ℕ → List ℕ → Bool × List ℕ
  | d :: ds, i :: is =>
    match dimenIter ds is with
    | (true, is) => (true, i :: is)
    | (false, is) => if i + 1 < d then (true, (i + 1) :: is) else (false, 0 :: is)
  | _, _ => (false, [])

namespace CStack

/-- The array step, which stands in `operator++` twice. -/
def stepArray (m : Mode) (s : CStack) : Option CStack :=
  match s.fields.head? with
  | none => none
  | some f =>
    if m.bDimenIter then
      match dimenIter f.dimenList s.refList with
      | (true, refs) => some { s with refList := refs, elemBitPos := s.elemBitPos + f.clangBitWidth }
      | (false, _) => none
    else none

/-- The next field, whose indices are set when there is one. -/
def nextField (s : CStack) : CStack :=
  { s with fields := s.fields.tail, elemBitPos := 0, refList := s.fields.tail.zeroRefs }

def heirFieldPos (s : CStack) : ℕ := s.heirBitPos + (s.fields.head?.elim 0 CField.clangBitPos) + s.elemBitPos

end CStack

/-- The first loop of `operator++`, which leaves the records that are at their end. -/
def popEnds (m : Mode) : CStack → List CStack → List CStack
  | s, [] =>
    match s.fields with
    | .nil => []
    | _ => [s]
  | s, p :: st =>
    match s.fields with
    | .nil =>
      match p.stepArray m with
      | some p' => p' :: st
      | none => popEnds m p.nextField st
    | _ => s :: p :: st

/-- The name of the fields of a record: `m_heirName` of the level that is pushed. -/
def pushName (m : Mode) (s : CStack) (f : CField) : Option Str :=
  let heirName := if f.name = [] then s.heirName
    else (if s.heirName = [] then s.heirName else s.heirName ++ ['.']) ++ f.name
  if m.bDimenIter then (indexStr s.refList).map (heirName ++ ·) else some heirName

/-- The second loop, which enters records. The first field of a record is taken without asking whether there is one:
there is no result if there is none, nor if an index does not fit in its buffer. -/
def enter (m : Mode) : Fields → CStack → List CStack → Option (List CStack)
  | .nil, _, _ => none
  | .int _ _ _, s, st => some (s :: st)
  | .record f fields _, s, st =>
    if m.follows f then
      match pushName m s f with
      | some heirName => enter m fields ⟨fields, heirName, s.heirFieldPos, 0, fields.zeroRefs⟩ (s :: st)
      | none => none
    else some (s :: st)

/-- Both loops. -/
def settle (m : Mode) (s : CStack) (st : List CStack) : Option (List CStack) :=
  match popEnds m s st with
  | [] => some []
  | s :: st => enter m s.fields s st

/-- `operator++` -/
def next (m : Mode) : List CStack → Option (List CStack)
  | [] => none
  | s :: st =>
    match s.stepArray m with
    | some s => some (s :: st)
    | none => settle m s.nextField st

/-- The constructor, for a record type. -/
def start (m : Mode) (fields : Fields) : Option (List CStack) := settle m ⟨fields, [], 0, 0, fields.zeroRefs⟩ []

/-- The states of a loop over the iterator, which ends when the stack is empty. -/
inductive Visits (m : Mode) : List CStack → List CStack → Prop
  | done : Visits m [] []
  | step {s : CStack} {st st' : List CStack} {l : List CStack} :
    next m (s :: st) = some st' → Visits m st' l → Visits m (s :: st) (s :: l)

/-! ## What is asked of the iterator -/

namespace CStack

def getHeirFieldPos (s : CStack) : ℕ := s.heirFieldPos

def isStructOrUnion (s : CStack) : Bool :=
  match s.fields with
  | .record _ _ _ => true
  | _ => false

/-- `typeWidth` is the width of the type that the iterator was made for. -/
def getWidth (typeWidth : ℕ) (s : CStack) : ℕ :=
  match s.fields with
  | .int f fldWidth _ => intWidth f fldWidth
  | _ => typeWidth

/-- `GetHeirFieldName(true)` -/
def getHeirFieldName (s : CStack) : Option Str :=
  (indexStr s.refList).map fun index =>
    '.' :: (if s.heirName = [] then [] else s.heirName ++ ['.']) ++ s.fields.head?.elim [] CField.name ++ index

end CStack

/-! ## The layout -/

/-- An element: its record's name, its field's name and its indices there, its position and its width, and whether it
is a record. -/
structure Elem where
  heirName : Str
  name : Str
  index : List ℕ
  pos : ℕ
  width : ℕ
  bStructOrUnion : Bool
deriving DecidableEq, Repr

def indexText (idx : List ℕ) : Str := idx.flatMap fun i => '[' :: Nat.toDigits 10 i ++ [']']

/-- The name of a record among the fields of another. -/
def heirText (heirName name : Str) (idx : List ℕ) : Str :=
  (if name = [] then heirName else (if heirName = [] then heirName else heirName ++ ['.']) ++ name) ++ indexText idx

def Elem.text (e : Elem) : Str :=
  '.' :: (if e.heirName = [] then [] else e.heirName ++ ['.']) ++ e.name ++ indexText e.index

/-- Where an element of a field is, in a record at `base`. -/
def elemPos (base : ℕ) (f : CField) (idx : List ℕ) : ℕ :=
  base + f.clangBitPos + RowMajor.offset f.dimenList idx * f.clangBitWidth

/-- The elements of a record at `base`, in the order of the fields and of C's arrays. -/
def leaves (m : Mode) : Fields → Str → ℕ → List Elem
  | .nil, _, _ => []
  | .int f fldWidth rest, heirName, base =>
    (RowMajor.indices f.dimenList).map (fun idx => ⟨heirName, f.name, idx, elemPos base f idx, intWidth f fldWidth, false⟩) ++
      leaves m rest heirName base
  | .record f fields rest, heirName, base =>
    (if m.follows f then
      (RowMajor.indices f.dimenList).flatMap fun idx =>
        leaves m fields (heirText heirName f.name idx) (elemPos base f idx)
    else (RowMajor.indices f.dimenList).map fun idx => ⟨heirName, f.name, idx, elemPos base f idx, f.clangBitWidth, true⟩) ++
      leaves m rest heirName base

/-- Every record that is walked through has a field, and no index of it needs more than five digits. -/
def Enterable (m : Mode) : Fields → Prop
  | .nil => True
  | .int _ _ rest => Enterable m rest
  | .record f fields rest =>
    (m.follows f = true → fields ≠ .nil ∧ Enterable m fields ∧ ∀ d ∈ f.dimenList, d ≤ 100000) ∧ Enterable m rest

/-- The element a state is at. -/
def CStack.view (s : CStack) : Elem :=
  match s.fields with
  | .nil => ⟨s.heirName, [], s.refList, s.heirFieldPos, 0, false⟩
  | .int f fldWidth _ => ⟨s.heirName, f.name, s.refList, s.heirFieldPos, intWidth f fldWidth, false⟩
  | .record f _ _ => ⟨s.heirName, f.name, s.refList, s.heirFieldPos, f.clangBitWidth, true⟩

end OpenHT.Htl.StructElem
