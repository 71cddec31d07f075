import OpenHT.Htfe.ArrayElems

/-!
# The declarations of structs and unions

`ParseStructDecl` gives the members of a struct their bit positions. The declarations of a body follow one another; a
nested struct or union is parsed by a call of the same function, which is told the position it starts at and returns the
bits that it takes.

* `Decl`: the declarations of a body.
* `Ident`: what the table of a struct holds.
* `declareFields`, `relocate`, `declareVar`: members, the members of an unnamed nested struct, and variables behind the
  brace of a nested one.
* `parseDecl`, `parseBody`: the parser.
-/

namespace OpenHT.Htfe.StructDecl

open ArrayElems (Str Elem)

/-- The type of a member: an integer type or a struct. -/
structure Ty where
  width : ℕ
  bIsStruct : Bool
deriving DecidableEq, Repr

/-- What stands behind the name of a member. -/
inductive Suffix
  | none
  | array (dims : List ℕ)
  | bits (width : ℕ)
deriving DecidableEq, Repr

structure Declarator where
  name : Str
  suffix : Suffix
deriving DecidableEq, Repr

/-- A variable behind the brace of a nested struct. -/
structure VarDecl where
  name : Str
  dims : List ℕ
deriving DecidableEq, Repr

/-- A declaration in the body of a struct or a union. -/
inductive Decl
  | fields (ty : Ty) (ds : List Declarator)
  | nested (bIsUnion : Bool) (structName : Option Str) (decls : List Decl) (vars : List VarDecl)

/-- A name in the table of a struct. The parser prints `Unnamed$` and a number for an unnamed struct; an identifier of the
source has no `$`. -/
inductive Name
  | ident (s : Str)
  | unnamed (unnamedId : ℕ)
deriving DecidableEq, Repr

/-- A variable in the table of a struct. -/
structure Member where
  name : Str
  type : Ty
  /-- `m_width`; 0 when it was not set. -/
  width : ℕ := 0
  structPos : ℕ := 0
  dimenList : List ℕ := []
  bIsArrayIdent : Bool := false
  elems : List Elem := []
deriving DecidableEq, Repr

/-- `GetWidth`. -/
def Member.getWidth (m : Member) : ℕ := if 0 < m.width then m.width else m.type.width

/-- An identifier in the table of a struct. -/
inductive Ident
  | struct (name : Name) (tbl : List Ident) (width : ℕ)
  | member (m : Member)

def Ident.name : Ident → Name
  | .struct name _ _ => name
  | .member m => .ident m.name

def Ident.member? : Ident → Option Member
  | .struct _ _ _ => none
  | .member m => some m

/-- What `InsertArrayElements` creates; dimensions are positive. -/
def arrayElems (name : Str) (dims : List ℕ) (width structBitPos : ℕ) : List Elem :=
  (ArrayElems.colElems dims).map fun idx =>
    ArrayElems.elemAt name width structBitPos (ArrayElems.colOffset dims idx) idx

theorem insertArrayElements_returns {name : Str} {dims : List ℕ} {width structBitPos : ℕ} (hd : ∀ d ∈ dims, 0 < d) :
    Fuel.Returns (ArrayElems.insertArrayElements name dims width structBitPos)
      (arrayElems name dims width structBitPos) :=
  ArrayElems.insert_returns hd

/-- `InsertIdent` for a name that is not to be there yet. -/
def insertNew (tbl : List Ident) (i : Ident) : Option (List Ident) :=
  if i.name ∈ tbl.map Ident.name then none else some (tbl ++ [i])

/-- The identifier of a declarator at `structBitPos`, and the bits it takes. -/
def declMember (ty : Ty) (structBitPos : ℕ) (d : Declarator) : Option (Member × ℕ) :=
  match d.suffix with
  | .none => some ({ name := d.name, type := ty, width := ty.width, structPos := structBitPos }, ty.width)
  | .bits width =>
    -- "unsupported field width (1-1024)"
    if width > 1024 then none
    else some ({ name := d.name, type := ty, width := width, structPos := structBitPos }, width)
  | .array dims =>
    let elems := arrayElems d.name dims ty.width structBitPos
    let m : Member :=
      { name := d.name
        type := ty
        structPos := structBitPos
        dimenList := dims
        bIsArrayIdent := true
        elems := elems }
    some (m, ty.width * elems.length)

/-- The declarators of a declaration, with `structBitPos`. No result after a message. -/
def declareFields (ty : Ty) : List Ident × ℕ → List Declarator → Option (List Ident × ℕ)
  | s, [] => some s
  | (tbl, structBitPos), d :: ds => do
    let (m, bits) ← declMember ty structBitPos d
    let tbl ← insertNew tbl (.member m)
    declareFields ty (tbl, structBitPos + bits) ds

/-- A member of an unnamed nested struct, as the enclosing one gets it. -/
def relocate (startBitPos : ℕ) (field : Member) : Member :=
  let width := field.getWidth
  let structPos := startBitPos + field.structPos
  if field.bIsArrayIdent then
    { name := field.name
      type := field.type
      width := width
      structPos := structPos
      bIsArrayIdent := true
      dimenList := field.dimenList
      elems := arrayElems field.name field.dimenList width structPos }
  else { name := field.name, type := field.type, width := width, structPos := structPos }

/-- The members of an unnamed nested struct. The source overwrites a member that the enclosing struct has already; here
this is no result. -/
def relocateAll (startBitPos : ℕ) : List Ident → List Member → Option (List Ident)
  | tbl, [] => some tbl
  | tbl, f :: fs => do
    let tbl ← insertNew tbl (.member (relocate startBitPos f))
    relocateAll startBitPos tbl fs

/-- A variable of the nested struct, and the bits it takes. `ParseVarArrayDecl` gives an array of structs its dimensions
but no elements, so the loop over its elements does nothing. -/
def declareVar (startBitPos maxStructBitPos : ℕ) (v : VarDecl) : Member × ℕ :=
  let type : Ty := ⟨maxStructBitPos, true⟩
  if v.dims = [] then
    ({ name := v.name, type := type, width := maxStructBitPos, structPos := startBitPos }, maxStructBitPos)
  else ({ name := v.name, type := type, dimenList := v.dims }, 0)

/-- The variables of the nested struct, with `totalBitWidth`. -/
def declareVars (startBitPos maxStructBitPos : ℕ) : List Ident × ℕ → List VarDecl → Option (List Ident × ℕ)
  | s, [] => some s
  | (tbl, totalBitWidth), v :: vs => do
    let (m, bits) := declareVar startBitPos maxStructBitPos v
    let tbl ← insertNew tbl (.member m)
    declareVars startBitPos maxStructBitPos (tbl, totalBitWidth + bits) vs

/-- The table of a struct in parsing, with the counter of its unnamed structs. -/
structure Body where
  tbl : List Ident := []
  unnamedId : ℕ := 0
  structBitPos : ℕ := 0
  maxStructBitPos : ℕ := 0

def tagName (unnamedId : ℕ) : Option Str → Name
  | some s => .ident s
  | none => .unnamed unnamedId

/-- The end of a declaration in the loop of `ParseStructDecl`. -/
def Body.next (bIsUnion : Bool) (b : Body) : Body :=
  let maxStructBitPos := if b.maxStructBitPos < b.structBitPos then b.structBitPos else b.maxStructBitPos
  { b with maxStructBitPos := maxStructBitPos, structBitPos := if bIsUnion then 0 else b.structBitPos }

mutual

/-- A declaration in the loop of `ParseStructDecl`; for a nested one, `ParseStructDecl` itself. No result after a
message. -/
def parseDecl (b : Body) : Decl → Option Body
  | .fields ty ds => do
    let (tbl, structBitPos) ← declareFields ty (b.tbl, b.structBitPos) ds
    some { b with tbl := tbl, structBitPos := structBitPos }
  | .nested bIsUnion structName decls vars => do
    let name := tagName b.unnamedId structName
    let unnamedId := if structName.isSome then b.unnamedId else b.unnamedId + 1
    let inner ← parseBody bIsUnion {} decls
    let tbl ← insertNew b.tbl (.struct name inner.tbl inner.maxStructBitPos)
    if vars = [] then
      if structName.isSome then some { b with tbl := tbl, unnamedId := unnamedId }
      else
        let tbl ← relocateAll b.structBitPos tbl (inner.tbl.filterMap Ident.member?)
        some { b with
          tbl := tbl
          unnamedId := unnamedId
          structBitPos := b.structBitPos + inner.maxStructBitPos }
    else
      let (tbl, totalBitWidth) ← declareVars b.structBitPos inner.maxStructBitPos (tbl, 0) vars
      some { b with tbl := tbl, unnamedId := unnamedId, structBitPos := b.structBitPos + totalBitWidth }

/-- The loop of `ParseStructDecl` over the declarations of a body. -/
def parseBody (bIsUnion : Bool) (b : Body) : List Decl → Option Body
  | [] => some b
  | d :: ds => do
    let b ← parseDecl b d
    parseBody bIsUnion (b.next bIsUnion) ds

end

end OpenHT.Htfe.StructDecl
