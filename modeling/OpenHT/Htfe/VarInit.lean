import OpenHT.Htfe.DimenIter

/-!
# Initializers of arrays

`ParseVarDeclInitializer` writes an assignment for each value of an initializer, and for each element without one. An
index vector counts through the array, and a closing brace fills with zeros as long as one of its indices is not 0.

* `parseVarDeclInitializer`: the function of the source.
* `Items`: the initializers of a brace.
* `cArray`: the values of the elements in C, and the size of the leading dimension.
* `FollowsC`: what an initializer should do.
* `Regular`: the initializers that do.
-/

namespace OpenHT.Htfe.VarInit

open RowMajor Dimen

variable {V : Type}

/-! ## The parser -/

/-- The tokens of an initializer; an expression is one token, with its value, and a string has the values of its
characters. -/
inductive Token (V : Type)
  | lbrace
  | rbrace
  | comma
  | semicolon
  | expr (v : V)
  | string (s : List V)
deriving DecidableEq, Repr

/-- `openBraceLvl` and `refList`, and the assignments so far. -/
structure State (V : Type) where
  openBraceLvl : ℕ
  refList : List ℕ
  statements : List (List ℕ × V)
deriving DecidableEq, Repr

inductive Outcome (V : Type)
  /-- A message was reported. -/
  | error
  | accepted (dimenList : List ℕ) (statements : List (List ℕ × V))
deriving DecidableEq, Repr

/-- Places in the loop: before a value or an opening brace, after a value, and after a closing brace. -/
inductive Place
  | item
  | afterValue
  | afterBrace
deriving DecidableEq, Repr

/-- No index is constant. -/
def constList (dimenList : List ℕ) : List Bool := dimenList.map fun _ => false

/-- `InsertVarDeclInitializer`, and the next element. -/
def State.insert (dimenList : List ℕ) (s : State V) (v : V) : State V :=
  { s with
    refList := (dimenIter dimenList (constList dimenList) s.refList).1
    statements := s.statements ++ [(s.refList, v)] }

variable [Zero V]

/-- The values of a string that is for `n` elements, with zeros at the end; `bCut`: one zero only. -/
def stringValues (n : ℕ) (bCut : Bool) (str : List V) : List V :=
  str ++ List.replicate (if bCut then 1 else n - str.length) 0

/-- Fills with zeros to the end of the dimension. `none`: outside of `refList`, or more elements than the array has. -/
def fill (dimenList : List ℕ) (lvl : ℕ) : ℕ → State V → Option (State V)
  | 0, _ => none
  | n + 1, s => s.refList[lvl]?.bind fun i => if i = 0 then some s else fill dimenList lvl n (s.insert dimenList 0)

/-- A closing brace. -/
def closeBrace (dimenList : List ℕ) (bAutoSizeLeadingDimen : Bool) (s : State V) : Option (State V) :=
  let s := { s with openBraceLvl := s.openBraceLvl - 1 }
  let bAtEnd := decide (s.openBraceLvl = 0) && bAutoSizeLeadingDimen && s.refList.tail.all (· = 0)
  if bAtEnd then some s else fill dimenList s.openBraceLvl (RowMajor.count dimenList + 1) s

/-- After the initializer. -/
def finish (dimenList : List ℕ) (bAutoSizeLeadingDimen : Bool) (ts : List (Token V)) (s : State V) : Outcome V :=
  match ts with
  | .semicolon :: _ | .comma :: _ =>
    .accepted (if bAutoSizeLeadingDimen then s.refList.headD 0 :: dimenList.tail else dimenList) s.statements
  | _ => .error

/-- A string. `none`: outside of `refList`. -/
def insertString (dimenList : List ℕ) (bAutoSizeLeadingDimen : Bool) (s : State V) (str : List V) :
    Option (Option (State V)) := do
  let i ← s.refList.getLast?
  let n ← dimenList.getLast?
  if i ≠ 0 ∨ n < str.length + 1 then return none
  else
    let bCut := decide (s.openBraceLvl = 0) && bAutoSizeLeadingDimen
    return some ((stringValues n bCut str).foldl (State.insert dimenList) s)

/-- The loop of `ParseVarDeclInitializer`. `none`: outside of a vector. -/
def go (dimenList : List ℕ) (bAutoSizeLeadingDimen : Bool) : List (Token V) → Place → State V → Option (Outcome V)
  | [], _, _ => some .error
  | t :: ts, place, s =>
    match place with
    | .item =>
      match t with
      | .lbrace =>
        if s.openBraceLvl < s.refList.length ∧ s.refList[s.openBraceLvl]? ≠ some 0 then some .error
        else go dimenList bAutoSizeLeadingDimen ts .item { s with openBraceLvl := s.openBraceLvl + 1 }
      | .string str =>
        (insertString dimenList bAutoSizeLeadingDimen s str).bind fun s =>
          match s with
          | some s => go dimenList bAutoSizeLeadingDimen ts .afterValue s
          | none => some .error
      | .expr v => go dimenList bAutoSizeLeadingDimen ts .afterValue (s.insert dimenList v)
      -- `ParseExpression` reports an error
      | .rbrace | .comma | .semicolon => some .error
    | .afterValue | .afterBrace =>
      if s.openBraceLvl = 0 then some (finish dimenList bAutoSizeLeadingDimen (t :: ts) s)
      else
        match t with
        | .rbrace =>
          (closeBrace dimenList bAutoSizeLeadingDimen s).bind fun s => go dimenList bAutoSizeLeadingDimen ts .afterBrace s
        | .comma =>
          if place = .afterValue ∧ (s.refList.length < s.openBraceLvl ∨ s.refList[s.openBraceLvl - 1]? = some 0) then
            some .error
          else go dimenList bAutoSizeLeadingDimen ts .item s
        | _ => some .error

/-- `ParseVarDeclInitializer`; the leading dimension is 0 if it is omitted. -/
def parseVarDeclInitializer (dimenList : List ℕ) (ts : List (Token V)) : Option (Outcome V) :=
  let bAutoSizeLeadingDimen := decide (dimenList.head? = some 0)
  let dimenList := if bAutoSizeLeadingDimen then 262143 :: dimenList.tail else dimenList
  go dimenList bAutoSizeLeadingDimen ts .item ⟨0, dimenList.map fun _ => 0, []⟩

/-! ## Initializers in C -/

/-- The initializers of a brace, which may have a comma after the last one. -/
inductive Items (V : Type)
  | nil
  | expr (v : V) (rest : Items V)
  | braces (sub : Items V) (trailing : Bool) (rest : Items V)
deriving DecidableEq, Repr

namespace Items

def isNil : Items V → Bool
  | nil => true
  | expr .. | braces .. => false

/-- The tokens of the items, with commas between them. -/
def tokens : Items V → List (Token V)
  | nil => []
  | expr v rest => .expr v :: if rest.isNil then [] else .comma :: rest.tokens
  | braces sub trailing rest =>
    .lbrace :: sub.tokens ++ (if trailing then [.comma] else []) ++ .rbrace ::
      if rest.isNil then [] else .comma :: rest.tokens

/-- The initializer of a scalar in braces. -/
def scalar : Items V → Option (List V)
  | expr v nil => some [v]
  | _ => none

end Items

/-- The dimensions of the largest part of an array with elements of dimensions `ds` that begins at an offset, within
the elements that have begun. -/
def subDims : List ℕ → ℕ → List ℕ
  | [], _ => []
  | d :: ds, q => if RowMajor.count (d :: ds) ∣ q then d :: ds else subDims ds q

def pad (n : ℕ) (vs : List V) : List V := vs ++ List.replicate (n - vs.length) 0

/-- The values of the elements from an offset on, up to the last one that has an initializer. An expression is for the
element at the offset, a brace for the largest part that begins there; `limit` is the number of elements. -/
def cValues : List ℕ → Option ℕ → ℕ → Items V → Option (List V)
  | _, _, _, .nil => some []
  | ds, limit, q, .expr v rest =>
    if ∀ t ∈ limit, q < t then (cValues ds limit (q + 1) rest).map (v :: ·) else none
  | ds, limit, q, .braces sub _ rest =>
    if (∀ t ∈ limit, q < t) ∧ sub.isNil = false then
      (match subDims ds q with
        | [] => sub.scalar
        | e :: es => (cValues es (some (RowMajor.count (e :: es))) 0 sub).map (pad (RowMajor.count (e :: es)))).bind
      fun ws => (cValues ds limit (q + ws.length) rest).map (ws ++ ·)
    else none

/-- The leading dimension of an array, omitted if it is 0, and the values of the elements. -/
def cArray (lead : ℕ) (ds : List ℕ) (items : Items V) : Option (ℕ × List V) :=
  if items.isNil then none
  else if lead = 0 then
    (cValues ds none 0 items).map fun vs =>
      let n := (vs.length + RowMajor.count ds - 1) / RowMajor.count ds
      (n, pad (n * RowMajor.count ds) vs)
  else (cValues ds (some (lead * RowMajor.count ds)) 0 items).map fun vs => (lead, pad (lead * RowMajor.count ds) vs)

/-- Each brace initializes an array. -/
def SubArrays : List ℕ → ℕ → Items V → Prop
  | _, _, .nil => True
  | ds, q, .expr _ rest => SubArrays ds (q + 1) rest
  | ds, q, .braces sub _ rest =>
    match subDims ds q with
    | [] => False
    | e :: es => SubArrays es 0 sub ∧ SubArrays ds (q + RowMajor.count (e :: es)) rest

/-- Every element is assigned once, and its value. -/
structure Assigns (statements : List (List ℕ × V)) (dims : List ℕ) (vs : List V) : Prop where
  once : (statements.map Prod.fst).Nodup
  all : ∀ idx, idx ∈ statements.map Prod.fst ↔ InRange dims idx
  value : ∀ p ∈ statements, vs[offset dims p.1]? = some p.2

/-- An initializer in braces, for an array whose elements have dimensions `ds`. -/
structure Init (V : Type) where
  lead : ℕ
  ds : List ℕ
  items : Items V
  trailing : Bool
  pos : ∀ d ∈ ds, 0 < d

/-- The tokens up to the end of the declarator. -/
def Init.parse (x : Init V) (after : List (Token V)) : Option (Outcome V) :=
  parseVarDeclInitializer (x.lead :: x.ds) ((Items.braces x.items x.trailing .nil).tokens ++ after)

/-- What is accepted gives the elements their values in C, and what C accepts, with braces for arrays, is accepted. -/
def FollowsC (x : Init V) : Prop :=
  ∀ after : List (Token V), after.head? = some .semicolon ∨ after.head? = some .comma →
    (∀ dims statements, x.parse after = some (.accepted dims statements) →
      ∃ n vs, cArray x.lead x.ds x.items = some (n, vs) ∧ dims = n :: x.ds ∧ Assigns statements dims vs) ∧
    ((cArray x.lead x.ds x.items).isSome = true → SubArrays x.ds 0 x.items →
      ∃ dims statements, x.parse after = some (.accepted dims statements))

/-! ## The initializers that are parsed as in C -/

/-- C does not accept the items, or one of their braces is not for an array. -/
def Rejected (ds : List ℕ) (limit : Option ℕ) (q : ℕ) (items : Items V) : Prop :=
  cValues ds limit q items = none ∨ ¬ SubArrays ds q items

/-- The items of a brace, from an offset on, in an array of `t` elements in all, where `ds` are the dimensions of its
sub-arrays. `bOpen`: the leading dimension is omitted. -/
def Regular : List ℕ → ℕ → Bool → ℕ → Items V → Prop
  | ds, _, bOpen, q, .nil => bOpen = true → RowMajor.count ds ∣ q
  | ds, t, bOpen, q, .expr _ rest =>
    q < t ∧ RowMajor.count ds ≤ q + 1 ∧ (bOpen = false ∧ q + 1 = t ∨ Regular ds t bOpen (q + 1) rest)
  | [], _, _, _, .braces sub _ _ => sub.isNil = true
  | e :: es, t, bOpen, q, .braces sub trailing rest =>
    sub.isNil = true ∨
      -- a brace for a scalar, in the middle of a row
      (q / RowMajor.count es % e ≠ 0 ∧ subDims (e :: es) q = []) ∨
      (RowMajor.count (e :: es) ∣ q ∧ q < t ∧ Regular es (RowMajor.count (e :: es)) false 0 sub ∧
        (Rejected es (some (RowMajor.count (e :: es))) 0 sub ∨
          trailing = false ∧ Regular (e :: es) t bOpen (q + RowMajor.count (e :: es)) rest))

namespace Init

/-- An omitted leading dimension has no limit in C. -/
def limit (x : Init V) : Option ℕ := if x.lead = 0 then none else some (x.lead * RowMajor.count x.ds)

/-- No row of the array goes wrong. -/
def Regular (x : Init V) : Prop :=
  VarInit.Regular x.ds ((if x.lead = 0 then 262142 else x.lead) * RowMajor.count x.ds) (decide (x.lead = 0)) 0 x.items ∧
    (Rejected x.ds x.limit 0 x.items ∨ x.trailing = false)

end Init

end OpenHT.Htfe.VarInit
