import OpenHT.Htl.HtdLex

/-!
# The parser of HTD files

`loadHtdFile` and the parsers of types, typedefs and records. The parser is a machine that makes one step for
each round of its loops.

* `Parser`: the lexer and the lists the parser keeps.
* `parseType`, `parseTypedef`, `parseRecord`, `parseArrayDimen`.
* `Point`, `State`: the loops the parser is in.
* `Env`, `turn`: one round of a loop. The methods of the design and its modules, and the types, are parameters.
-/

namespace OpenHT.Htl.HtdFile

/-- `m_pParseMethod` -/
inductive ParseMethod
  | moduleMethods | functionMethods | entryMethods | returnMethods | globalMethods | privateMethods
  | stageMethods | sharedMethods | mifRdMethods | mifWrMethods | ihmMethods
deriving DecidableEq, Repr

inductive Pragma
  | atomicInc
  | atomicSet
  | atomicAdd
  | spanningField
deriving DecidableEq, Repr

/-- A call of `AddStructField`: the record it adds to, and the type, which for an unnamed record is that record. -/
structure FieldDecl where
  record : ℕ
  type : String ⊕ (ℕ × Bool)
  name : String
  bitWidth : String
  dimenList : List String
  pragma : Option Pragma
deriving DecidableEq, Repr

/-- What the parser keeps. Records are numbered in the order in which they are made. -/
structure Parser where
  lex : Lex
  parseMethod : Option ParseMethod
  modList : List String
  structNameList : List String
  structFieldList : List String
  /-- `m_typedefList`: the names and what they stand for. -/
  typedefList : List (String × String)
  recordList : List String
  recordCnt : ℕ
  openRecord : ℕ
  fields : List FieldDecl
  /-- The types whose width the user has been warned about. -/
  warned : List String
deriving DecidableEq, Repr

namespace Parser

/-- The start of `loadHtdFile`. -/
def init (lines : List Text) : Parser := ⟨.init lines, none, [], [], [], [], [], 0, 0, [], []⟩

def tk (p : Parser) : EToken := p.lex.tk

def string (p : Parser) : String := p.lex.string

def parseMsg (p : Parser) (msg : String) : Parser := { p with lex := p.lex.parseMsg msg }

def getNextTk (p : Parser) : Except Stop (EToken × Parser) :=
  p.lex.getNextTk.map fun r => (r.1, { p with lex := r.2 })

def next (p : Parser) : Except Stop Parser := p.lex.next.map fun lx => { p with lex := lx }

def skipTo (p : Parser) (tk : EToken) : Except Stop Parser := (p.lex.skipTo tk).map fun lx => { p with lex := lx }

def errorSkip (p : Parser) (msg : String) : Except Stop Parser :=
  (p.lex.errorSkip msg).map fun lx => { p with lex := lx }

end Parser

/-! ## Types -/

/-- `builtinTypes`, with the width and the signedness. -/
def builtinTypes : List (String × Int × Bool) :=
  [("char", 8, true), ("short", 16, true), ("int", 32, true), ("bool", 1, false), ("uint8_t", 8, false),
    ("uint16_t", 16, false), ("uint32_t", 32, false), ("uint64_t", 64, false), ("int8_t", 8, true),
    ("int16_t", 16, true), ("int32_t", 32, true), ("int64_t", 64, true)]

/-- The types that are replaced, because the compiler may choose their width. -/
def dependentTypes : List (String × String) :=
  [("char", "int8_t"), ("short", "int16_t"), ("int", "int32_t"), ("long", "int64_t"), ("long long", "int64_t"),
    ("unsigned char", "uint8_t"), ("unsigned short", "uint16_t"), ("unsigned int", "uint32_t"),
    ("unsigned long", "uint64_t"), ("unsigned long long", "uint64_t")]

/-- What `ParseType` returns; the type is empty after an error. -/
structure ParsedType where
  type : String
  builtinWidth : Int
  signedBuiltin : Bool
deriving DecidableEq, Repr

/-- The local variables of the loop over the words of a type; `failed` for a `return errorStr`. -/
structure TypeScan where
  typeStr : String
  bType : Bool
  bSign : Bool
  builtinWidth : Int
  signedBuiltin : Bool
  failed : Bool
deriving DecidableEq, Repr

namespace TypeScan

def append (s : TypeScan) (name : String) : TypeScan :=
  { s with typeStr := (if s.typeStr = "" then "" else s.typeStr ++ " ") ++ name }

def fail (s : TypeScan) (p : Parser) (msg : String) : Except Stop (Bool × TypeScan × Parser) :=
  (p.errorSkip msg).map fun p => (false, { s with failed := true }, p)

/-- A type of `builtinTypes`. The first three may follow `unsigned`. -/
def builtin (s : TypeScan) (p : Parser) (name : String) (idx : ℕ) (width : Int) (signed : Bool) :
    Except Stop (Bool × TypeScan × Parser) :=
  if s.bType then s.fail p "builtin type specified multiple times"
  else
    let s := { s.append name with bType := true, builtinWidth := width }
    if idx < 3 then p.next.map fun p => (true, s, p)
    else if s.bSign then s.fail p "unexpected type after unsigned"
    else p.next.map fun p => (true, { s with bSign := true, signedBuiltin := signed }, p)

/-- One word of a type: whether the loop goes on, and the variables. -/
def turn (s : TypeScan) (p : Parser) : Except Stop (Bool × TypeScan × Parser) :=
  let name := p.string
  if name = "unsigned" then
    if s.bSign then s.fail p "unsigned specified multiple times"
    else p.next.map fun p => (true, { s.append name with bSign := true, signedBuiltin := false }, p)
  else match builtinTypes.findIdx? (·.1 = name), builtinTypes.lookup name with
    | some idx, some (width, signed) => s.builtin p name idx width signed
    | _, _ =>
      if name = "long" then
        if s.bType then s.fail p "builtin type specified multiple times"
        else do
          let s := { s.append name with bType := true }
          let (tk, p) ← p.getNextTk
          if tk = .ident ∧ p.string = "long" then
            p.next.map fun p => (true, { s with typeStr := s.typeStr ++ " long", builtinWidth := 64 }, p)
          else .ok (true, { s with builtinWidth := 32 }, p)
      else if s.typeStr = "" ∧ !s.bType then
        p.next.map fun p => (false, { s with bType := true, typeStr := name }, p)
      else .ok (false, s, p)

/-- The loop, for at most as many words as there can be. -/
def loop : ℕ → TypeScan → Parser → Except Stop (TypeScan × Parser)
  | 0, s, p => .ok (s, p)
  | n + 1, s, p =>
    if p.tk = .ident then do
      let (go, s, p) ← s.turn p
      if go then loop n s p else .ok (s, p)
    else .ok (s, p)

end TypeScan

/-- The text of a template argument, what is left from `>` on, and the open parentheses. -/
def templateArg : Int → Text → Text × Text × Int
  | n, [] => ([], [], n)
  | n, c :: cs =>
    if n ≤ 0 ∧ c = '>' then ([], c :: cs, n)
    else
      let r := templateArg (if c = '(' then n + 1 else if c = ')' then n - 1 else n) cs
      (c :: r.1, r.2)

/-- The width in `ht_uint<n>` and `ht_int<n>`: `strtol`, converted to `int`. -/
def htWidthOk (digits : Text) : Bool :=
  let width := min (digits.foldl (fun v c => v * 10 + (c.toNat - '0'.toNat)) 0) 9223372036854775807 % 4294967296
  digits.all Char.isDigit && 1 ≤ width && width ≤ 64

namespace Parser

def typeError (p : Parser) (t : ParsedType) (msg : String) : Except Stop (ParsedType × Parser) :=
  (p.errorSkip msg).map fun p => ({ t with type := "" }, p)

/-- `sc_uint` and the like, with their template argument, which is copied to a buffer of 256 characters. -/
def parseTemplate (p : Parser) (name : String) (t : ParsedType) : Except Stop (ParsedType × Parser) := do
  let (tk, p) ← p.getNextTk
  if tk ≠ .less then p.typeError t "expected template argument '< >'"
  else
    let r := templateArg 0 p.lex.line
    if 256 ≤ r.1.length then .error .undef
    else if r.2.2 ≠ 0 then p.typeError t "template argument has unbalanced parenthesis"
    else match r.2.1 with
      | '>' :: rest =>
        let p := { p with lex := { p.lex with line := rest } }
        p.next.map fun p => ({ t with type := name ++ "<" ++ String.ofList r.1 ++ ">" }, p)
      | _ => p.typeError t "expected template argument '< >'"

/-- `ht_uint<n>` and `ht_int<n>` -/
def parseHtType (p : Parser) (name pre : String) (t : ParsedType) : Except Stop (ParsedType × Parser) :=
  if htWidthOk (name.toList.drop pre.length) then p.next.map fun p => ({ t with type := name }, p)
  else p.typeError t ("expected " ++ pre ++ "<1-64>")

/-- The types of C, and names that are declared nowhere. -/
def parseBuiltin (p : Parser) : Except Stop (ParsedType × Parser) := do
  let (s, p) ← TypeScan.loop (p.lex.size + 1) ⟨"", false, false, -1, true, false⟩ p
  let t := ⟨s.typeStr, s.builtinWidth, s.signedBuiltin⟩
  if s.failed then .ok ({ t with type := "" }, p)
  else if s.typeStr = "" ∨ !s.bType then
    p.typeError t "expected builtin type, typedef name or struct/union name"
  else match dependentTypes.lookup s.typeStr with
    | none => .ok (t, p)
    | some type =>
      let msg := "found type with compiler dependent width, replaced " ++ type ++ " for all occurances of " ++ s.typeStr
      let p := if s.typeStr ∈ p.warned then p else { p.parseMsg msg with warned := s.typeStr :: p.warned }
      .ok ({ t with type := type }, p)

/-- `ParseType` -/
def parseType (p : Parser) : Except Stop (ParsedType × Parser) :=
  let t : ParsedType := ⟨"", -1, false⟩
  let msg := "expected builtin type, typedef name or struct/union name"
  let name := p.string
  if p.tk ≠ .ident then p.typeError t msg
  else if name = "struct" ∨ name = "union" then do
    let (tk, p) ← p.getNextTk
    if tk ≠ .ident then p.typeError t msg
    else p.next.map fun p' => ({ t with type := p.string }, p')
  else if name = "void" ∨ name ∈ p.typedefList.map Prod.fst ∨ name ∈ p.recordList then
    p.next.map fun p => ({ t with type := name }, p)
  else if name ∈ ["sc_uint", "sc_int", "sc_biguint", "sc_bigint"] then p.parseTemplate name t
  else if "ht_uint".toList.isPrefixOf name.toList then p.parseHtType name "ht_uint" t
  else if "ht_int".toList.isPrefixOf name.toList then p.parseHtType name "ht_int" t
  else p.parseBuiltin

/-- `ParseTypedef` -/
def parseTypedef (p : Parser) : Except Stop Parser := do
  let p ← p.next
  let (t, p) ← p.parseType
  if t.type = "" then .ok p
  else if p.tk ≠ .ident then p.errorSkip "expected identifier"
  else
    let p := { p with typedefList := p.typedefList ++ [(p.string, t.type)] }
    let (tk, p) ← p.getNextTk
    if tk ≠ .semi then p.errorSkip "syntax error, expected ';'" else p.next

/-- `ParseRecord`, up to the call of `ParseFieldList` if it gets there. -/
def parseRecord (p : Parser) : Except Stop (Bool × Parser) := do
  let (tk, p) ← p.getNextTk
  if tk ≠ .ident then (p.errorSkip "expected struct/union name").map fun p => (false, p)
  else
    let structName := p.string
    if structName ∈ p.structNameList then
      (p.errorSkip ("duplicate struct/union name '" ++ structName ++ "'")).map fun p => (false, p)
    else
      let (tk, p) ← p.getNextTk
      if tk = .semi then p.next.map fun p => (false, p)
      else if p.tk ≠ .lBrace then (p.errorSkip "expected '\x7b'").map fun p => (false, p)
      else
        p.next.map fun p =>
          (true, { p with
            structNameList := p.structNameList ++ [structName]
            recordList := p.recordList ++ [structName]
            openRecord := p.recordCnt
            recordCnt := p.recordCnt + 1
            structFieldList := [] })

/-- `ParseArrayDimen`: at `[`, which is left behind when `]` is on the line. -/
def parseArrayDimen (p : Parser) : Except Stop (String × Parser) :=
  let dimen := p.lex.line.takeWhile (· != ']')
  if ']' ∉ p.lex.line then .ok ("1", p.parseMsg "expected [integer expr]")
  else do
    let p := { p with lex := { p.lex with line := p.lex.line.drop dimen.length } }
    let p ← p.next
    p.next.map fun p => (String.ofList dimen, p)

end Parser

/-! ## The loops -/

/-- The local variables of the loop over the members of one type. -/
structure Member where
  type : String
  builtinWidth : Int
  pragma : Option Pragma
deriving DecidableEq, Repr

/-- A member whose dimensions are being read. -/
structure Declarator extends Member where
  name : String
  dimenList : List String
deriving DecidableEq, Repr

/-- The loop the parser is at the head of. -/
inductive Point
  /-- `LexOpen` -/
  | lexOpen
  /-- `while (m_pLex->GetTk() != eTkEof)` in `loadHtdFile` -/
  | load
  /-- The loop of `ParseFieldList`. -/
  | fields
  /-- The loop over the members of one type. -/
  | members (m : Member)
  /-- `while (m_pLex->GetTk() == eTkLBrack)` -/
  | dimens (d : Declarator)
  /-- The typedefs behind a type, in `FindType`. -/
  | findType (d : Declarator) (bitWidth : String) (typeName : String)
deriving DecidableEq, Repr

/-- `saved` has the open records of the calls of `ParseFieldList` that wait for this one. -/
structure State where
  point : Point
  saved : List ℕ
  parser : Parser
deriving DecidableEq, Repr

/-- What `FindType` returns. -/
inductive FoundType
  | int
  | record (bUnion : Bool)
deriving DecidableEq, Repr

/-- The code below: the methods of the design (`none`) and of its modules, which only read on, and the types that
there are, by their name and by what it stands for. -/
structure Env where
  methods : Option ParseMethod → Parser → Except Stop Parser
  findType : Parser → String → String → Option FoundType
  methods_le : ∀ m p p', methods m p = .ok p' → p'.lex.size ≤ p.lex.size

namespace Parser

def skipToSemi (p : Parser) : Except Stop Parser :=
  if p.tk ≠ .semi then (p.parseMsg "expected ';'").skipTo .semi else .ok p

/-- The `;` behind a statement, a member or a record. -/
def endSemi (p : Parser) : Except Stop Parser := do
  let p ← p.skipToSemi
  p.next

/-- `#pragma htl ..` before a field: `none` after an error. -/
def fieldPragma (p : Parser) : Except Stop (Option (Option Pragma) × Parser) :=
  let bad (p : Parser) : Except Stop (Option (Option Pragma) × Parser) :=
    (p.errorSkip "expected #pragma htl \x7batomic_inc | atomic_set | atomic_add | spanning_field\x7d").map fun p => (none, p)
  if p.tk ≠ .pound then .ok (some none, p)
  else do
    let (tk, p) ← p.getNextTk
    if tk ≠ .ident ∨ p.string ≠ "pragma" then .ok (some none, p)
    else
      let (tk, p) ← p.getNextTk
      if tk ≠ .ident ∨ p.string ≠ "htl" then bad p
      else
        let (tk, p) ← p.getNextTk
        match if tk = .ident then [("atomic_inc", Pragma.atomicInc), ("atomic_set", .atomicSet),
            ("atomic_add", .atomicAdd), ("spanning_field", .spanningField)].lookup p.string else none with
        | none => bad p
        | some pragma =>
          let (tk, p) ← p.getNextTk
          if tk ≠ .pound then bad p else p.next.map fun p => (some (some pragma), p)

/-- `ParseFieldList` has returned: its caller goes on, and returns too if `}` is next. -/
def leave (p : Parser) : List ℕ → Except Stop State
  | [] => .ok ⟨.load, [], p⟩
  | r :: saved =>
    let p := { p with openRecord := r }
    if p.tk = .rBrace then do
      let p ← p.next
      let p ← p.endSemi
      p.leave saved
    else .ok ⟨.fields, saved, p⟩

/-- The end of the loop of `ParseFieldList`. -/
def endFields (p : Parser) (saved : List ℕ) : Except Stop State := do
  let p ← p.endSemi
  p.leave saved

/-- The end of a round of `ParseFieldList`. -/
def endField (p : Parser) (saved : List ℕ) : Except Stop State :=
  if p.tk = .rBrace then do
    let p ← p.next
    p.endFields saved
  else .ok ⟨.fields, saved, p⟩

/-- The end of a member: the next one, or the end of the declaration. -/
def endMember (p : Parser) (m : Member) (saved : List ℕ) : Except Stop State :=
  if p.tk = .comma then p.next.map fun p => ⟨.members m, saved, p⟩
  else do
    let p ← p.endSemi
    p.endField saved

/-- An unnamed record: `ParseFieldList` is called for it. -/
def anonymous (p : Parser) (bUnion : Bool) (pragma : Option Pragma) (saved : List ℕ) : Except Stop State := do
  let p := if pragma = some .atomicInc ∨ pragma = some .atomicSet then
    p.parseMsg "unexpected pragma on struct / union" else p
  let p ← p.next
  let field : FieldDecl := ⟨p.openRecord, .inr (p.recordCnt, bUnion), "", "", [], none⟩
  let p := if pragma = some .spanningField then
    p.parseMsg "spanning_field pragma is invalid on anonymous struct/union members" else p
  return ⟨.fields, p.openRecord :: saved, { p with
    fields := p.fields ++ [field], openRecord := p.recordCnt, recordCnt := p.recordCnt + 1 }⟩

/-- `struct` or `union` before a type or `{`. -/
def recordWord (p : Parser) : Except Stop Parser :=
  if p.string = "struct" ∨ p.string = "union" then p.next else .ok p

/-- One round of `ParseFieldList`, up to the loop over the members. -/
def fieldsTurn (p : Parser) (saved : List ℕ) : Except Stop State :=
  let retry (p : Parser) (msg : String) : Except Stop State :=
    (p.errorSkip msg).map fun p => ⟨.fields, saved, p⟩
  if p.tk = .eof then p.endFields saved
  else do
    let (ok, p) ← p.fieldPragma
    match ok with
    | none => .ok ⟨.fields, saved, p⟩
    | some pragma =>
      if p.tk ≠ .ident then retry p "expected builtin type, typedef name or struct/union name"
      else
        let bStruct := p.string = "struct"
        let bUnion := p.string = "union"
        let p ← p.recordWord
        if p.tk = .lBrace then
          if ¬bUnion ∧ ¬bStruct then retry p "unexpected '\x7b' within struct/union definition"
          else p.anonymous bUnion pragma saved
        else if p.tk ≠ .ident then retry p "expected type name"
        else
          let p := if (bUnion ∨ bStruct) ∧ p.string ∉ p.structNameList then
            p.parseMsg "expected type name to be a struct or union" else p
          let (t, p) ← p.parseType
          return ⟨.members ⟨t.type, t.builtinWidth, pragma⟩, saved, p⟩

/-- The name of a member. After an error `ParseFieldList` returns. -/
def membersTurn (p : Parser) (m : Member) (saved : List ℕ) : Except Stop State :=
  if p.tk ≠ .ident then do
    let p ← p.errorSkip "expected member name"
    p.leave saved
  else p.next.map fun p' => ⟨.dimens { m with name := p.string, dimenList := [] }, saved, p'⟩

/-- The bit width behind `:`. -/
def bitWidth (p : Parser) (d : Declarator) : Except Stop (String × Parser) :=
  if d.dimenList ≠ [] ∨ p.tk ≠ .colon then .ok ("", p)
  else if d.builtinWidth < 0 then do
    let p ← (p.parseMsg ("bit field width not allowed with type '" ++ d.type ++ "'")).skipTo .semi
    p.next.map fun p => ("", p)
  else do
    let (bitWidth, lx) ← p.lex.getExprStr ';'
    ({ p with lex := lx } : Parser).next.map fun p => (bitWidth, p)

/-- One dimension of a member, or its bit width and its type. -/
def dimensTurn (p : Parser) (d : Declarator) (saved : List ℕ) : Except Stop State :=
  if p.tk = .lBrack then
    p.parseArrayDimen.map fun r => ⟨.dimens { d with dimenList := d.dimenList ++ [r.1] }, saved, r.2⟩
  else do
    let (bitWidth, p) ← p.bitWidth d
    if d.name ≠ "" ∧ d.name ∈ p.structFieldList then
      (p.parseMsg ("duplicate struct/union field name '" ++ d.name ++ "'")).endMember d.toMember saved
    else
      return ⟨.findType d bitWidth d.type, saved, { p with structFieldList := p.structFieldList ++ [d.name] }⟩

/-- One typedef behind a type. Without more of them the type is found or not; if not, a null pointer is used. -/
def findTypeTurn (env : Env) (p : Parser) (d : Declarator) (bitWidth typeName : String) (saved : List ℕ) :
    Except Stop State :=
  match p.typedefList.lookup typeName with
  | some type => .ok ⟨.findType d bitWidth type, saved, p⟩
  | none =>
    match env.findType p d.type typeName with
    | none => .error .undef
    | some found =>
      let p := if d.pragma = some .spanningField ∧ found = .record true then
          p.parseMsg "spanning_field pragma is invalid on unions themselves"
        else if d.pragma = some .spanningField ∧ found = .record false then
          p.parseMsg "spanning_field pragma is invalid on structs themselves"
        else p
      let field : FieldDecl := ⟨p.openRecord, .inl d.type, d.name, bitWidth, d.dimenList, d.pragma⟩
      ({ p with fields := p.fields ++ [field] }).endMember d.toMember saved

/-- A statement of the design or a module, from its `.` on. -/
def statement (env : Env) (p : Parser) : Except Stop Parser :=
  if p.tk = .semi then
    (if p.parseMethod.isSome then { p with parseMethod := none } else p.parseMsg "Unexpected ';'").next
  else if p.tk ≠ .period then
    ({ p with parseMethod := none }).errorSkip "Expected a '.'"
  else do
    let (tk, p) ← p.getNextTk
    if tk ≠ .ident then ({ p with parseMethod := none }).errorSkip "Expected design or module method"
    else
      let p ← env.methods p.parseMethod p
      if p.parseMethod.isSome then
        if p.tk = .semi then ({ p with parseMethod := none }).next else .ok p
      else p.endSemi

/-- One round of `loadHtdFile`. -/
def loadTurn (env : Env) (p : Parser) : Except Stop State :=
  let load (p : Except Stop Parser) : Except Stop State := p.map fun p => ⟨.load, [], p⟩
  let name := p.string
  if p.tk = .eof then .error .eof
  else if p.parseMethod.isSome then load (p.statement env)
  else if p.tk ≠ .ident then load (p.errorSkip "Expected either dsnInfo or a module name")
  else if name = "typedef" then load p.parseTypedef
  else if name = "struct" ∨ name = "class" ∨ name = "union" then
    p.parseRecord.map fun r => ⟨if r.1 then .fields else .load, [], r.2⟩
  else do
    let p ← p.next
    if name = "dsnInfo" then load (p.statement env)
    else if name ∈ p.modList then load (({ p with parseMethod := some .moduleMethods }).statement env)
    else load (p.errorSkip ("Unknown module name   " ++ p.string))

end Parser

/-- One round of the loop the parser is in. -/
def turn (env : Env) (s : State) : Except Stop State :=
  match s.point with
  | .lexOpen => s.parser.next.map fun p => ⟨.load, [], p⟩
  | .load => s.parser.loadTurn env
  | .fields => s.parser.fieldsTurn s.saved
  | .members m => s.parser.membersTurn m s.saved
  | .dimens d => s.parser.dimensTurn d s.saved
  | .findType d bitWidth typeName => s.parser.findTypeTurn env d bitWidth typeName s.saved

/-- `loadHtdFile` on a file with these lines. -/
def start (lines : List Text) : State := ⟨.lexOpen, [], .init lines⟩

end OpenHT.Htl.HtdFile
