import OpenHT.Vex.Lex

/-!
# The Verilog parser

The parser reads tokens and keeps the names of modules, signals, instances and ports. What it does with the bits of
signals reads no token; where it prints messages about them, there is a place for messages here.

* `parseSignal`, `parsePortSignal`, `parseConcatSignal`, `parsePortSignalList`: signals.
* `parseModuleInst`: instances.
* `parseSynthesis`, `parseIfdef`, `parseDefparam`: the other statements.
* `parseModule`, `parse`: a module and the file.
-/

namespace OpenHT.Vex.Lex

open Program

variable (exits : CDesign → Bool)

/-! ## Names -/

def CDesign.findModule (s : CDesign) (name : Str) : Option CModule := s.moduleMap.find? fun m => m.name = name

/-- `m_pModule` -/
def CDesign.current (s : CDesign) : Option CModule := s.module.bind s.findModule

/-- A change of `*m_pModule`. -/
def updateModule (f : CModule → CModule) : Parser Unit := modify fun s =>
  { s with moduleMap := s.moduleMap.map fun m => if some m.name = s.module then f m else m }

def signalMapInsert (name : Str) : Parser Unit := do
  parseMsg exits
  updateModule fun m => if name ∈ m.signalMap then m else { m with signalMap := name :: m.signalMap }

def instMapInsert (name : Str) : Parser Unit := do
  parseMsg exits
  updateModule fun m =>
    if name ∈ m.instMap.map CInst.name then m else { m with instMap := ⟨name, []⟩ :: m.instMap }

/-- Whether the name is a new one. -/
def moduleMapInsert (name : Str) : Parser Bool := do
  let s ← get
  if (s.findModule name).isSome then
    parseMsg exits
    return false
  else
    modify fun s => { s with moduleMap := ⟨name, [], [], []⟩ :: s.moduleMap, module := some name }
    return true

/-- A message, and what is left of the statement. -/
def skipStatement : Parser Unit := do
  parseMsg exits
  skipTo exits .semicolon

/-! ## Signals -/

/-- The name in a declaration, which is the token `t`, and its end. -/
def signalName (t : EToken) : Parser Unit := do
  if t ≠ .ident then skipStatement exits
  else
    let s ← get
    signalMapInsert exits s.string
    let t ← getNextToken exits
    if t ≠ .semicolon then skipStatement exits else return ()

def parseSignal : Parser Unit := do
  let t ← getNextToken exits
  if t = .lbrack then
    let t ← getNextToken exits
    if t ≠ .num then skipStatement exits
    else
      parseMsg exits
      let t ← getNextToken exits
      if t ≠ .colon then skipStatement exits
      else
        let t ← getNextToken exits
        if t ≠ .num then skipStatement exits
        else
          parseMsg exits
          let t ← getNextToken exits
          if t ≠ .rbrack then skipStatement exits
          else
            let t ← getNextToken exits
            signalName exits t
  else signalName exits t

/-- A signal that is not declared is a wire. -/
def declareWire (name : Str) : Parser Bool := do
  let s ← get
  match s.current with
  | none => stop
  | some m =>
    if name ∈ m.signalMap then return false
    else
      signalMapInsert exits name
      return false

/-- The end of an index, where the token is `t`. -/
def closeIndex (name : Str) (t : EToken) : Parser Bool := do
  if t ≠ .rbrack then
    skipStatement exits
    return true
  else
    let _ ← getNextToken exits
    declareWire exits name

/-- Whether there is an error. -/
def parsePortSignal : Parser Bool := do
  let s ← get
  let t ← getNextToken exits
  if t = .lbrack then
    let t ← getNextToken exits
    if t ≠ .num then
      skipStatement exits
      return true
    else
      parseMsg exits
      let t ← getNextToken exits
      if t = .colon then
        let t ← getNextToken exits
        if t ≠ .num then
          skipStatement exits
          return true
        else
          parseMsg exits
          let t ← getNextToken exits
          closeIndex exits s.string t
      else closeIndex exits s.string t
  else declareWire exits s.string

/-- What follows a signal in a concatenation. -/
def concatEnd : Parser (Unit ⊕ Bool) := do
  let s ← get
  if s.token ≠ .comma ∧ s.token ≠ .rbrace then
    skipStatement exits
    return .inr false
  else if s.token = .rbrace then return .inr true
  else return .inl ()

/-- A concatenation in a concatenation. -/
def concatInner (concat : Parser Bool) : Parser (Unit ⊕ Bool) := do
  if ← concat then
    let _ ← getNextToken exits
    concatEnd exits
  else return .inr false

def concatRound (concat : Parser Bool) (_ : Unit) : Parser (Unit ⊕ Bool) := do
  let t ← getNextToken exits
  if t = .lbrace then concatInner exits concat
  else if t = .ident then
    if ← parsePortSignal exits then return .inr true else concatEnd exits
  else if t = .num then
    parseMsg exits
    let t ← getNextToken exits
    if t = .lbrace then concatInner exits concat else concatEnd exits
  else
    skipStatement exits
    return .inr false

def concatWith (concat : Parser Bool) : Parser Bool := loop (concatRound exits concat) ()

/-- `ParseConcatSignal`, behind its brace. -/
def parseConcatSignal : Parser Bool
  | 0, _ => none
  | n + 1, s => concatWith exits (fun _ => parseConcatSignal n) n s

/-- An error in the signals of a port. -/
def signalError : Parser Bool := do
  skipStatement exits
  return false

/-- What is done with the bits of the signals. -/
def connect : Parser Bool := do
  parseMsg exits
  return true

/-- `portIdx`: the name of the port that is connected, if any. -/
def parsePortSignalList (moduleName : Str) (portIdx : Option Str) : Parser Bool := do
  let t ← getNextToken exits
  if t = .lbrace then
    if ← parseConcatSignal exits then
      let _ ← getNextToken exits
      connect exits
    else return false
  else if t = .ident then
    if ← parsePortSignal exits then return true else connect exits
  else if t = .num then
    parseMsg exits
    let _ ← getNextToken exits
    connect exits
  else if t = .rparen then
    if moduleName ≠ "CARRY4".toList then signalError exits
    else match portIdx with
      | none => stop
      | some port => if port ≠ "CI".toList then signalError exits else return true
  else signalError exits

/-! ## Instances -/

/-- The port of an instance: the ports that are used, and `portIdx`. -/
def usePort (moduleName instName port : Str) (used : List Str) : Parser (List Str × Option Str) := do
  let s ← get
  match s.findModule moduleName, s.current with
  | some m, some current =>
    if port ∉ m.signalMap ∨ port ∈ used then
      parseMsg exits
      return (used, none)
    else if (current.instMap.find? fun i => i.name = instName).any fun i => (moduleName, port) ∈ i.instPorts then
      parseMsg exits
      return (port :: used, none)
    else
      updateModule fun m => { m with
        instMap := m.instMap.map fun i =>
          if i.name = instName then { i with instPorts := i.instPorts ++ [(moduleName, port)] } else i }
      return (port :: used, some port)
  | _, _ => stop

/-- The end of a list of ports. -/
def instEnd : Parser Unit := do
  parseMsg exits
  let t ← getNextToken exits
  if t ≠ .semicolon then skipStatement exits else return ()

def instError : Parser (List Str ⊕ Unit) := do
  skipStatement exits
  return .inr ()

def instRound (moduleName instName : Str) (used : List Str) : Parser (List Str ⊕ Unit) := do
  let t ← getNextToken exits
  if t ≠ .period then instError exits
  else
    let t ← getNextToken exits
    if t ≠ .ident then instError exits
    else
      let s ← get
      let port ← usePort exits moduleName instName s.string used
      let t ← getNextToken exits
      if t ≠ .lparen then instError exits
      else if ← parsePortSignalList exits moduleName port.2 then
        parseMsg exits
        let t ← getNextToken exits
        if t ≠ .comma ∧ t ≠ .rparen then instError exits
        else if t = .rparen then
          instEnd exits
          return .inr ()
        else return .inl port.1
      else return .inr ()

def parseModuleInst (moduleName : Str) : Parser Unit := do
  let t ← getNextToken exits
  if t ≠ .ident then skipStatement exits
  else
    let s ← get
    instMapInsert exits s.string
    let t ← getNextToken exits
    if t ≠ .lparen then skipStatement exits else loop (instRound exits moduleName s.string) []

/-! ## Other statements -/

/-- An error in a statement, behind which another token is read. -/
def skipStatementNext : Parser Unit := do
  skipStatement exits
  let _ ← getNextToken exits
  return ()

def parseSynthesis : Parser Unit := do
  let t ← getNextToken exits
  let s ← get
  if t ≠ .ident ∨ s.string ≠ "attribute".toList then skipStatementNext exits
  else
    let t ← getNextToken exits
    if t ≠ .ident then skipStatementNext exits
    else
      let t ← getNextToken exits
      if t ≠ .ident then skipStatementNext exits
      else
        let t ← getNextToken exits
        if t ≠ .string then skipStatementNext exits
        else
          let t ← getNextToken exits
          if t ≠ .semicolon then parseMsg exits else return ()

def parseIfdef : Parser Unit := do
  let t ← getNextToken exits
  if t ≠ .ident then
    parseMsg exits
    getLineBuf
    let _ ← getNextToken exits
    return ()
  else
    let s ← get
    getLineBuf
    match s.current with
    | none => stop
    | some m =>
      if m.ifdefName ≠ [] ∧ m.ifdefName ≠ s.string then
        parseMsg exits
        let _ ← getNextToken exits
        return ()
      else
        updateModule fun m => { m with ifdefName := s.string }
        advanceStatementFilePos

def defparamRound (_ : Unit) : Parser (Unit ⊕ Bool) := do
  let t ← getNextToken exits
  if t ≠ .ident then
    skipStatement exits
    return .inr false
  else
    let t ← getNextToken exits
    if t = .equal then return .inr true
    else if t ≠ .period then
      skipStatement exits
      return .inr false
    else return .inl ()

def parseDefparam : Parser Unit := do
  if ← loop (defparamRound exits) () then
    let t ← getNextToken exits
    if t ≠ .string ∧ t ≠ .num then skipStatement exits
    else
      parseMsg exits
      let t ← getNextToken exits
      if t ≠ .semicolon then parseMsg exits else return ()
  else return ()

/-! ## Modules -/

/-- The name of a module: whether the module is skipped. -/
def moduleName : Parser Bool := do
  let t ← getNextToken exits
  let s ← get
  if t ≠ .ident then
    parseMsg exits
    return true
  else if s.string = "glbl".toList then return true
  else
    let new ← moduleMapInsert exits s.string
    return !new

def skipModuleRound (_ : Unit) : Parser (Unit ⊕ Unit) := do
  let t ← getNextToken exits
  let s ← get
  if t ≠ .ident ∨ s.string ≠ "endmodule".toList then return .inl () else return .inr ()

/-- `while (GetNextToken() != tk_ident || GetString() != "endmodule");` -/
def skipModule : Parser Unit := loop (skipModuleRound exits) ()

/-- A port in the list of a module. -/
def portRound (_ : Unit) : Parser (Unit ⊕ Bool) := do
  let t ← getNextToken exits
  if t ≠ .ident then
    skipStatement exits
    return .inr false
  else
    let s ← get
    signalMapInsert exits s.string
    let t ← getNextToken exits
    if t ≠ .comma ∧ t ≠ .rparen then
      skipStatement exits
      return .inr false
    else if t = .rparen then return .inr true
    else return .inl ()

/-- The condition of a loop over statements. -/
def untilEof {α β : Type} (a : α) (b : β) : Parser (β ⊕ α) := do
  let s ← get
  if s.token = .eof then return .inr a else return .inl b

/-- A statement that begins with an identifier. -/
def statement (string : Str) : Parser Unit := do
  if string = "initial".toList then skipTo exits .semicolon
  else if string = "defparam".toList then parseDefparam exits
  else if string = "ifdef".toList then parseIfdef exits
  else if string = "synthesis".toList then parseSynthesis exits
  else skipStatement exits

/-- A statement of a module; `bEndOfSignals` says that declarations are over. -/
def statementRound (bEndOfSignals : Bool) : Parser (Bool ⊕ Unit) := do
  let t ← getNextToken exits
  let s ← get
  if t ≠ .ident then
    skipStatementNext exits
    untilEof () bEndOfSignals
  else if s.string ∈ ["input".toList, "output".toList, "wire".toList] then
    parseMsg exits
    parseSignal exits
    untilEof () bEndOfSignals
  else if s.string ∈ ["initial".toList, "defparam".toList, "ifdef".toList, "synthesis".toList] then
    statement exits s.string
    untilEof () bEndOfSignals
  else match s.findModule s.string with
    | some m =>
      -- `CheckPortDeclarations`
      parseMsg exits
      parseModuleInst exits m.name
      untilEof () true
    | none =>
      if s.string = "endmodule".toList then
        let _ ← getNextToken exits
        modify fun s => { s with module := none }
        return .inr ()
      else
        skipStatement exits
        untilEof () bEndOfSignals

def statements : Parser Unit := loop (statementRound exits) false

def parseModule : Parser Unit := do
  if ← moduleName exits then
    skipModule exits
    let _ ← getNextToken exits
    return ()
  else
    let t ← getNextToken exits
    if t ≠ .lparen then
      skipStatement exits
      statements exits
    else if ← loop (portRound exits) () then
      let t ← getNextToken exits
      if t ≠ .semicolon then
        parseMsg exits
        statements exits
      else statements exits
    else return ()

/-- The keyword of a module. -/
def CDesign.AtModule (s : CDesign) : Prop := s.token = .ident ∧ s.string = "module".toList

instance (s : CDesign) : Decidable s.AtModule := inferInstanceAs (Decidable (_ ∧ _))

def parseRound (_ : Unit) : Parser (Unit ⊕ Unit) := do
  let s ← get
  if s.token = .eof then return .inr ()
  else if s.AtModule then
    parseModule exits
    untilEof () ()
  else
    skipStatementNext exits
    untilEof () ()

def parse : Parser Unit := do
  let _ ← getNextToken exits
  loop (parseRound exits) ()

/-- The constructors: the file is open, and `prims` are the modules of the primitives. -/
def openDesign (file buf : Str) (prims : List CModule) : CDesign :=
  ⟨.openFile file, buf, [], .eof, [], prims, none, 0⟩

/-- The constructor of `CLex` reads the first line. -/
def parseFile : Parser Unit := do
  let _ ← getLine exits
  parse exits

end OpenHT.Vex.Lex
