import OpenHT.Lib.Prog
import OpenHT.Vex.PreProcess

/-!
# The Verilog lexer

`CLex` takes its lines from the preprocessor and puts each into a buffer, which keeps what stood behind the end of the
line before.

* `EToken`, `CDesign`: the tokens that come from a file, and the members that the lexer and the parser work with.
* `getLine`, `getString`, `getNumber`: parts of a token.
* `getNextToken`, `skipTo`: the lexer, which calls itself where it skips a statement.
-/

namespace OpenHT.Vex.Lex

open Program

inductive EToken
  | eof
  | ident
  | num
  | string
  | unknown
  | greaterEqual
  | greater
  | lessEqual
  | lessLess
  | less
  | equalEqual
  | equal
  | bangEqual
  | bang
  | ampersandAmpersand
  | ampersand
  | vbarVbar
  | vbar
  | percent
  | carot
  | asterisk
  | question
  | plus
  | minus
  | lparen
  | rparen
  | lbrack
  | rbrack
  | lbrace
  | rbrace
  | period
  | comma
  | colon
  | semicolon
  | pound
  | tilda
  | slash
deriving DecidableEq

/-- An instance: its name and the ports that it has, each with its module. -/
structure CInst where
  name : Str
  instPorts : List (Str × Str)
deriving DecidableEq

/-- A module: its name, the signals and the instances in it, and the name of its `ifdef`. -/
structure CModule where
  name : Str
  signalMap : List Str
  instMap : List CInst
  ifdefName : Str
deriving DecidableEq

/-- The members of a `CDesign` and of its base classes. The position in a buffer is what follows there, up to the end of
the buffer. -/
structure CDesign where
  pre : CPreProcess
  lineBuf : Str
  /-- `m_pLine` -/
  line : Str
  token : EToken
  string : Str
  moduleMap : List CModule
  /-- The name of `m_pModule`. -/
  module : Option Str
  /-- How many places the program has passed where it prints messages, if it has any to print. -/
  messages : ℕ
deriving DecidableEq

def nul : Char := Char.ofNat 0

/-- The size of `nameBuf`, `numBuf` and `strBuf`. -/
def nameSize : ℕ := 256

/-- A program of the parser. -/
abbrev Parser (α : Type) : Type := Prog CDesign α

/-- `exits` says where the program has printed too many messages and ends. -/
def parseMsg (exits : CDesign → Bool) : Parser Unit := do
  modify fun s => { s with messages := s.messages + 1 }
  let s ← get
  if exits s then stop else return ()

def setLine (line : Str) : Parser Unit := modify fun s => { s with line := line }

def setString (string : Str) : Parser Unit := modify fun s => { s with string := string }

def setToken (token : EToken) : Parser EToken := do
  modify fun s => { s with token := token }
  return token

/-- A line in the buffer, and what it leaves of the one before. -/
def putLine (s : CDesign) (pre : CPreProcess) (text : Str) : CDesign :=
  let lineBuf := text ++ nul :: s.lineBuf.drop (text.length + 1)
  { s with pre := pre, lineBuf := lineBuf, line := lineBuf }

/-- The file is at its end. -/
def atEof (s : CDesign) : CDesign := putLine s { s.pre with fp := [], bRepositionToLineStart := false } []

/-- A round of `GetLine`, which passes over directives. -/
def getLineRound (exits : CDesign → Bool) (_ : Unit) : Parser (Unit ⊕ Bool) := do
  let s ← get
  match Vex.getLine s.pre with
  | .line text pre =>
    modify fun s => putLine s pre text
    parseMsg exits
    if text.head? = some backQuote then return .inl () else return .inr true
  | .eof =>
    modify atEof
    return .inr false
  | .undef => stop
  | .fuel => fun _ _ => none

def getLine (exits : CDesign → Bool) : Parser Bool := loop (getLineRound exits) ()

/-- A run of characters, which has to end in the buffer. -/
def takeWhile (p : Char → Bool) : Parser Str := do
  let s ← get
  if s.line.dropWhile p = [] then stop
  else
    setLine (s.line.dropWhile p)
    return s.line.takeWhile p

/-- A text into a buffer of its own. -/
def copy (text : Str) : Parser Unit := if nameSize ≤ text.length then stop else setString text

def isNameChar (c : Char) : Bool := c.isAlphanum || c == '_' || c == '$'

def getName : Parser Unit := do copy (← takeWhile isNameChar)

/-- How many characters are the sign of a base, and which digits follow it. -/
def numberBase (start line : Str) : ℕ × (Char → Bool) :=
  if line.take 2 = [quote, 'b'] then (2, fun c => c == '0' || c == '1')
  else if line.take 2 = [quote, 'h'] then (2, isXDigit)
  else if line.take 2 = [quote, 'd'] then (2, Char.isDigit)
  else if start.take 2 = ['0', 'x'] then (1, isXDigit)
  else (0, fun _ => false)

def getNumber (exits : CDesign → Bool) : Parser Unit := do
  let start ← get
  let digits ← takeWhile Char.isDigit
  let s ← get
  let base := numberBase start.line s.line
  setLine (s.line.drop base.1)
  let more ← takeWhile base.2
  -- another digit or letter is an error
  parseMsg exits
  copy (digits ++ s.line.take base.1 ++ more)

/-- A round of the loop over a string. A line that ends in a backslash goes on in the next one; at the end of the file
an assertion fails. -/
def getStringRound (exits : CDesign → Bool) (str : Str) : Parser (Str ⊕ Str) := do
  let s ← get
  if s.line.head? = some '"' ∨ s.line.head? = some nul then return .inr str
  else
    let more ← (if s.line.take 2 = ['\\', '\n'] then getLine exits else pure true)
    if more then
      let s ← get
      match s.line with
      | [] => stop
      | c :: line =>
        setLine line
        return .inl (str ++ [c])
    else stop

def getString (exits : CDesign → Bool) : Parser Unit := do
  let s ← get
  setLine s.line.tail
  let str ← loop (getStringRound exits) []
  -- the closing quote may be missing, and the string may be too long
  parseMsg exits
  let s ← get
  setLine s.line.tail
  setString (if 1022 ≤ str.length then [] else str)

/-- A name behind a backslash, which ends with a blank. -/
def getEscaped : Parser Unit := do
  let str ← takeWhile fun c => c != ' ' && c != nul
  let s ← get
  if s.line.head? = some ' ' then
    setLine s.line.tail
    copy (str ++ [' '])
  else stop

/-- A round of the loop over a comment. -/
def skipCommentRound (exits : CDesign → Bool) (_ : Unit) : Parser (Unit ⊕ Bool) := do
  let s ← get
  if s.line.take 2 = ['*', '/'] then
    setLine (s.line.drop 2)
    return .inr true
  else match s.line with
    | [] => stop
    | c :: line =>
      setLine line
      let more ← (if c = nul then getLine exits else pure true)
      if more then return .inl () else return .inr false

def skipComment (exits : CDesign → Bool) : Parser Bool := loop (skipCommentRound exits) ()

/-- A token of two characters, or else of the first of them. -/
def orElse (c : Char) (two one : EToken) (line : Str) : EToken × Str :=
  if line.head? = some c then (two, line.tail) else (one, line)

/-- The operators, by their first character, with the line behind it. -/
def operator (c : Char) (line : Str) : Option (EToken × Str) :=
  match c with
  | '>' => some (orElse '=' .greaterEqual .greater line)
  | '<' =>
    if line.head? = some '=' then some (.lessEqual, line.tail) else some (orElse '<' .lessLess .less line)
  | '=' => some (orElse '=' .equalEqual .equal line)
  | '!' => some (orElse '=' .bangEqual .bang line)
  | '&' => some (orElse '&' .ampersandAmpersand .ampersand line)
  | '|' => some (orElse '|' .vbarVbar .vbar line)
  | '%' => some (.percent, line)
  | '^' => some (.carot, line)
  | '*' => some (.asterisk, line)
  | '?' => some (.question, line)
  | '+' => some (.plus, line)
  | '-' => some (.minus, line)
  | '(' => some (.lparen, line)
  | ')' => some (.rparen, line)
  | '[' => some (.lbrack, line)
  | ']' => some (.rbrack, line)
  | '{' => some (.lbrace, line)
  | '}' => some (.rbrace, line)
  | '.' => some (.period, line)
  | ',' => some (.comma, line)
  | ':' => some (.colon, line)
  | ';' => some (.semicolon, line)
  | '#' => some (.pound, line)
  | '~' => some (.tilda, line)
  | _ => none

def isBlank (c : Char) : Bool := c == ' ' || c == '\t' || c == '\n' || c == '\r'

/-- A round of `SkipTo`, where `lvl` braces are open. -/
def skipToRound (nextToken : Parser EToken) (token : EToken) (lvl : ℕ) : Parser (ℕ ⊕ Unit) := do
  let tk ← nextToken
  if tk = .eof then return .inr ()
  else if token = tk then
    if lvl = 0 then return .inr () else return .inl (lvl - 1)
  else if token = .rbrace ∧ tk = .lbrace then return .inl (lvl + 1)
  else return .inl lvl

def skipToWith (nextToken : Parser EToken) (token : EToken) : Parser Unit := loop (skipToRound nextToken token) 0

/-- A call of `GetLine` between two tokens. -/
def nextLine (exits : CDesign → Bool) : Parser (Unit ⊕ EToken) := do
  if ← getLine exits then return .inl ()
  else
    let token ← setToken .eof
    return .inr token

/-- What `/` is: a comment or a token. -/
def slash (exits : CDesign → Bool) (line : Str) : Parser (Unit ⊕ EToken) := do
  if line.head? = some '/' then nextLine exits
  else if line.head? = some '*' then
    setLine line.tail
    if ← skipComment exits then return .inl ()
    else
      let token ← setToken .eof
      return .inr token
  else
    setLine line
    let token ← setToken .slash
    return .inr token

/-- A token that `get` reads. -/
def found (token : EToken) (get : Parser Unit) : Parser (Unit ⊕ EToken) := do
  get
  let token ← setToken token
  return .inr token

/-- A round of `GetNextToken`, which goes on behind blanks and comments. -/
def tokenRound (exits : CDesign → Bool) (nextToken : Parser EToken) (_ : Unit) : Parser (Unit ⊕ EToken) := do
  let s ← get
  match s.line with
  | [] => stop
  | c :: line =>
    if isBlank c then
      setLine line
      return .inl ()
    else if c = '/' then slash exits line
    else if c = nul then nextLine exits
    else if c = '"' then found .string (getString exits)
    else if c = '\\' then found .ident getEscaped
    else match operator c line with
      | some (token, line) => found token (setLine line)
      | none =>
        if c.isAlpha ∨ c = '_' then found .ident getName
        else if c.isDigit then found .num (getNumber exits)
        else found .unknown do
          setLine line
          parseMsg exits
          skipToWith nextToken .semicolon

def tokenWith (exits : CDesign → Bool) (nextToken : Parser EToken) : Parser EToken :=
  loop (tokenRound exits nextToken) ()

def getNextToken (exits : CDesign → Bool) : Parser EToken
  | 0, _ => none
  | n + 1, s => tokenWith exits (fun _ => getNextToken exits n) n s

def skipTo (exits : CDesign → Bool) (token : EToken) : Parser Unit := skipToWith (getNextToken exits) token

/-- `GetLineBuf`, without the text that it returns. -/
def getLineBuf : Parser Unit := setLine ['\n', nul]

def advanceStatementFilePos : Parser Unit := modify fun s => { s with pre := { s.pre with statement := s.pre.fp } }

end OpenHT.Vex.Lex
