import Mathlib.Data.Nat.Notation

/-!
# Tokens of constant expressions

`CDefineTable` evaluates the constants of a design and `CPreProcess` the conditions of `#if`. Both have
their own `GetNextToken`, the same but for what `Dialect` says; the two preprocessors have one code.

* `EToken`, `BinOp`: the tokens.
* `Lexer`: the token last read, which the recursive calls of the parser share.
* `Run`: how a call ends, with `Run.more` for a call that was given too little fuel.
* `getNextToken`, `getTokenValue`.
-/

namespace OpenHT.Htl

/-- The characters of a C string, without its terminator. -/
abbrev Text := List Char

/-- A `const char *` into a string: what is left of the string, `none` past its terminator. -/
abbrev Pos := Option Text

/-- Whose `GetNextToken` and `ParseExpression`. -/
inductive Dialect
  | defineTable
  | preProcess
deriving DecidableEq, Repr

inductive BinOp
  | plus | minus | slash | asterisk | percent
  | equalEqual | vbar | vbarVbar | carot | ampersand | ampersandAmpersand | bangEqual
  | less | greater | greaterEqual | lessEqual | lessLess | greaterGreater
deriving DecidableEq, Repr

inductive EToken
  | error | exprBegin | exprEnd
  | ident | numInt | numHex
  | unaryPlus | unaryMinus | tilda | bang
  | lParen | rParen | lBrack | rBrack | question | colon
  | bin (o : BinOp)
deriving DecidableEq, Repr

/-- `m_tk`, `m_tkString`, `m_bIsSigned` and the messages of `ParseMsg`, the last one first. -/
structure Lexer where
  tk : EToken
  tkString : Text
  isSigned : Bool
  msgs : List String
deriving DecidableEq, Repr

/-- How a call ends. -/
inductive Run (α : Type)
  | done (a : α)
  /-- `return false` -/
  | fail (lx : Lexer)
  /-- Undefined behaviour, a failed assertion or `ParseMsg(Fatal, ..)`. -/
  | fault
  /-- A call inside itself; no function of the source returns this. -/
  | cycle
  /-- The fuel is used up. -/
  | more
deriving DecidableEq, Repr

namespace Run

variable {α β : Type}

def bind : Run α → (α → Run β) → Run β
  | done a, f => f a
  | fail lx, _ => fail lx
  | fault, _ => fault
  | cycle, _ => cycle
  | more, _ => more

instance : Monad Run where
  pure := done
  bind := Run.bind

@[simp] theorem pure_eq (a : α) : (pure a : Run α) = done a := rfl

@[simp] theorem done_bind (a : α) (f : α → Run β) : (done a >>= f) = f a := rfl

@[simp] theorem fail_bind (lx : Lexer) (f : α → Run β) : (fail lx >>= f) = fail lx := rfl

@[simp] theorem fault_bind (f : α → Run β) : ((fault : Run α) >>= f) = fault := rfl

@[simp] theorem cycle_bind (f : α → Run β) : ((cycle : Run α) >>= f) = cycle := rfl

@[simp] theorem more_bind (f : α → Run β) : ((more : Run α) >>= f) = more := rfl

/-- **A sequence is done when both parts are.** -/
theorem bind_done {x : Run α} {f : α → Run β} {b : β} (h : (x >>= f) = done b) :
    ∃ a, x = done a ∧ f a = done b := by
  cases x with
  | done a => exact ⟨a, rfl, h⟩
  | _ => cases h

/-- `none` is undefined behaviour. -/
def ofOption : Option α → Run α
  | some a => done a
  | none => fault

@[simp] theorem ofOption_some (a : α) : ofOption (some a) = done a := rfl

@[simp] theorem ofOption_none : ofOption (none : Option α) = fault := rfl

theorem ofOption_done {o : Option α} {a : α} (h : ofOption o = done a) : o = some a := by
  cases o with
  | some b => exact congrArg some (Run.done.inj h)
  | none => cases h

end Run

namespace Lexer

/-- A lexer that has read an empty string. -/
def initial : Lexer := ⟨.exprEnd, [], true, []⟩

variable (lx : Lexer)

/-- `ParseMsg(Error, ..)` -/
def parseMsg (msg : String) : Lexer := { lx with msgs := msg :: lx.msgs }

/-- `m_tk = tk` -/
def setTk (tk : EToken) : Lexer := { lx with tk := tk }

end Lexer

def isBlank (c : Char) : Bool := c = ' ' || c = '\t'

/-- `isalnum(c) || c == '_'` -/
def isIdent (c : Char) : Bool := c.isAlphanum || c = '_'

/-- `isxdigit` -/
def isXDigit (c : Char) : Bool :=
  c.isDigit || ('a' ≤ c && c ≤ 'f') || ('A' ≤ c && c ≤ 'F')

/-- `SkipSpace`, which reads at the position. -/
def skipSpace : Pos → Run Text
  | some cs => .done (cs.dropWhile isBlank)
  | none => .fault

def skipTypeSuffix : Text → Bool → Text × Bool
  | 'u' :: cs, _ | 'U' :: cs, _ => skipTypeSuffix cs false
  | 'l' :: cs, s | 'L' :: cs, s => skipTypeSuffix cs s
  | cs, s => (cs, s)

/-- The cases of a character that may start a longer token. -/
def follow (cs : Text) : List (Char × EToken) → EToken → EToken × Pos
  | [], tk => (tk, some cs)
  | (c, tk') :: alts, tk => if cs.head? = some c then (tk', some cs.tail) else follow cs alts tk

/-- The cases of the switch on `*pPos++`, its default aside. -/
def punctuator (d : Dialect) (c : Char) (cs : Text) : Option (EToken × Pos) :=
  match c with
  | '!' => some (follow cs [('=', .bin .bangEqual)] .bang)
  | '|' => some (follow cs [('|', .bin .vbarVbar)] (.bin .vbar))
  | '&' => some (follow cs [('&', .bin .ampersandAmpersand)] (.bin .ampersand))
  | '[' => if d = .defineTable then some (.lBrack, some cs) else none
  | ']' => if d = .defineTable then some (.rBrack, some cs) else none
  | '(' => some (.lParen, some cs)
  | ')' => some (.rParen, some cs)
  | '+' => some (.bin .plus, some cs)
  | '-' => some (.bin .minus, some cs)
  | '/' => some (.bin .slash, some cs)
  | '*' => some (.bin .asterisk, some cs)
  | '%' => some (.bin .percent, some cs)
  | '^' => some (.bin .carot, some cs)
  | '~' => some (.tilda, some cs)
  -- the character after `=` is consumed whatever it is
  | '=' => some (if cs.head? = some '=' then .bin .equalEqual else .error,
      if cs = [] then none else some cs.tail)
  | '<' => some (follow cs [('<', .bin .lessLess), ('=', .bin .lessEqual)] (.bin .less))
  | '>' => some (follow cs [('>', .bin .greaterGreater), ('=', .bin .greaterEqual)] (.bin .greater))
  | '?' => if d = .defineTable then some (.question, some cs) else none
  | ':' => if d = .defineTable then some (.colon, some cs) else none
  | _ => none

/-- A number and what follows it; only `CDefineTable` skips a suffix and keeps the signedness. -/
def numberToken (d : Dialect) (tk : EToken) (text cs : Text) (signed : Bool) (lx : Lexer) :
    EToken × Pos × Lexer :=
  match d with
  | .defineTable =>
    let (cs, signed) := skipTypeSuffix cs signed
    (tk, some cs, { lx with tk := tk, tkString := text, isSigned := signed })
  | .preProcess => (tk, some cs, { lx with tk := tk, tkString := text })

/-- The default of the switch: names, numbers and the characters that start no token. -/
def wordToken (d : Dialect) (c : Char) (cs : Text) (lx : Lexer) : EToken × Pos × Lexer :=
  if c.isAlpha || c = '_' then
    let text := (c :: cs).takeWhile isIdent
    (.ident, some ((c :: cs).dropWhile isIdent), { lx with tk := .ident, tkString := text })
  else if c.isDigit then
    if c = '0' && cs.head? = some 'x' then
      numberToken d .numHex ('0' :: 'x' :: cs.tail.takeWhile isXDigit) (cs.tail.dropWhile isXDigit) false lx
    else
      numberToken d .numInt ((c :: cs).takeWhile Char.isDigit) ((c :: cs).dropWhile Char.isDigit) true lx
  else
    -- neither the position nor `m_tk` changes
    (.error, some (c :: cs), lx.parseMsg "unknown preprocess token type")

/-- The token returned is `m_tk`, except `error`, which is not stored there. -/
def getNextToken (d : Dialect) (pos : Pos) (lx : Lexer) : Run (EToken × Pos × Lexer) := do
  match ← skipSpace pos with
  | [] => return (.exprEnd, none, lx.setTk .exprEnd)
  | c :: cs =>
    match punctuator d c cs with
    | some (.error, pos) => return (.error, pos, lx)
    | some (tk, pos) => return (tk, pos, lx.setTk tk)
    | none => return wordToken d c cs lx

/-- The value of `c` in a hexadecimal number; the `x` of its prefix has none. -/
def hexDigit (c : Char) : Option ℕ :=
  if '0' ≤ c ∧ c ≤ '9' then some (c.toNat - '0'.toNat)
  else if 'A' ≤ c ∧ c ≤ 'F' then some (c.toNat - 'A'.toNat + 10)
  else if 'a' ≤ c ∧ c ≤ 'f' then some (c.toNat - 'a'.toNat + 10)
  else none

/-- The loops of `GetTokenValue`; `none` is "integer too large". -/
def numberValue (radix : ℕ) (digit : Char → Option ℕ) : Text → ℕ → Option ℕ
  | [], value => some value
  | c :: cs, value =>
    if 0xffffffff / radix ≤ value then none
    else numberValue radix digit cs (match digit c with
      | some v => value * radix + v
      | none => value)

/-- The `int` an `unsigned int` is converted to. -/
def toInt (value : ℕ) : Int := if value < 0x80000000 then value else value - 0x100000000

/-- `GetTokenValue`, with the lexer after its message. -/
def getTokenValue (lx : Lexer) : Int × Lexer :=
  let value := if lx.tk = .numInt then numberValue 10 (fun c => some (c.toNat - '0'.toNat)) lx.tkString 0
    else numberValue 16 hexDigit lx.tkString 0
  match value with
  | some v => (toInt v, lx)
  | none => (0, lx.parseMsg "integer too large")

end OpenHT.Htl
