import Mathlib.Algebra.Group.Nat.Defs
import OpenHT.Htl.Token

/-!
# `ParseExpression`

The operator-precedence parser of `CDefineTable` and of the two preprocessors. It keeps an operand and
an operator stack and calls itself for parentheses, for the body of a macro and between `?` and `:`.

* `BinOp.apply`: the operators on `int`.
* `evaluateExpression`: reduce the stacks before an operator is pushed.
* `parseLoop`: the loop of `ParseExpression`, whose calls take their fuel from it.
* `CDefineTable.findStringValue`, `CPreProcess.parseExpression`: the callers.
-/

namespace OpenHT.Htl

/-- The values of `int`. -/
def isInt (v : Int) : Bool := -0x80000000 ≤ v && v ≤ 0x7fffffff

/-- An arithmetic result, which is undefined when it is no `int`. -/
def checked (v : Int) : Option Int := if isInt v then some v else none

def ofBool (b : Bool) : Int := if b then 1 else 0

/-- The bits of an `int`. -/
def bits (v : Int) : BitVec 32 := BitVec.ofInt 32 v

/-- A binary operator on `int`, `none` where C++ leaves the result undefined. -/
def BinOp.apply : BinOp → Int → Int → Option Int
  | .plus, a, b => checked (a + b)
  | .minus, a, b => checked (a - b)
  | .asterisk, a, b => checked (a * b)
  | .slash, a, b => if b = 0 then none else checked (a.tdiv b)
  | .percent, a, b => if b = 0 || !isInt (a.tdiv b) then none else some (a.tmod b)
  | .lessLess, a, b => if a < 0 || b < 0 || 32 ≤ b then none else checked (a * (2 ^ b.toNat : ℕ))
  | .greaterGreater, a, b => if b < 0 || 32 ≤ b then none else some (a / (2 ^ b.toNat : ℕ))
  | .vbar, a, b => some (bits a ||| bits b).toInt
  | .carot, a, b => some (bits a ^^^ bits b).toInt
  | .ampersand, a, b => some (bits a &&& bits b).toInt
  | .vbarVbar, a, b => some (ofBool (a ≠ 0 || b ≠ 0))
  | .ampersandAmpersand, a, b => some (ofBool (a ≠ 0 && b ≠ 0))
  | .equalEqual, a, b => some (ofBool (a = b))
  | .bangEqual, a, b => some (ofBool (a ≠ b))
  | .less, a, b => some (ofBool (a < b))
  | .greater, a, b => some (ofBool (b < a))
  | .greaterEqual, a, b => some (ofBool (b ≤ a))
  | .lessEqual, a, b => some (ofBool (a ≤ b))

def BinOp.prec : BinOp → ℕ
  | .asterisk | .slash | .percent => 4
  | .plus | .minus => 5
  | .lessLess | .greaterGreater => 6
  | .less | .lessEqual | .greater | .greaterEqual => 7
  | .equalEqual | .bangEqual => 8
  | .ampersand => 9
  | .carot => 10
  | .vbar => 11
  | .ampersandAmpersand => 12
  | .vbarVbar => 13

/-- `GetTokenPrec`; a smaller number binds tighter. -/
def getTokenPrec : EToken → ℕ
  | .unaryPlus | .unaryMinus | .tilda | .bang => 3
  | .bin o => o.prec
  | .question => 14
  | .exprBegin => 17
  | .exprEnd => 18
  | _ => 0

/-- `CLex::IsTokenAssocLR` -/
def isTokenAssocLR (tk : EToken) : Bool :=
  getTokenPrec tk ≠ 3 && getTokenPrec tk ≠ 14 && getTokenPrec tk ≠ 15

/-- Whether `tk` reduces `stackTk`. The preprocessor leaves operators of its own precedence on the stack. -/
def Dialect.reduces (d : Dialect) (tk stackTk : EToken) : Bool :=
  getTokenPrec stackTk < getTokenPrec tk ||
    d = .defineTable && getTokenPrec tk = getTokenPrec stackTk && isTokenAssocLR tk

/-- Pop the operands of `stackTk` and push the result; the last operand is the head. -/
def applyTop : EToken → List Int → Option (List Int)
  | .unaryPlus, op1 :: vs => some (op1 :: vs)
  | .unaryMinus, op1 :: vs => (checked (-op1)).map (· :: vs)
  | .tilda, op1 :: vs => some ((-op1 - 1) :: vs)
  | .bang, op1 :: vs => some (ofBool (op1 = 0) :: vs)
  | .question, op3 :: op2 :: op1 :: vs => some ((if op1 = 0 then op3 else op2) :: vs)
  | .bin o, op2 :: op1 :: vs => (o.apply op1 op2).map (· :: vs)
  | _, _ => none

/-- `EvaluateExpression`, on the operand and the operator stack with their last entries first. -/
def evaluateExpression (d : Dialect) (tk : EToken) : List Int → List EToken → Option (List Int × List EToken)
  | _, [] => none
  | vs, stackTk :: ops =>
    if d.reduces tk stackTk then
      if stackTk = .exprBegin then
        -- the assertion on the sizes of the stacks
        if vs.length = 1 ∧ ops = [] then some (vs, ops) else none
      else do evaluateExpression d tk (← applyTop stackTk vs) ops
    else some (vs, tk :: stackTk :: ops)

/-- What a call that is done leaves: `rtnValue`, `bRtnIsSigned`, `pPos` and the lexer. -/
structure Parsed where
  value : Int
  isSigned : Bool
  pos : Pos
  lx : Lexer
deriving DecidableEq, Repr

/-- The names of a table with the text they stand for, in the order of the search. -/
abbrev Table := List (Text × Text)

/-- `FindStringInTable` and `m_macroTbl.Find` -/
def Table.find (table : Table) (name : Text) : Option Text := table.lookup name

/-- The calls a turn of the loop can make. -/
structure Calls where
  /-- The body of the macro with this name. -/
  body : Text → Pos → Lexer → Run Parsed
  /-- The expression after `(`, with what `GetNextToken` returned for its first token. -/
  nested : EToken → Pos → Lexer → Run Parsed
  /-- The expression after `?`. -/
  middle : Pos → Lexer → Run Parsed
  /-- The next turn. -/
  loop : List Int → List EToken → Bool → Pos → Lexer → Run Parsed

/-- A token that must be `tk`. -/
def expect (d : Dialect) (tk : EToken) (msg : String) (pos : Pos) (lx : Lexer) : Run (Pos × Lexer) := do
  let (tk', pos, lx) ← getNextToken d pos lx
  if tk' = tk then return (pos, lx) else .fail (lx.parseMsg msg)

/-- `defined(X)` after its first word. -/
def definedOperand (table : Table) (pos : Pos) (lx : Lexer) : Run Parsed := do
  let (pos, lx) ← expect .preProcess .lParen "expected '('" pos lx
  let (pos, lx) ← expect .preProcess .ident "expected an identifier" pos lx
  let (pos, lx) ← expect .preProcess .rParen "expected a ')'" pos lx
  return ⟨ofBool (table.find lx.tkString).isSome, true, pos, lx⟩

/-- The text of `defined`. -/
def definedName : Text := ['d', 'e', 'f', 'i', 'n', 'e', 'd']

/-- The text of a macro: its first token, then the expression. -/
def macroCall (d : Dialect) (call : Pos → Lexer → Run Parsed) (text : Text) (lx : Lexer) : Run Parsed := do
  let (_, pos, lx) ← getNextToken d (some text) lx
  call pos lx

section

variable (d : Dialect) (table : Table) (calls : Calls)

/-- An identifier as an operand. -/
def identOperand (pos : Pos) (lx : Lexer) : Run Parsed :=
  if d = .preProcess ∧ lx.tkString = definedName then definedOperand table pos lx
  else
    match table.find lx.tkString, d with
    | some text, _ => do
      let p ← macroCall d (calls.body lx.tkString) text lx
      return { p with pos := pos }
    | none, .preProcess => .done ⟨0, true, pos, lx⟩
    | none, .defineTable => .fail (lx.parseMsg (String.ofList lx.tkString ++ " is undefined"))

/-- An operand in parentheses. -/
def parenOperand (pos : Pos) (lx : Lexer) : Run Parsed := do
  let (tk, pos, lx) ← getNextToken d pos lx
  let p ← calls.nested tk pos lx
  if p.lx.tk = .rParen then return p else .fail (p.lx.parseMsg "expected ')'")

/-- An operand without its `!`. -/
def operand (pos : Pos) (lx : Lexer) : Run Parsed :=
  match lx.tk with
  | .numInt | .numHex => .done ⟨(getTokenValue lx).1, lx.isSigned, pos, (getTokenValue lx).2⟩
  | .ident => identOperand d table calls pos lx
  | .lParen => parenOperand d calls pos lx
  | _ => .fail (lx.parseMsg "expected an operand")

/-- A `!` before an operand, which goes on the operator stack. -/
def prefixBang (vs : List Int) (ops : List EToken) (pos : Pos) (lx : Lexer) :
    Run (List Int × List EToken × Pos × Lexer) :=
  if lx.tk = .bang then do
    let (vs, ops) ← .ofOption (evaluateExpression d .bang vs ops)
    let (tk, pos, lx) ← getNextToken d pos lx
    if tk = .error then .fail lx else return (vs, ops, pos, lx)
  else .done (vs, ops, pos, lx)

/-- The tokens that end an expression. -/
def Dialect.ends : Dialect → EToken → Bool
  | _, .exprEnd | _, .rParen => true
  | .defineTable, .rBrack | .defineTable, .colon => true
  | _, _ => false

/-- The end of an expression: the assertions leave one operand. -/
def finish (vs : List Int) (ops : List EToken) (isSigned : Bool) (pos : Pos) (lx : Lexer) : Run Parsed :=
  match evaluateExpression d .exprEnd vs ops with
  | some ([v], []) => .done ⟨v, isSigned, pos, lx⟩
  | _ => .fault

/-- A binary operator and the next turn of the loop. -/
def binaryOperator (o : BinOp) (vs : List Int) (ops : List EToken) (isSigned : Bool) (pos : Pos)
    (lx : Lexer) : Run Parsed := do
  let (vs, ops) ← .ofOption (evaluateExpression d (.bin o) vs ops)
  let (_, pos, lx) ← getNextToken d pos lx
  calls.loop vs ops isSigned pos lx

/-- `?`, the expression up to `:` and the next turn of the loop. -/
def questionOperator (vs : List Int) (ops : List EToken) (isSigned : Bool) (pos : Pos) (lx : Lexer) :
    Run Parsed := do
  let (vs, ops) ← .ofOption (evaluateExpression d .question vs ops)
  let (_, pos, lx) ← getNextToken d pos lx
  let p ← calls.middle pos lx
  if p.lx.tk = .colon then
    let (_, pos, lx) ← getNextToken d p.pos p.lx
    calls.loop (p.value :: vs) ops (isSigned && p.isSigned) pos lx
  else .fail (p.lx.parseMsg "expected a ':'")

/-- After an operand: the end of the expression, or an operator and the rest of the loop. -/
def operator (vs : List Int) (ops : List EToken) (isSigned : Bool) (pos : Pos) (lx : Lexer) :
    Run Parsed := do
  let (tk, pos, lx) ← getNextToken d pos lx
  if d.ends tk then finish d vs ops isSigned pos lx
  else
    match tk, d with
    | .bin o, _ => binaryOperator d calls o vs ops isSigned pos lx
    | .question, .defineTable => questionOperator d calls vs ops isSigned pos lx
    | _, _ => .fail (lx.parseMsg "Unknown operator type")

/-- One turn of the loop. -/
def loopBody (vs : List Int) (ops : List EToken) (isSigned : Bool) (pos : Pos) (lx : Lexer) : Run Parsed :=
  if lx.tk = .error then .fail lx
  else do
    let (vs, ops, pos, lx) ← prefixBang d vs ops pos lx
    let p ← operand d table calls pos lx
    operator d calls (p.value :: vs) ops (isSigned && p.isSigned) p.pos p.lx

end

/-- The start of `ParseExpression`, before its loop. -/
def startExpr (loop : List Int → List EToken → Bool → Pos → Lexer → Run Parsed) (pos : Pos) (lx : Lexer) :
    Run Parsed := do
  let cs ← skipSpace pos
  loop [] [.exprBegin] true (some cs) lx

/-- The calls of a loop: for all but the next turn it is started afresh. -/
def Calls.ofLoop (loop : List Int → List EToken → Bool → Pos → Lexer → Run Parsed) : Calls where
  body _ := startExpr loop
  nested _ := startExpr loop
  middle := startExpr loop
  loop := loop

/-- The loop of `ParseExpression`. -/
def parseLoop (d : Dialect) (table : Table) :
    ℕ → List Int → List EToken → Bool → Pos → Lexer → Run Parsed
  | 0, _, _, _, _, _ => .more
  | n + 1, vs, ops, isSigned, pos, lx =>
    loopBody d table (.ofLoop (parseLoop d table n)) vs ops isSigned pos lx

/-- `ParseExpression` -/
def parseExpression (d : Dialect) (table : Table) (n : ℕ) : Pos → Lexer → Run Parsed :=
  startExpr (parseLoop d table n)

/-- The first token and the expression after it. -/
def evaluate (d : Dialect) (table : Table) (n : ℕ) (pos : Pos) (lx : Lexer) : Run Parsed := do
  let (_, pos, lx) ← getNextToken d pos lx
  parseExpression d table n pos lx

/-- `CDefineTable::FindStringValue` -/
def CDefineTable.findStringValue (table : Table) (n : ℕ) : Pos → Lexer → Run Parsed :=
  evaluate .defineTable table n

/-- `CPreProcess::ParseExpression` -/
def CPreProcess.parseExpression (table : Table) (n : ℕ) : Pos → Lexer → Run Parsed :=
  Htl.parseExpression .preProcess table n

/-- `CPreProcess::PreProcessIf`: whether the lines after the directive are skipped. -/
def CPreProcess.preProcessIf (table : Table) (n : ℕ) (pos : Pos) (lx : Lexer) : Run Bool :=
  match evaluate .preProcess table n pos lx with
  | .done p => .done (p.value = 0)
  | .fail _ => .done false
  | .fault => .fault
  | .cycle => .cycle
  | .more => .more

end OpenHT.Htl
