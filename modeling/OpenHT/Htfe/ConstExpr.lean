import OpenHT.Htfe.ConstOps
import OpenHT.Lib.OpPrec

/-!
# `ParseConstExpr`

The evaluator of the constant expressions of declarations: an operand and an operator stack, and a call of itself for
parentheses and between `?` and `:`.

* `applyTop`: the chain of cases that takes the operands of an operator from the stack.
* `parseEvalConstExpr`: reduce the stacks before an operator is pushed.
* `loop`: the loop of `ParseConstExpr`, whose calls take their fuel from it.
* `parseConstExpr`: the call, with fuel for the tokens that are left.
-/

namespace OpenHT.Htfe.ConstExpr

open OpPrec

/-- The binary operators that `ParseConstExpr` goes on with. -/
inductive ConstOp
  | plus | minus | slash | asterisk | percent | vbar | carot | ampersand | lessLess | greaterGreater
deriving DecidableEq, Repr

/-- The operator of `CConstValue`. -/
def ConstOp.toBinOp : ConstOp → BinOp
  | plus => .plus
  | minus => .minus
  | slash => .slash
  | asterisk => .asterisk
  | percent => .percent
  | vbar => .vbar
  | carot => .carot
  | ampersand => .ampersand
  | lessLess => .lessLess
  | greaterGreater => .greaterGreater

/-- The tokens besides constants, parentheses, `?` and `:`, and what stands for one on the operator stack. -/
inductive EToken
  | bin (o : ConstOp)
  | unaryPlus | unaryMinus
  | tilda | bang
  | question
  | exprBegin | exprEnd
  /-- Any other token, an identifier but `true` and `false` among them. -/
  | other (k : ℕ)
deriving DecidableEq, Repr

/-- A constant token: `tk_num_int`, `tk_num_hex` or `tk_num_string` with `GetConstValue()`, or the identifiers `true`
and `false`. -/
inductive Const
  | num (v : CConstValue)
  | bool (b : Bool)
deriving DecidableEq

/-- `value = 1` and `value = 0` have the type of an `int`. -/
def Const.value : Const → CConstValue
  | num v => v
  | bool b => .ofBool .int32 b

abbrev CTok := Tok Const EToken

def ConstOp.prec : ConstOp → ℕ
  | asterisk | slash | percent => 4
  | plus | minus => 5
  | lessLess | greaterGreater => 6
  | ampersand => 9
  | carot => 10
  | vbar => 11

/-- `GetTokenPrec` -/
def getTokenPrec : EToken → ℕ
  | .unaryPlus | .unaryMinus | .tilda | .bang => 3
  | .bin o => o.prec
  | .question => 14
  | .exprBegin => 17
  | .exprEnd => 18
  | .other _ => 0

/-- `IsTokenAssocLR` -/
def isTokenAssocLR (tk : EToken) : Bool :=
  getTokenPrec tk ≠ 3 && getTokenPrec tk ≠ 14 && getTokenPrec tk ≠ 15

/-- How a call ends. -/
inductive Res (α : Type)
  | done (a : α)
  /-- `false`, after a message if there is one. -/
  | fail (msg : Option String)
  /-- An assertion, or the last entry of an empty stack. -/
  | fault
  /-- An operation that C++ leaves undefined. -/
  | undef
  | more
deriving DecidableEq

namespace Res

variable {α β : Type}

protected def bind : Res α → (α → Res β) → Res β
  | done a, f => f a
  | fail msg, _ => fail msg
  | fault, _ => fault
  | undef, _ => undef
  | more, _ => more

instance : Monad Res where
  pure := done
  bind := Res.bind

/-- The result of an operator of `CConstValue`. -/
def ofOption : Option α → Res α
  | some a => done a
  | none => undef

@[simp] theorem done_bind (a : α) (f : α → Res β) : (done a >>= f) = f a := rfl

@[simp] theorem fail_bind (msg : Option String) (f : α → Res β) : (fail msg >>= f) = fail msg := rfl

@[simp] theorem fault_bind (f : α → Res β) : (fault >>= f) = fault := rfl

@[simp] theorem undef_bind (f : α → Res β) : (undef >>= f) = undef := rfl

@[simp] theorem more_bind (f : α → Res β) : (more >>= f) = more := rfl

@[simp] theorem pure_eq (a : α) : (pure a : Res α) = done a := rfl

theorem bind_assoc {γ : Type} (x : Res α) (f : α → Res β) (g : β → Res γ) :
    (x >>= f) >>= g = x >>= fun a => f a >>= g := by
  cases x <;> rfl

end Res

/-- Take the operands of `stackTk` from the stack and push the result; the last operand is the head. There is no case
for `!`, which is taken for a binary operator. -/
def applyTop : EToken → List CConstValue → Res (List CConstValue)
  | .unaryPlus, op1 :: vs => do return (← .ofOption (UnOp.eval .unaryPlus op1)) :: vs
  | .unaryMinus, op1 :: vs => do return (← .ofOption (UnOp.eval .unaryMinus op1)) :: vs
  | .tilda, op1 :: vs => do return (← .ofOption (UnOp.eval .tilda op1)) :: vs
  | .question, op3 :: op2 :: op1 :: vs => .done ((if op1.nonzero then op2 else op3) :: vs)
  | .bin o, op2 :: op1 :: vs => do return (← .ofOption (o.toBinOp.eval op1 op2)) :: vs
  | _, _ => .fault

/-- `ParseEvalConstExpr`, on the operand and the operator stack with their last entries first. -/
def parseEvalConstExpr (tk : EToken) : List CConstValue → List EToken → Res (List CConstValue × List EToken)
  | _, [] => .fault
  | vs, stackTk :: ops =>
    if getTokenPrec stackTk < getTokenPrec tk ∨ getTokenPrec tk = getTokenPrec stackTk ∧ isTokenAssocLR tk then
      if stackTk = .exprBegin then
        -- the assertion on the sizes of the stacks
        if vs.length = 1 ∧ ops = [] then .done (vs, ops) else .fault
      else do parseEvalConstExpr tk (← applyTop stackTk vs) ops
    else .done (vs, tk :: stackTk :: ops)

/-- A token before an operand, as what goes on the operator stack. -/
def preOperand : EToken → Option EToken
  | .bin .minus => some .unaryMinus
  | .bin .plus => some .unaryPlus
  | .tilda => some .tilda
  | .bang => some .bang
  | _ => none

/-- One unary operator, if there is one. -/
def prefixOperator (vs : List CConstValue) (ops : List EToken) :
    List CTok → Res (List CConstValue × List EToken × List CTok)
  | .sym s :: ts =>
    match preOperand s with
    | some tk => do
      let (vs, ops) ← parseEvalConstExpr tk vs ops
      return (vs, ops, ts)
    | none => .done (vs, ops, .sym s :: ts)
  | ts => .done (vs, ops, ts)

section

variable (call : List CTok → Res (CConstValue × List CTok))

/-- A constant or an expression in parentheses. -/
def operand : List CTok → Res (CConstValue × List CTok)
  | .atom c :: ts => .done (c.value, ts)
  | .lParen :: ts => do
    let (value, ts) ← call ts
    match ts with
    | .rParen :: ts => return (value, ts)
    | _ => .fail (some "Expected a )")
  | _ => .fail none

/-- The end of the expression. -/
def finish (vs : List CConstValue) (ops : List EToken) (ts : List CTok) : Res (CConstValue × List CTok) := do
  let (vs, ops) ← parseEvalConstExpr .exprEnd vs ops
  match vs, ops with
  | [value], [] => return (value, ts)
  | [_], _ => .fail (some "Evaluation error, operatorStack")
  | _, _ => .fail (some "Evaluation error, operandStack")

/-- After an operand: the stacks and the tokens of the next turn, or the end. -/
def operator (next : List CConstValue → List EToken → List CTok → Res (CConstValue × List CTok))
    (vs : List CConstValue) (ops : List EToken) : List CTok → Res (CConstValue × List CTok)
  | .sym (.bin o) :: ts => do
    let (vs, ops) ← parseEvalConstExpr (.bin o) vs ops
    next vs ops ts
  | .question :: ts => do
    let (vs, ops) ← parseEvalConstExpr .question vs ops
    let (value, ts) ← call ts
    match ts with
    | .colon :: ts => next (value :: vs) ops ts
    | _ => .fail (some "Expected a :")
  | ts => finish vs ops ts

end

/-- The loop of `ParseConstExpr`. -/
def loop : ℕ → List CConstValue → List EToken → List CTok → Res (CConstValue × List CTok)
  | 0, _, _, _ => .more
  | n + 1, vs, ops, ts => do
    let (vs, ops, ts) ← prefixOperator vs ops ts
    let (value, ts) ← operand (loop n [] [.exprBegin]) ts
    operator (loop n [] [.exprBegin]) (loop n) (value :: vs) ops ts

/-- `ParseConstExpr`: the value and the tokens from the one that `GetToken` returns then. Every turn takes a token. -/
def parseConstExpr (ts : List CTok) : Res (CConstValue × List CTok) :=
  loop (ts.length + 1) [] [.exprBegin] ts

example : parseConstExpr [.atom (.num (.of .int32 2)), .sym (.bin .plus), .atom (.num (.of .int32 3)),
    .sym (.bin .asterisk), .atom (.bool true), .rParen] = .done (.of .int32 5, [.rParen]) := by decide +kernel

end OpenHT.Htfe.ConstExpr
