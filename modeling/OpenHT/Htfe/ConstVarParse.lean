import Mathlib.Logic.Function.Basic
import OpenHT.Htfe.ConstOps

/-!
# Constant variables in the parser

A local variable that is initialised with a constant is marked `IsConstVar` and `EvalConstantExpr` takes its value for it
until a statement clears the mark. The marks are set and cleared in the order of the text.

* `Expr`, `Stmts`: a method body. A variable is named by the number of declarations between it and its use.
* `ParseState`, `evalConstantExpr`, `constLeaves`: the marks, and what `EvalConstantExpr` reads.
* `parse`: what parsing does to the marks.
-/

namespace OpenHT.Htfe.ConstVar

open CInt CInt.IntType

/-- The type of a variable: its width and sign, and the type of its value in an expression, which has all its values. -/
structure VarType where
  width : ℕ
  isSigned : Bool
  promoted : IntType
  pos : 0 < width
  fits : ∀ x : Int, (if isSigned then -(Nat.pow 2 (width - 1) : ℕ) ≤ x ∧ x < (Nat.pow 2 (width - 1) : ℕ)
    else 0 ≤ x ∧ x < (Nat.pow 2 width : ℕ)) → promoted.InRange x

namespace VarType

def InRange (t : VarType) (x : Int) : Prop :=
  if t.isSigned then -(Nat.pow 2 (t.width - 1) : ℕ) ≤ x ∧ x < (Nat.pow 2 (t.width - 1) : ℕ)
  else 0 ≤ x ∧ x < (Nat.pow 2 t.width : ℕ)

instance (t : VarType) (x : Int) : Decidable (t.InRange x) := inferInstanceAs (Decidable (ite ..))

/-- What a variable of the type holds after an assignment. -/
def wrap (t : VarType) (x : Int) : Int :=
  if t.isSigned then
    (x + (Nat.pow 2 (t.width - 1) : ℕ)) % (2 * (Nat.pow 2 (t.width - 1) : ℕ)) - (Nat.pow 2 (t.width - 1) : ℕ)
  else x % (Nat.pow 2 t.width : ℕ)

end VarType

mutual

/-- Expressions in the scope of `n` declarations. `EvalConstantExpr` is called for the bounds of a range. -/
inductive Expr (n : ℕ)
  | const (value : CConstValue)
  | var (v : Fin n)
  | bit (v : Fin n) (index : Expr n)
  | range (v : Fin n) (high low : Expr n)
  | field (v : Fin n) (pos width : ℕ)
  | unary (op : UnOp) (operand1 : Expr n)
  | binary (op : BinOp) (operand1 operand2 : Expr n)
  | typeCast (isSigned : Bool) (width : ℕ) (operand2 : Expr n)
  | question (operand1 operand2 operand3 : Expr n)
  | comma (operand1 operand2 : Expr n)
  | call (func : ℕ) (paramList : Params n)

/-- The arguments of a call: values, and references to what the function may assign. -/
inductive Params (n : ℕ)
  | nil
  | value (arg : Expr n) (next : Params n)
  | ref (arg : Expr n) (next : Params n)

end

/-- The header of a loop `for (int i = init; i < exit; i += inc)`. -/
structure ForLoop where
  initValue : Int
  exitValue : Int
  incValue : Int
  pos : 0 < incValue

/-- The values for which the body is played back. -/
def ForLoop.values (l : ForLoop) : List Int :=
  (List.range ((l.exitValue - l.initValue + l.incValue - 1) / l.incValue).toNat).map fun (i : ℕ) =>
    l.initValue + i * l.incValue

/-- Statements, each with the rest of its list, which a declaration is in scope of. The labels of a switch each have
their statements, and what these declare is in scope up to the next label. -/
inductive Stmts : ℕ → Type
  | nil {n : ℕ} : Stmts n
  | decl {n : ℕ} (type : VarType) (init : Option (Expr (n + 1))) (next : Stmts (n + 1)) : Stmts n
  | assign {n : ℕ} (target rhs : Expr n) (next : Stmts n) : Stmts n
  | assignOp {n : ℕ} (op : BinOp) (target rhs : Expr n) (next : Stmts n) : Stmts n
  | incDec {n : ℕ} (bInc : Bool) (target : Expr n) (next : Stmts n) : Stmts n
  | expr {n : ℕ} (e : Expr n) (next : Stmts n) : Stmts n
  | ite {n : ℕ} (e : Expr n) (compound1 compound2 next : Stmts n) : Stmts n
  | switch {n : ℕ} (e : Expr n) (cases next : Stmts n) : Stmts n
  | caseOf {n : ℕ} (label : CConstValue) (compound1 next : Stmts n) : Stmts n
  | default {n : ℕ} (compound1 next : Stmts n) : Stmts n
  | compound {n : ℕ} (compound1 next : Stmts n) : Stmts n
  | forLoop {n : ℕ} (loop : ForLoop) (body : Int → Stmts n) (next : Stmts n) : Stmts n
  | brk {n : ℕ} (next : Stmts n) : Stmts n
  | ret {n : ℕ} (e : Option (Expr n)) (next : Stmts n) : Stmts n

/-! ## The marks -/

/-- A variable as the parser sees it. -/
structure Ident where
  type : VarType
  declStatementLevel : ℕ
  isConstVar : Bool
  constValue : CConstValue

/-- The variables in scope, and `m_statementNestLevel`. -/
structure ParseState (n : ℕ) where
  ident : Fin n → Ident
  statementNestLevel : ℕ

namespace ParseState

variable {n : ℕ} (st : ParseState n)

/-- A variable is declared. -/
def declare (type : VarType) : ParseState (n + 1) :=
  { st with ident := fun v =>
      Fin.cases (motive := fun _ => Ident) ⟨type, st.statementNestLevel, false, .of int32 0⟩ st.ident v }

/-- The last declaration goes out of scope. -/
def drop (st : ParseState (n + 1)) : ParseState n := { st with ident := fun v => st.ident v.succ }

/-- `SetIsConstVar(false)` -/
def clear (v : Fin n) : ParseState n :=
  { st with ident := Function.update st.ident v { st.ident v with isConstVar := false } }

/-- `SetIsConstVar(true)`, `SetConstValue(value)` -/
def mark (v : Fin n) (value : CConstValue) : ParseState n :=
  { st with ident := Function.update st.ident v { st.ident v with isConstVar := true, constValue := value } }

def nest : ParseState n := { st with statementNestLevel := st.statementNestLevel + 1 }

def unnest : ParseState n := { st with statementNestLevel := st.statementNestLevel - 1 }

end ParseState

/-- `GetMinWidth` -/
def getMinWidth (v : CConstValue) : ℕ :=
  if v.type.isSigned then Nat.log2 (if v.value < 0 then -v.value - 1 else v.value).toNat + 1 + 1
  else Nat.log2 v.value.toNat + 1

/-- `CastAsUint` -/
def castAsUint (width : ℕ) (v : CConstValue) : CConstValue :=
  .of (if v.type.is32Bit then uint32 else uint64) (v.value % (Nat.pow 2 width : ℕ))

variable {n : ℕ}

/-- A cast in `EvalConstantExpr`: one to a signed type does nothing. -/
def evalCast (isSigned : Bool) (width : ℕ) (v : CConstValue) : CConstValue := if isSigned then v else castAsUint width v

/-- `EvalConstantExpr`: `none` if it returns `false`, or computes what C++ leaves undefined. -/
def evalConstantExpr (st : ParseState n) : Expr n → Option CConstValue
  | .const value => some value
  | .var v | .bit v _ | .range v _ _ | .field v _ _ =>
    if (st.ident v).isConstVar then some (st.ident v).constValue else none
  | .unary op a => evalConstantExpr st a >>= op.eval
  | .binary op a b => do
    let l ← evalConstantExpr st a
    let r ← evalConstantExpr st b
    op.eval l r
  | .typeCast isSigned width b => (evalConstantExpr st b).map (evalCast isSigned width)
  | .question a b c => do
    let x ← evalConstantExpr st a
    let y ← evalConstantExpr st b
    let z ← evalConstantExpr st c
    if x.nonzero then some y else some z
  | .comma _ _ | .call _ _ => none

/-- The leaves of marked variables that `EvalConstantExpr` evaluates, with what it returns for each. -/
def constLeaves (st : ParseState n) : Expr n → List (Expr n × CConstValue)
  | .const _ | .call _ _ => []
  | .var v => if (st.ident v).isConstVar then [(.var v, (st.ident v).constValue)] else []
  | .bit v i => if (st.ident v).isConstVar then [(.bit v i, (st.ident v).constValue)] else []
  | .range v h l => if (st.ident v).isConstVar then [(.range v h l, (st.ident v).constValue)] else []
  | .field v p w => if (st.ident v).isConstVar then [(.field v p w, (st.ident v).constValue)] else []
  | .unary _ a | .typeCast _ _ a => constLeaves st a
  | .binary _ a b | .comma a b => constLeaves st a ++ constLeaves st b
  | .question a b c => constLeaves st a ++ constLeaves st b ++ constLeaves st c

/-- `GetMember`: the variable of a leaf. -/
def getMember : Expr n → Option (Fin n)
  | .var v | .bit v _ | .range v _ _ | .field v _ _ => some v
  | .typeCast _ _ b => getMember b
  | _ => none

/-- `HandleIntegerConstantPropagation` on `target = rhs`. -/
def handleIntegerConstantPropagation (st : ParseState n) (target rhs : Expr n) : ParseState n :=
  match getMember target with
  | none => st
  | some v =>
    match target, evalConstantExpr st rhs with
    | .var _, some value =>
      if getMinWidth value ≤ (st.ident v).type.width ∧ 0 ≤ value.value ∧
          (st.ident v).declStatementLevel = st.statementNestLevel then st.mark v value
      else st.clear v
    | _, _ => st.clear v

/-- The last declaration. -/
abbrev newest {n : ℕ} : Fin (n + 1) := 0

/-- What is executed at once: an expression, an assignment, or the initialiser of the last declaration. -/
inductive Action : ℕ → Type
  | eval {n : ℕ} (e : Expr n) : Action n
  | assign {n : ℕ} (target rhs : Expr n) : Action n
  | init {n : ℕ} (e : Expr (n + 1)) : Action (n + 1)

/-- What `ParseIdentifierStatement` clears: the variable of the left operand. -/
def ParseState.assigned (st : ParseState n) (target : Expr n) : ParseState n :=
  match getMember target with
  | none => st
  | some v => st.clear v

/-- `++` and `--` become `target = target + 1` or `target = target - 1`. -/
def incDecRhs (bInc : Bool) (target : Expr n) : Expr n :=
  .binary (if bInc then .plus else .minus) target (.const (.of uint32 1))

/-- What parsing an action does to the marks. The initialiser of `v` is parsed as `{ v = 0; }`, and then takes the place
of the `0`. -/
def Action.parse (st : ParseState n) : Action n → ParseState n
  | eval _ => st
  | assign target _ => st.assigned target
  | init e => handleIntegerConstantPropagation (st.assigned (.var newest)) (.var newest) e

/-- `ParseStatement`, and `ParseCompoundStatement` on a list. -/
def parse : {n : ℕ} → Stmts n → ParseState n → ParseState n
  | _, .nil, st => st
  | _, .decl type none next, st => (parse next (st.declare type)).drop
  | _, .decl type (some e) next, st => (parse next ((Action.init e).parse (st.declare type))).drop
  | _, .assign target rhs next, st => parse next ((Action.assign target rhs).parse st)
  | _, .assignOp op target rhs next, st => parse next ((Action.assign target (.binary op target rhs)).parse st)
  | _, .incDec bInc target next, st => parse next ((Action.assign target (incDecRhs bInc target)).parse st)
  | _, .expr e next, st => parse next ((Action.eval e).parse st)
  | _, .ite e a b next, st => parse next (parse b (parse a ((Action.eval e).parse st.nest))).unnest
  | _, .switch e cases next, st => parse next (parse cases ((Action.eval e).parse st.nest)).unnest
  | _, .caseOf _ body next, st => parse next (parse body st)
  | _, .default body next, st => parse next (parse body st)
  | _, .compound body next, st => parse next (parse body st)
  | _, .forLoop loop body next, st => parse next (loop.values.foldl (fun st i => parse (body i) st) st)
  | _, .brk next, st => parse next st
  | _, .ret none next, st => parse next st
  | _, .ret (some e) next, st => parse next ((Action.eval e).parse st)

end OpenHT.Htfe.ConstVar
