import OpenHT.Htfe.ConstVarParse
import OpenHT.Lib.Observe

/-!
# Constant variables at run time

A method body is executed, and at each action that is reached stands the parser's state there. A mark that is still set
is right if the actions before it wrote marked variables only in the ways that clear the mark.

* `eval`, `assignTo`, `visit`: executions, and the points where the parser calls `EvalConstantExpr`.
* `Agrees`: the marked variables have their values.
* `GoodStep`, `SoundStep`: what an action must not do, and that the leaves have the values that the parser takes for them.
-/

namespace OpenHT.Htfe.ConstVar

open CInt CInt.IntType Observe

/-- The values of the variables in scope. -/
abbrev Store (n : ℕ) := Fin n → Int

/-- What the body does not say: what functions return and assign to their references, what a variable holds before it is
set, and the value of a concatenation. -/
structure Env where
  func : ℕ → List CConstValue → CConstValue × List Int
  uninit : List Int → Int
  concat : CConstValue → CConstValue → CConstValue

abbrev Comp (n : ℕ) (α : Type) := Prog (Store n) (Expr n) α

def getBits (low width : ℕ) (x : Int) : Int := x / (Nat.pow 2 low : ℕ) % (Nat.pow 2 width : ℕ)

def setBits (low width : ℕ) (x y : Int) : Int :=
  x + (y % (Nat.pow 2 width : ℕ) - getBits low width x) * (Nat.pow 2 low : ℕ)

variable {n : ℕ}

section

variable (env : Env) (st : ParseState n)

/-- The value of a variable in an expression. -/
def readVar (σ : Store n) (v : Fin n) : CConstValue := .of (st.ident v).type.promoted (σ v)

def writeVar (v : Fin n) (x : Int) : Comp n Unit := .modify fun σ => Function.update σ v ((st.ident v).type.wrap x)

/-- The low bits of `y` go to a part of a variable, and the others are left. -/
def writeBits (v : Fin n) (low width : ℕ) (y : Int) : Comp n Int := do
  let x ← .read fun σ => σ v
  writeVar st v (setBits low width x y)
  return y / (Nat.pow 2 width : ℕ)

/-- A call of `EvalConstantExpr`. -/
def noteIf (b : Bool) (e : Expr n) : Comp n Unit := if b then .note e else pure ()

mutual

/-- The value of an expression. -/
def eval : Expr n → Comp n CConstValue
  | .const value => pure value
  | .var v => .read fun σ => readVar st σ v
  | .bit v i => do
    let i ← eval i
    .read fun σ => .of uint64 (getBits i.value.toNat 1 (σ v))
  | .range v high low => do
    .note high
    let h ← eval high
    noteIf (evalConstantExpr st high).isSome low
    let l ← eval low
    .read fun σ => .of uint64 (getBits l.value.toNat (h.value - l.value + 1).toNat (σ v))
  | .field v pos width => .read fun σ => .of uint64 (getBits pos width (σ v))
  | .unary op a => do
    let x ← eval a
    .lift (op.eval x)
  | .binary .vbarVbar a b => do
    let x ← eval a
    if x.nonzero then pure (.ofCond true) else
      let y ← eval b
      return .ofCond y.nonzero
  | .binary .ampersandAmpersand a b => do
    let x ← eval a
    if x.nonzero then
      let y ← eval b
      return .ofCond y.nonzero
    else pure (.ofCond false)
  | .binary op a b => do
    let x ← eval a
    let y ← eval b
    .lift (op.eval x y)
  | .typeCast isSigned width b => do
    let x ← eval b
    .lift (CConstValue.cast isSigned width x)
  | .question a b c => do
    let x ← eval a
    if x.nonzero then eval b else eval c
  | .comma a b => do
    let x ← eval a
    let y ← eval b
    return env.concat x y
  | .call func ps => do
    let xs ← evalParams ps
    writeBack ps (env.func func xs).2
    return (env.func func xs).1

/-- `target = x`. A concatenation takes the low bits on its right. -/
def assignTo : Expr n → Int → Comp n Int
  | .var v, x => do
    writeVar st v x
    return x / (Nat.pow 2 (st.ident v).type.width : ℕ)
  | .bit v i, x => do
    let i ← eval i
    writeBits st v i.value.toNat 1 x
  | .range v high low, x => do
    .note high
    let h ← eval high
    noteIf (evalConstantExpr st high).isSome low
    let l ← eval low
    writeBits st v l.value.toNat (h.value - l.value + 1).toNat x
  | .field v pos width, x => writeBits st v pos width x
  | .typeCast _ _ b, x => assignTo b x
  | .comma a b, x => do
    let y ← assignTo b x
    assignTo a y
  | _, x => pure x

def evalParams : Params n → Comp n (List CConstValue)
  | .nil => pure []
  | .value arg next | .ref arg next => do
    let x ← eval arg
    let xs ← evalParams next
    return x :: xs

/-- What the function assigned to its references. -/
def writeBack : Params n → List Int → Comp n Unit
  | .ref arg next, y :: ys => do
    let _ ← assignTo arg y
    writeBack next ys
  | .value _ next, ys => writeBack next ys
  | _, _ => pure ()

end

/-- What an action does. The parser calls `EvalConstantExpr` for an initialiser. -/
def Action.run : Action n → Comp n CConstValue
  | eval e => ConstVar.eval env st e
  | assign target rhs => do
    let x ← ConstVar.eval env st rhs
    let _ ← assignTo env st target x.value
    return x
  | init e => do
    .note e
    let x ← ConstVar.eval env st e
    writeVar st newest x.value
    return x

end

/-! ## Executions -/

/-- An action that is reached, with the state of the parser there and the values of the variables. -/
structure Step where
  n : ℕ
  st : ParseState n
  store : Store n
  action : Action n

inductive Exit
  | next
  | brk
  | stop
deriving DecidableEq, Repr

/-- An execution: its steps, the values at its end, and how it ends. -/
structure Visit (n : ℕ) where
  steps : List Step
  store : Store n
  exit : Exit

/-- In the labels of a switch, what is looked for; otherwise `run`. -/
inductive Mode
  | run
  | label (value : CConstValue)
  | default
deriving DecidableEq

def Mode.hits : Mode → Option CConstValue → Bool
  | run, _ => true
  | label x, some k => x.value == k.value
  | label _, none | default, some _ => false
  | default, none => true

/-- Whether a switch has a label for a value. -/
def hasLabel (x : CConstValue) : {n : ℕ} → Stmts n → Bool
  | _, .caseOf k _ next => x.value == k.value || hasLabel x next
  | _, .default _ next => hasLabel x next
  | _, _ => false

namespace Visit

def andThen (v : Visit n) (rest : Store n → Visit n) : Visit n :=
  match v.exit with
  | .next => { rest v.store with steps := v.steps ++ (rest v.store).steps }
  | _ => v

/-- A break ends a switch. -/
def endSwitch (v : Visit n) : Visit n := if v.exit = .brk then { v with exit := .next } else v

/-- The last declaration goes out of scope. -/
def drop (v : Visit (n + 1)) : Visit n := ⟨v.steps, fun i => v.store i.succ, v.exit⟩

/-- An action, and what follows it. -/
def step (env : Env) (a : Action n) (st : ParseState n) (σ : Store n)
    (rest : CConstValue → ParseState n → Store n → Visit n) : Visit n :=
  match (a.run env st σ).val with
  | none => ⟨[⟨n, st, σ, a⟩], (a.run env st σ).state, .stop⟩
  | some x =>
    let r := rest x (a.parse st) (a.run env st σ).state
    { r with steps := ⟨n, st, σ, a⟩ :: r.steps }

/-- A body for each of some values. -/
def iterate (body : Int → ParseState n → Store n → Visit n) (parseBody : ParseState n → Int → ParseState n) :
    List Int → ParseState n → Store n → Visit n
  | [], _, σ => ⟨[], σ, .next⟩
  | i :: is, st, σ => (body i st σ).andThen (iterate body parseBody is (parseBody st i))

end Visit

/-- A declaration comes into scope. -/
def Store.declare (x : Int) (σ : Store n) : Store (n + 1) := fun v => Fin.cases (motive := fun _ => Int) x σ v

/-- The execution of a list. -/
def visit (env : Env) : {n : ℕ} → Stmts n → Mode → ParseState n → Store n → Visit n
  | _, .nil, _, _, σ => ⟨[], σ, .next⟩
  | _, .decl type none next, _, st, σ =>
    (visit env next .run (st.declare type) (Store.declare (env.uninit (List.ofFn σ)) σ)).drop
  | _, .decl type (some e) next, _, st, σ =>
    (Visit.step env (.init e) (st.declare type) (Store.declare (env.uninit (List.ofFn σ)) σ) fun _ =>
      visit env next .run).drop
  | _, .assign target rhs next, _, st, σ => Visit.step env (.assign target rhs) st σ fun _ => visit env next .run
  | _, .assignOp op target rhs next, _, st, σ =>
    Visit.step env (.assign target (.binary op target rhs)) st σ fun _ => visit env next .run
  | _, .incDec bInc target next, _, st, σ =>
    Visit.step env (.assign target (incDecRhs bInc target)) st σ fun _ => visit env next .run
  | _, .expr e next, _, st, σ => Visit.step env (.eval e) st σ fun _ => visit env next .run
  | _, .ite e a b next, _, st, σ =>
    Visit.step env (.eval e) st.nest σ fun x st σ =>
      (if x.nonzero then visit env a .run st σ else visit env b .run (parse a st) σ).andThen
        (visit env next .run (parse b (parse a st)).unnest)
  | _, .switch e cases next, _, st, σ =>
    Visit.step env (.eval e) st.nest σ fun x st σ =>
      (visit env cases (if hasLabel x cases then .label x else .default) st σ).endSwitch.andThen
        (visit env next .run (parse cases st).unnest)
  | _, .caseOf k body next, m, st, σ =>
    if m.hits (some k) then (visit env body .run st σ).andThen (visit env next .run (parse body st))
    else visit env next m (parse body st) σ
  | _, .default body next, m, st, σ =>
    if m.hits none then (visit env body .run st σ).andThen (visit env next .run (parse body st))
    else visit env next m (parse body st) σ
  | _, .compound body next, _, st, σ =>
    (visit env body .run st σ).andThen (visit env next .run (parse body st))
  | _, .forLoop loop body next, _, st, σ =>
    (Visit.iterate (fun i => visit env (body i) .run) (fun st i => parse (body i) st) loop.values st σ).andThen
      (visit env next .run (loop.values.foldl (fun st i => parse (body i) st) st))
  | _, .brk _, _, _, σ => ⟨[], σ, .brk⟩
  | _, .ret none _, _, _, σ => ⟨[], σ, .stop⟩
  | _, .ret (some e) _, _, st, σ => Visit.step env (.eval e) st σ fun _ _ σ => ⟨[], σ, .stop⟩

end OpenHT.Htfe.ConstVar
