import OpenHT.Sysc.QueClock

/-!
# The statements for a queue

A queue in the source becomes registers, wires and the statements that drive them. `push` and `pop` put their statements
where they are called, `clock` puts statements at the start of the method and at the call, and the calls that return a
value become expressions. The statements are parsed with the indices `[0]`, which are then replaced.

* `Operand`, `Stmt`: the expressions and assignments, with the patch of their indices.
* `parsePush`, `parsePop`, `preClock`, `clockStmts`, `parseHtQueueExpr`: the generator.
* `declKind`: the class that a declaration gets.
* `Design.cycle`: a clock cycle of the design that is generated.
-/

namespace OpenHT.Htfe.HtQueue

open Sysc

/-- What `HtQueueVarDecl` declares, with the indices of the queue. -/
inductive QueVar
  | rWrAddr
  | rWrAddr2
  | rRdAddr
  | cRdData
  | cCnt
  | cWrData
  | cWrEn
  | cWrAddr
  | cRdAddr
deriving DecidableEq, Repr

def QueVar.width (addrWidth dataWidth : ℕ) : QueVar → ℕ
  | rWrAddr | rWrAddr2 | rRdAddr | cCnt | cWrAddr | cRdAddr => addrWidth + 1
  | cRdData | cWrData => dataWidth
  | cWrEn => 1

/-- Assigned at the clock edge. -/
def QueVar.isReg : QueVar → Bool
  | rWrAddr | rWrAddr2 | rRdAddr => true
  | cRdData | cCnt | cWrData | cWrEn | cWrAddr | cRdAddr => false

/-- The operators that the generator looks at, or writes. -/
inductive EToken
  | tkEof
  | tkPlus
  | tkMinus
  | tkEqualEqual
  | tkGreaterEqual
  | tkQuestion
  | tkOther
deriving DecidableEq, Repr

/-- The elements of the user's variables, where a call is made. -/
abbrev Env := ℕ → List ℕ → Int

/-- An index expression. -/
abbrev Index := Env → ℕ

/-- `CHtfeOperand`. A constant keeps the operator that it was folded from. -/
inductive Operand
  | que (v : QueVar) (indexList : List Index) (range : Option (Int × Int))
  | user (member : ℕ) (indexList : List Index)
  | const (op : EToken) (value : Int)
  | reset
  | binary (op : EToken) (operand1 operand2 : Operand)
  | question (operand1 operand2 operand3 : Operand)
  | other (value : Env → Int)

namespace Operand

def getOperator : Operand → EToken
  | que .. | user .. | reset => .tkEof
  | const op _ | binary op .. => op
  | question .. => .tkQuestion
  | other _ => .tkOther

/-- On an operator the list is not looked at. -/
def setIndexList (indexList : List Index) : Operand → Operand
  | que v _ range => que v indexList range
  | user member _ => user member indexList
  | e => e

/-- `GetOperand1()->SetIndexList(..)`, which a leaf does not survive. -/
def setIndexList1 (indexList : List Index) : Operand → Option Operand
  | binary op a b => some (binary op (a.setIndexList indexList) b)
  | question a b c => some (question (a.setIndexList indexList) b c)
  | _ => none

def setIndexList2 (indexList : List Index) : Operand → Option Operand
  | binary op a b => some (binary op a (b.setIndexList indexList))
  | question a b c => some (question a (b.setIndexList indexList) c)
  | _ => none

/-- The patch of the right side of an assignment: a sum has its first operand patched. -/
def patch (indexList : List Index) (e : Operand) : Option Operand :=
  if e.getOperator = .tkPlus then e.setIndexList1 indexList else some e

end Operand

/-- An `st_assign`. -/
structure Stmt where
  operand1 : Operand
  operand2 : Operand

/-- The indices as they are after `SetIndexList`. -/
def Stmt.patch (indexList : List Index) (st : Stmt) : Option Stmt :=
  (st.operand2.patch indexList).map fun e => ⟨st.operand1.setIndexList indexList, e⟩

/-! ## The generator -/

/-- The indices `[0]..[0]` of `refDimStr`. -/
def refDim (dimenCnt : ℕ) : List Index := List.replicate dimenCnt fun _ => 0

/-- The indices of `initDimStr`. -/
def initDim (refList : List ℕ) : List Index := refList.map fun i _ => i

/-- The elements of a queue array, in the order of `DimenIter`. -/
def dimenIter : List ℕ → List (List ℕ)
  | [] => [[]]
  | d :: dims => (List.range d).flatMap fun i => (dimenIter dims).map (i :: ·)

def one : Operand := .const .tkEof 1

def zero : Operand := .const .tkEof 0

def pushStmts (dimenCnt : ℕ) (pOperand2 : Operand) : List Stmt :=
  [⟨.que .cWrData (refDim dimenCnt) none, pOperand2⟩,
    ⟨.que .cWrEn (refDim dimenCnt) none, one⟩,
    ⟨.que .cWrAddr (refDim dimenCnt) none, .binary .tkPlus (.que .rWrAddr (refDim dimenCnt) none) one⟩]

/-- `push`: none where the patch follows a null pointer. -/
def parsePush (dimenCnt : ℕ) (indexList : List Index) (pOperand2 : Operand) : Option (List Stmt) :=
  (pushStmts dimenCnt pOperand2).mapM (Stmt.patch indexList)

def parsePop (dimenCnt : ℕ) (indexList : List Index) : Option (List Stmt) :=
  [Stmt.mk (.que .cRdAddr (refDim dimenCnt) none)
    (.binary .tkPlus (.que .rRdAddr (refDim dimenCnt) none) one)].mapM (Stmt.patch indexList)

/-- `InitHtQueuePushPreClockStatements` and `InitHtQueuePopPreClockStatements`, for an element. -/
def preClock (refList : List ℕ) : List Stmt :=
  [⟨.que .cWrEn (initDim refList) none, zero⟩,
    ⟨.que .cWrData (initDim refList) none, zero⟩,
    ⟨.que .cWrAddr (initDim refList) none, .que .rWrAddr (initDim refList) none⟩,
    ⟨.que .cRdAddr (initDim refList) none, .que .rRdAddr (initDim refList) none⟩]

/-- `InitHtQueuePushClockStatements`, for an element. -/
def pushClockStmts (kind : QueClass) (refList : List ℕ) : List Stmt :=
  [⟨.que .cCnt (initDim refList) none,
      .binary .tkMinus (.que .rWrAddr (initDim refList) none) (.que .rRdAddr (initDim refList) none)⟩] ++
    (if kind.bCmpWrIdx2 then
      [⟨.que .rWrAddr2 (initDim refList) none, .question .reset zero (.que .rWrAddr (initDim refList) none)⟩]
    else []) ++
      [⟨.que .rWrAddr (initDim refList) none, .question .reset zero (.que .cWrAddr (initDim refList) none)⟩]

/-- `InitHtQueuePopClockStatements`, for an element. -/
def popClockStmts (refList : List ℕ) : List Stmt :=
  [⟨.que .rRdAddr (initDim refList) none, .question .reset zero (.que .cRdAddr (initDim refList) none)⟩]

def clockStmts (kind : QueClass) (dimenList : List ℕ) : List Stmt :=
  (dimenIter dimenList).flatMap (pushClockStmts kind) ++ (dimenIter dimenList).flatMap popClockStmts

/-- The calls that return a value. -/
inductive Query
  | size
  | readAddr
  | writeAddr
  | empty
  | front
  | full (num : ℕ)
deriving DecidableEq, Repr

/-- `ParseHtQueueExpr` -/
def parseHtQueueExpr (kind : QueClass) (addrWidth dimenCnt : ℕ) (indexList : List Index) : Query → Option Operand
  | .size => some ((Operand.que .cCnt (refDim dimenCnt) none).setIndexList indexList)
  | .readAddr =>
    some ((Operand.que .rRdAddr (refDim dimenCnt) (some ((addrWidth : Int) - 1, 0))).setIndexList indexList)
  | .writeAddr =>
    some ((Operand.que .rWrAddr (refDim dimenCnt) (some ((addrWidth : Int) - 1, 0))).setIndexList indexList)
  | .empty =>
    (Operand.setIndexList1 indexList (.binary .tkEqualEqual
      (.que (if kind.bCmpWrIdx2 then .rWrAddr2 else .rWrAddr) (refDim dimenCnt) none)
      (.que .rRdAddr (refDim dimenCnt) none))).bind (Operand.setIndexList2 indexList)
  | .front => some ((Operand.que .cRdData (refDim dimenCnt) none).setIndexList indexList)
  | .full num =>
    -- "full remaining value exceeds ht_dist_que capacity"
    if num > 2 ^ addrWidth - 1 then none
    else Operand.setIndexList1 indexList (.binary .tkGreaterEqual (.que .cCnt (refDim dimenCnt) none)
      (.const .tkMinus (((2 ^ addrWidth : ℕ) : Int) - num)))

/-- A declaration of a queue. -/
structure Decl where
  cls : QueClass
  baseType : String
  addrWidth : ℕ
deriving DecidableEq, Repr

/-- The name of its type, which is the same for all classes. -/
def Decl.typeName (d : Decl) : String := "ht_dist_que<" ++ d.baseType ++ "," ++ toString d.addrWidth ++ ">"

/-- `ParseHtQueueDecl`: the class of a declaration behind others. A type that is there is taken as it is. -/
def declKind (before : List Decl) (d : Decl) : QueClass :=
  match before.find? fun d' => d'.typeName = d.typeName with
  | some d' => d'.cls
  | none => d.cls

/-! ## A clock cycle -/

/-- The values of the declared variables. -/
abbrev Vals := QueVar → List ℕ → ℕ

/-- The bits of a value that a variable keeps. -/
def trunc (width : ℕ) (x : Int) : ℕ := (x % ((2 ^ width : ℕ) : Int)).toNat

/-- A bit range of a value. -/
def select (x : ℕ) : Option (Int × Int) → ℕ
  | none => x
  | some (hi, lo) => x / 2 ^ lo.toNat % 2 ^ (hi + 1 - lo).toNat

def EToken.eval : EToken → Int → Int → Int
  | .tkPlus, x, y => x + y
  | .tkMinus, x, y => x - y
  | .tkEqualEqual, x, y => if x = y then 1 else 0
  | .tkGreaterEqual, x, y => if x ≥ y then 1 else 0
  | .tkEof, _, _ | .tkQuestion, _, _ | .tkOther, _, _ => 0

def evalIndex (env : Env) (indexList : List Index) : List ℕ := indexList.map fun i => i env

def Operand.eval (vals : Vals) (bReset : Bool) (env : Env) : Operand → Int
  | que v indexList range => select (vals v (evalIndex env indexList)) range
  | user member indexList => env member (evalIndex env indexList)
  | const _ value => value
  | reset => if bReset then 1 else 0
  | binary op a b => op.eval (a.eval vals bReset env) (b.eval vals bReset env)
  | question a b c => if a.eval vals bReset env ≠ 0 then b.eval vals bReset env else c.eval vals bReset env
  | other value => value env

/-- The values in a cycle, and what the registers hold after it. -/
structure CycleVals where
  cur : Vals
  next : Vals

def setElem (vals : Vals) (v : QueVar) (i : List ℕ) (x : ℕ) : Vals :=
  Function.update vals v (Function.update (vals v) i x)

/-- A design with an array of queues. -/
structure Design where
  kind : QueClass
  addrWidth : ℕ
  dataWidth : ℕ
  dimenList : List ℕ

/-- What is kept from cycle to cycle. -/
structure State where
  regs : Vals
  ram : List ℕ → ℕ → ℕ

/-- A push or a pop, and where it is called. -/
inductive CallOp
  | push (pOperand2 : Operand)
  | pop

structure Call where
  op : CallOp
  indexList : List Index
  env : Env

structure Cycle where
  bReset : Bool
  calls : List Call

def Call.stmts (dimenCnt : ℕ) (c : Call) : Option (List Stmt) :=
  match c.op with
  | .push e => parsePush dimenCnt c.indexList e
  | .pop => parsePop dimenCnt c.indexList

namespace Design

variable (d : Design)

def exec (bReset : Bool) (env : Env) (s : CycleVals) (st : Stmt) : CycleVals :=
  match st.operand1 with
  | .que v indexList _ =>
    let x := trunc (v.width d.addrWidth d.dataWidth) (st.operand2.eval s.cur bReset env)
    if v.isReg then { s with next := setElem s.next v (evalIndex env indexList) x }
    else { s with cur := setElem s.cur v (evalIndex env indexList) x }
  | _ => s

def execs (bReset : Bool) (env : Env) (s : CycleVals) (sts : List Stmt) : CycleVals := sts.foldl (d.exec bReset env) s

def execCalls (bReset : Bool) : List Call → CycleVals → Option CycleVals
  | [], s => some s
  | c :: cs, s => c.stmts d.dimenList.length >>= fun sts => execCalls bReset cs (d.execs bReset c.env s sts)

/-- The values at the start of a cycle, with what the memory returns for `ra`. -/
def start (g : State) : CycleVals :=
  ⟨Function.update g.regs .cRdData fun i => g.ram i (g.regs .rRdAddr i % 2 ^ d.addrWidth), g.regs⟩

/-- `if (we) mem[wa] <= din` -/
def writeRam (vals : Vals) (ram : List ℕ → ℕ → ℕ) (i : List ℕ) : ℕ → ℕ :=
  if vals .cWrEn i ≠ 0 then Function.update (ram i) (vals .rWrAddr i % 2 ^ d.addrWidth) (vals .cWrData i) else ram i

/-- A clock cycle: the state after it, and the values in it. -/
def cycle (g : State) (cyc : Cycle) : Option (State × Vals) := do
  let s := d.execs cyc.bReset (fun _ _ => 0) (d.start g) ((dimenIter d.dimenList).flatMap preClock)
  let s ← d.execCalls cyc.bReset cyc.calls s
  let s := d.execs cyc.bReset (fun _ _ => 0) s (clockStmts d.kind d.dimenList)
  some (⟨s.next, d.writeRam s.cur g.ram⟩, s.cur)

/-- What a call returns in a cycle. -/
def result (vals : Vals) (bReset : Bool) (env : Env) (indexList : List Index) (q : Query) : Option Int :=
  (parseHtQueueExpr d.kind d.addrWidth d.dimenList.length indexList q).map fun e => e.eval vals bReset env

end Design

end OpenHT.Htfe.HtQueue
