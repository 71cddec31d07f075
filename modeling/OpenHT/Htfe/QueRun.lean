import Mathlib.Data.List.Nodup
import OpenHT.Htfe.QueStmt

/-!
# The statements for a queue refine its class

* `Queues`: the array of queue objects; `Queues.cycle`: a clock cycle of it.
* `Usage`, `Meets`: how a design may use its queues, and what the generator asks for beyond that.
* `Agree`: the registers and the memory hold what the object does.
* `cycle_agree`: a cycle keeps it, and every call returns the same.
-/

namespace OpenHT.Htfe.HtQueue

open Sysc

/-- The queue objects. -/
abbrev Queues := List ℕ → Que ℕ

/-- An expression over the user's variables. -/
def Operand.IsUser : Operand → Prop
  | que .. | reset => False
  | user .. | const .. | other _ => True
  | binary _ a b => a.IsUser ∧ b.IsUser
  | question a b c => a.IsUser ∧ b.IsUser ∧ c.IsUser

/-- Its value in C. -/
def Operand.value (env : Env) (e : Operand) : Int := e.eval (fun _ _ => 0) false env

/-- The element that a call is for. -/
def Call.elem (call : Call) : List ℕ := evalIndex call.env call.indexList

def CallOp.isPush : CallOp → Bool
  | push _ => true
  | pop => false

section

variable (c : QueClass) (d : Design)

/-- The call on its queue. -/
def CallOp.run (env : Env) (q : Que ℕ) : CallOp → Except AssertFail (Que ℕ)
  | push e => q.push d.addrWidth (trunc d.dataWidth (e.value env))
  | pop => q.pop c

def Call.run (call : Call) (qs : Queues) : Except AssertFail Queues :=
  call.op.run c d call.env (qs call.elem) >>= fun q => .ok (Function.update qs call.elem q)

def runCalls : List Call → Queues → Except AssertFail Queues
  | [], qs => .ok qs
  | call :: calls, qs => call.run c d qs >>= runCalls calls

def clockAll (bReset : Bool) : List (List ℕ) → Queues → Except AssertFail Queues
  | [], qs => .ok qs
  | i :: is, qs => (qs i).clock c d.addrWidth bReset >>= fun q => clockAll bReset is (Function.update qs i q)

/-- A cycle: the calls, and then one `clock()` for each queue. -/
def Queues.cycle (cyc : Cycle) (qs : Queues) : Except AssertFail Queues :=
  runCalls c d cyc.calls qs >>= clockAll c d cyc.bReset (dimenIter d.dimenList)

end

/-- What a call returns. -/
def queResult (c : QueClass) (addrWidth : ℕ) (q : Que ℕ) : Query → Int
  | .size => q.size addrWidth
  | .readAddr => q.readAddr addrWidth
  | .writeAddr => q.writeAddr addrWidth
  | .empty => if q.empty c then 1 else 0
  | .front => ((q.front addrWidth : ℕ) : Int)
  | .full num => if q.fullNum addrWidth num then 1 else 0

/-- **The use of the queues.** The indices are in range, what is pushed is an expression of the user, and a queue is
pushed at most once in a cycle, when it is not full, and popped at most once, when it is not empty. -/
structure Usage (c : QueClass) (d : Design) (qs : Queues) (calls : List Call) : Prop where
  elem : ∀ call ∈ calls, call.elem ∈ dimenIter d.dimenList
  push : ∀ call ∈ calls, ∀ e, call.op = .push e → e.IsUser ∧ (qs call.elem).full d.addrWidth = false
  pop : ∀ call ∈ calls, call.op = .pop → (qs call.elem).empty c = false
  once : calls.Pairwise fun a b => a.op.isPush = b.op.isPush → a.elem ≠ b.elem

/-- **The patch of an index does no harm**: the expression is no folded sum, and if it is a sum of a variable, the
element that the queue's indices select has the same value. -/
def Operand.PatchSafe (indexList : List Index) (env : Env) : Operand → Prop
  | const op _ => op ≠ .tkPlus
  | binary .tkPlus (user member old) _ => env member (evalIndex env indexList) = env member (evalIndex env old)
  | _ => True

/-- **What the generated design needs.** No push or pop before the first reset; in a cycle with reset no push, unless of
what is stored there; and no reset of a block queue whose write index has moved. -/
structure Meets (c : QueClass) (d : Design) (qs : Queues) (cyc : Cycle) : Prop where
  patch : ∀ call ∈ cyc.calls, ∀ e, call.op = .push e → e.PatchSafe call.indexList call.env
  ready : cyc.bReset = false → ∀ call ∈ cyc.calls, (qs call.elem).bPopWasReset = true ∧ (qs call.elem).bPushWasReset = true
  stored : cyc.bReset = true → ∀ call ∈ cyc.calls, ∀ e, call.op = .push e →
    trunc d.dataWidth (e.value call.env) = (qs call.elem).que ((qs call.elem).wrIdx % 2 ^ d.addrWidth)
  wrIdx : cyc.bReset = true → c.bCmpWrIdx2 = true → ∀ i ∈ dimenIter d.dimenList, (qs i).cmpWrIdx.read = 0

/-- **The registers hold what the object does.** -/
structure Agree (c : QueClass) (addrWidth : ℕ) (q : Que ℕ) (wr wr2 rd : ℕ) (ram : ℕ → ℕ) : Prop where
  cmpWr : q.cmpWrIdx = ⟨wr, wr⟩
  cmpRd : q.cmpRdIdx = ⟨rd, rd⟩
  cmpWr2 : c.bCmpWrIdx2 = true → q.cmpWrIdx2 = ⟨wr2, wr2⟩
  wrIdx : q.wrIdx % 2 ^ addrWidth = wr % 2 ^ addrWidth
  rdIdx : q.rdIdx % 2 ^ addrWidth = rd % 2 ^ addrWidth
  cells : ∀ a, a < 2 ^ addrWidth → q.que a = ram a
  bPush : q.bPush = false
  bPop : q.bPop = false
  wr_lt : wr < 2 ^ (addrWidth + 1)
  rd_lt : rd < 2 ^ (addrWidth + 1)

/-- All elements of the array. -/
def AgreeAll (c : QueClass) (d : Design) (qs : Queues) (g : State) : Prop :=
  ∀ i ∈ dimenIter d.dimenList, Agree c d.addrWidth (qs i) (g.regs .rWrAddr i) (g.regs .rWrAddr2 i) (g.regs .rRdAddr i) (g.ram i)

/-! ## Values -/

attribute [local simp] Operand.eval

theorem trunc_of_lt {w x : ℕ} (hx : x < 2 ^ w) : trunc w x = x := by
  unfold trunc
  rw [← Int.natCast_emod, Nat.mod_eq_of_lt hx, Int.toNat_natCast]

theorem trunc_nat (w x : ℕ) : trunc w x = x % 2 ^ w := by
  unfold trunc
  rw [← Int.natCast_emod, Int.toNat_natCast]

theorem trunc_lt (w : ℕ) (x : Int) : trunc w x < 2 ^ w := by
  have hpos : (0 : Int) < ((2 ^ w : ℕ) : Int) := by exact_mod_cast Nat.two_pow_pos w
  have hlt := Int.emod_lt_of_pos x hpos
  have hnn := Int.emod_nonneg x (Int.ne_of_gt hpos)
  unfold trunc
  omega

theorem setElem_apply (vals : Vals) (v u : QueVar) (i j : List ℕ) (x : ℕ) :
    setElem vals v i x u j = if u = v ∧ j = i then x else vals u j := by
  unfold setElem Function.update
  by_cases hu : u = v
  · subst hu
    by_cases hj : j = i
    · simp [hj]
    · simp [hj]
  · simp [hu]

@[simp] theorem evalIndex_initDim (env : Env) (refList : List ℕ) : evalIndex env (initDim refList) = refList := by
  unfold evalIndex initDim
  induction refList with
  | nil => rfl
  | cons i is ih => exact congrArg (i :: ·) ih

theorem eval_user {e : Operand} (he : e.IsUser) (env : Env) (vals : Vals) (bReset : Bool) :
    e.eval vals bReset env = e.value env := by
  unfold Operand.value
  induction e with
  | que v indexList range => exact he.elim
  | user member indexList => rfl
  | const op value => rfl
  | reset => exact he.elim
  | binary op a b iha ihb => simp only [Operand.eval, iha he.1, ihb he.2]
  | question a b c iha ihb ihc => simp only [Operand.eval, iha he.1, ihb he.2.1, ihc he.2.2]
  | other value => rfl

/-- The patched expression has the value that was pushed. -/
theorem patch_returns {e : Operand} {indexList : List Index} {env : Env} (he : e.IsUser)
    (hsafe : e.PatchSafe indexList env) :
    ∃ e', e.patch indexList = some e' ∧ ∀ vals bReset, e'.eval vals bReset env = e.value env := by
  have hid : e.getOperator ≠ .tkPlus → e.patch indexList = some e := fun h => if_neg h
  cases e with
  | que v old range => exact he.elim
  | user member old => exact ⟨_, hid EToken.noConfusion, fun vals bReset => rfl⟩
  | const op value => exact ⟨_, hid hsafe, fun vals bReset => rfl⟩
  | reset => exact he.elim
  | question a b c => exact ⟨_, hid EToken.noConfusion, eval_user he env⟩
  | other value => exact ⟨_, hid EToken.noConfusion, fun vals bReset => rfl⟩
  | binary op a b =>
    by_cases hop : op = .tkPlus
    · subst hop
      refine ⟨.binary .tkPlus (a.setIndexList indexList) b, if_pos rfl, fun vals bReset => ?_⟩
      have hb := eval_user he.2 env vals bReset
      have ha : (a.setIndexList indexList).eval vals bReset env = a.value env := by
        cases a with
        | que v old range => exact he.1.elim
        | user member old => exact hsafe
        | reset => exact he.1.elim
        | const op value => rfl
        | other value => rfl
        | binary op a₁ a₂ => exact eval_user he.1 env vals bReset
        | question a₁ a₂ a₃ => exact eval_user he.1 env vals bReset
      simp only [Operand.eval, ha, hb]
      rfl
    · exact ⟨_, hid hop, eval_user he env⟩

/-! ## The statements before the calls -/

section

variable {d : Design} {bReset : Bool} {env : Env} {s : CycleVals}

/-- What holds at `i` once its own step is done holds after all. -/
theorem foldl_at {σ ι : Type} {f : σ → ι → σ} {I P : σ → Prop} {i : ι} (hI : ∀ s j, I s → I (f s j))
    (hset : ∀ s, I s → P (f s i)) (hkeep : ∀ s j, j ≠ i → I s → P s → P (f s j)) [DecidableEq ι] {l : List ι} {s : σ}
    (hs : I s) : I (l.foldl f s) ∧ (i ∈ l ∨ P s → P (l.foldl f s)) := by
  induction l generalizing s with
  | nil => exact ⟨hs, fun h => h.resolve_left List.not_mem_nil⟩
  | cons j l ih =>
    obtain ⟨hI', hP'⟩ := ih (hI s j hs)
    refine ⟨hI', fun h => hP' ?_⟩
    by_cases hij : j = i
    · subst hij
      exact .inr (hset s hs)
    · obtain h | h := h
      · exact .inl ((List.mem_cons.1 h).resolve_left fun h => hij h.symm)
      · exact .inr (hkeep s j hij hs h)

theorem execs_flatMap (f : List ℕ → List Stmt) (is : List (List ℕ)) :
    d.execs bReset env s (is.flatMap f) = is.foldl (fun s i => d.execs bReset env s (f i)) s := by
  induction is generalizing s with
  | nil => rfl
  | cons i is ih =>
    unfold Design.execs at ih ⊢
    rw [List.flatMap_cons, List.foldl_append, List.foldl_cons]
    exact ih

theorem execs_append (sts sts' : List Stmt) :
    d.execs bReset env s (sts ++ sts') = d.execs bReset env (d.execs bReset env s sts) sts' := List.foldl_append

/-- An assignment to an element of a variable. -/
theorem exec_que (v : QueVar) (indexList : List Index) (e : Operand) :
    d.exec bReset env s ⟨.que v indexList none, e⟩ =
      let x := trunc (v.width d.addrWidth d.dataWidth) (e.eval s.cur bReset env)
      if v.isReg then { s with next := setElem s.next v (evalIndex env indexList) x }
      else { s with cur := setElem s.cur v (evalIndex env indexList) x } := rfl

/-- The values after the statements before the calls. -/
structure Idle (s₀ : CycleVals) (s : CycleVals) : Prop where
  next : s.next = s₀.next
  rWrAddr : s.cur .rWrAddr = s₀.cur .rWrAddr
  rWrAddr2 : s.cur .rWrAddr2 = s₀.cur .rWrAddr2
  rRdAddr : s.cur .rRdAddr = s₀.cur .rRdAddr
  cRdData : s.cur .cRdData = s₀.cur .cRdData

/-- An element that is neither pushed nor popped. -/
structure IdleAt (i : List ℕ) (s : CycleVals) : Prop where
  cWrEn : s.cur .cWrEn i = 0
  cWrAddr : s.cur .cWrAddr i = s.cur .rWrAddr i
  cRdAddr : s.cur .cRdAddr i = s.cur .rRdAddr i

theorem preClock_at (d : Design) (bReset : Bool) (env : Env) (s : CycleVals) (j : List ℕ) :
    Idle s (d.execs bReset env s (preClock j)) ∧ (∀ u i, i ≠ j → (d.execs bReset env s (preClock j)).cur u i = s.cur u i) ∧
      (s.cur .rWrAddr j < 2 ^ (d.addrWidth + 1) → s.cur .rRdAddr j < 2 ^ (d.addrWidth + 1) →
        IdleAt j (d.execs bReset env s (preClock j))) := by
  have hexec : d.execs bReset env s (preClock j) =
      ⟨setElem (setElem (setElem (setElem s.cur .cWrEn j 0) .cWrData j 0) .cWrAddr j
        (trunc (d.addrWidth + 1) (s.cur .rWrAddr j))) .cRdAddr j (trunc (d.addrWidth + 1) (s.cur .rRdAddr j)), s.next⟩ := by
    simp [Design.execs, preClock, exec_que, QueVar.isReg, QueVar.width, Operand.eval, zero, select, setElem_apply, trunc]
  rw [hexec]
  refine ⟨⟨rfl, ?_, ?_, ?_, ?_⟩, fun u i hi => ?_, fun hwr hrd => ⟨?_, ?_, ?_⟩⟩
  · funext i; simp [setElem_apply]
  · funext i; simp [setElem_apply]
  · funext i; simp [setElem_apply]
  · funext i; simp [setElem_apply]
  · simp [setElem_apply, hi]
  · simp [setElem_apply]
  · simp [setElem_apply, trunc_of_lt hwr]
  · simp [setElem_apply, trunc_of_lt hrd]

theorem preClock_returns {is : List (List ℕ)} {i : List ℕ} (hwr : ∀ i ∈ is, s.cur .rWrAddr i < 2 ^ (d.addrWidth + 1))
    (hrd : ∀ i ∈ is, s.cur .rRdAddr i < 2 ^ (d.addrWidth + 1)) (hi : i ∈ is) :
    Idle s (d.execs bReset env s (is.flatMap preClock)) ∧ IdleAt i (d.execs bReset env s (is.flatMap preClock)) := by
  rw [execs_flatMap]
  have hstep : ∀ s' j, Idle s s' → Idle s (d.execs bReset env s' (preClock j)) := by
    intro s' j h
    obtain ⟨h', -, -⟩ := preClock_at d bReset env s' j
    exact ⟨h'.next.trans h.next, h'.rWrAddr.trans h.rWrAddr, h'.rWrAddr2.trans h.rWrAddr2, h'.rRdAddr.trans h.rRdAddr,
      h'.cRdData.trans h.cRdData⟩
  have hset : ∀ s', Idle s s' → IdleAt i (d.execs bReset env s' (preClock i)) := by
    intro s' h
    refine (preClock_at d bReset env s' i).2.2 ?_ ?_
    · rw [h.rWrAddr]
      exact hwr i hi
    · rw [h.rRdAddr]
      exact hrd i hi
  have hkeep : ∀ s' j, j ≠ i → Idle s s' → IdleAt i s' → IdleAt i (d.execs bReset env s' (preClock j)) := by
    intro s' j hj _ hat
    obtain ⟨-, hother, -⟩ := preClock_at d bReset env s' j
    refine ⟨?_, ?_, ?_⟩
    · rw [hother _ i hj.symm, hat.cWrEn]
    · rw [hother _ i hj.symm, hother _ i hj.symm, hat.cWrAddr]
    · rw [hother _ i hj.symm, hother _ i hj.symm, hat.cRdAddr]
  obtain ⟨hidle, hat⟩ := foldl_at hstep hset hkeep ⟨rfl, rfl, rfl, rfl, rfl⟩
  exact ⟨hidle, hat (.inl hi)⟩

/-! ## The calls -/

/-- An element between the calls: what is pushed and popped of `q₀`, and what the wires say. -/
structure Mid (c : QueClass) (addrWidth : ℕ) (bReset : Bool) (q₀ q : Que ℕ) (cur : Vals) (i : List ℕ) : Prop where
  fields : q = { q₀ with bPush := q.bPush, bPop := q.bPop, pushData := q.pushData }
  cWrAddr : cur .cWrAddr i = (cur .rWrAddr i + cur .cWrEn i) % 2 ^ (addrWidth + 1)
  push : bReset = false → q.bPush.toNat = cur .cWrEn i ∧ (q.bPush = true → q.pushData = cur .cWrData i)
  stored : bReset = true → cur .cWrEn i ≠ 0 → cur .cWrData i = q₀.que (q₀.wrIdx % 2 ^ addrWidth)
  pop : bReset = false → cur .cRdAddr i = (cur .rRdAddr i + q.bPop.toNat) % 2 ^ (addrWidth + 1)
  notEmpty : q.bPop = true → q₀.empty c = false

/-- What a call needs of the queues at the start of the cycle. -/
structure CallOk (c : QueClass) (d : Design) (bReset : Bool) (qs : Queues) (call : Call) : Prop where
  push : ∀ e, call.op = .push e → e.IsUser ∧ (qs call.elem).full d.addrWidth = false ∧
    e.PatchSafe call.indexList call.env ∧ (bReset = true →
      trunc d.dataWidth (e.value call.env) = (qs call.elem).que ((qs call.elem).wrIdx % 2 ^ d.addrWidth))
  pop : call.op = .pop → (qs call.elem).empty c = false
  ready : bReset = false → (qs call.elem).bPopWasReset = true ∧ (qs call.elem).bPushWasReset = true

theorem push_stmts {indexList : List Index} {e : Operand} (n : ℕ) (he : e.IsUser) (hsafe : e.PatchSafe indexList env)
    (d : Design) (bReset : Bool) (s : CycleVals) :
    ∃ sts, parsePush n indexList e = some sts ∧ d.execs bReset env s sts =
      ⟨setElem (setElem (setElem s.cur .cWrData (evalIndex env indexList) (trunc d.dataWidth (e.value env)))
        .cWrEn (evalIndex env indexList) 1) .cWrAddr (evalIndex env indexList)
          ((s.cur .rWrAddr (evalIndex env indexList) + 1) % 2 ^ (d.addrWidth + 1)), s.next⟩ := by
  obtain ⟨e', hpatch, hvalue⟩ := patch_returns he hsafe
  have hone : trunc 1 1 = 1 := rfl
  have hcast : ∀ x : ℕ, trunc (d.addrWidth + 1) ((x : Int) + 1) = (x + 1) % 2 ^ (d.addrWidth + 1) :=
    fun x => trunc_nat _ (x + 1)
  -- each assignment has its left side patched, and the sums their first operand
  have hdata : Stmt.patch indexList ⟨.que .cWrData (refDim n) none, e⟩ = some ⟨.que .cWrData indexList none, e'⟩ := by
    rw [Stmt.patch, hpatch]
    rfl
  have hen : Stmt.patch indexList ⟨.que .cWrEn (refDim n) none, one⟩ = some ⟨.que .cWrEn indexList none, one⟩ := rfl
  have haddr : Stmt.patch indexList ⟨.que .cWrAddr (refDim n) none, .binary .tkPlus (.que .rWrAddr (refDim n) none) one⟩ =
      some ⟨.que .cWrAddr indexList none, .binary .tkPlus (.que .rWrAddr indexList none) one⟩ := rfl
  refine ⟨_, by simp only [parsePush, pushStmts, List.mapM_cons, List.mapM_nil, hdata, hen, haddr]; rfl, ?_⟩
  simp [Design.execs, exec_que, QueVar.isReg, QueVar.width, Operand.eval, EToken.eval, select, hvalue, hone, hcast,
    setElem_apply, one]

theorem pop_stmts (indexList : List Index) (n : ℕ) (d : Design) (bReset : Bool) (env : Env) (s : CycleVals) :
    ∃ sts, parsePop n indexList = some sts ∧ d.execs bReset env s sts =
      ⟨setElem s.cur .cRdAddr (evalIndex env indexList)
        ((s.cur .rRdAddr (evalIndex env indexList) + 1) % 2 ^ (d.addrWidth + 1)), s.next⟩ := by
  have hcast : ∀ x : ℕ, trunc (d.addrWidth + 1) ((x : Int) + 1) = (x + 1) % 2 ^ (d.addrWidth + 1) :=
    fun x => trunc_nat _ (x + 1)
  have hpatch : Stmt.patch indexList ⟨.que .cRdAddr (refDim n) none, .binary .tkPlus (.que .rRdAddr (refDim n) none) one⟩ =
      some ⟨.que .cRdAddr indexList none, .binary .tkPlus (.que .rRdAddr indexList none) one⟩ := rfl
  refine ⟨_, by simp only [parsePop, List.mapM_cons, List.mapM_nil, hpatch]; rfl, ?_⟩
  simp [Design.execs, exec_que, QueVar.isReg, QueVar.width, Operand.eval, EToken.eval, select, hcast, one]

theorem push_returns {q : Que ℕ} {addrBits : ℕ} (hfull : q.full addrBits = false) (hbPush : q.bPush = false) (data : ℕ) :
    q.push addrBits data =
      .ok (if q.bPopWasReset && q.bPushWasReset then { q with bPush := true, pushData := data } else q) := by
  unfold Que.push
  split
  · rw [hfull, hbPush]
    rfl
  · rfl

theorem pop_returns {c : QueClass} {q : Que ℕ} (hempty : q.empty c = false) (hbPop : q.bPop = false) :
    q.pop c = .ok (if q.bPopWasReset && q.bPushWasReset then { q with bPop := true } else q) := by
  unfold Que.pop
  split
  · rw [hempty, hbPop]
    rfl
  · rfl

variable {c : QueClass} {q₀ q : Que ℕ} {cur cur' : Vals} {i : List ℕ}

theorem Mid.flags (h : Mid c d.addrWidth bReset q₀ q cur i) :
    q.full d.addrWidth = q₀.full d.addrWidth ∧ q.empty c = q₀.empty c ∧ q.bPopWasReset = q₀.bPopWasReset ∧
      q.bPushWasReset = q₀.bPushWasReset := by
  refine ⟨?_, ?_, ?_, ?_⟩
  · rw [h.fields]
    rfl
  · rw [h.fields]
    cases c <;> rfl
  · rw [h.fields]
  · rw [h.fields]

/-- A push of this element. -/
theorem Mid.pushed (h : Mid c d.addrWidth bReset q₀ q cur i) {data : ℕ} {b : Bool} (hb : bReset = false → b = true)
    (hstored : bReset = true → data = q₀.que (q₀.wrIdx % 2 ^ d.addrWidth)) :
    Mid c d.addrWidth bReset q₀ (if b then { q with bPush := true, pushData := data } else q)
      (setElem (setElem (setElem cur .cWrData i data) .cWrEn i 1) .cWrAddr i
        ((cur .rWrAddr i + 1) % 2 ^ (d.addrWidth + 1))) i := by
  have hbPop : (if b then { q with bPush := true, pushData := data } else q).bPop = q.bPop := by
    split <;> rfl
  refine ⟨?_, ?_, fun hr => ?_, fun hr _ => ?_, fun hr => ?_, fun hp => ?_⟩
  · cases b with
    | false => exact h.fields
    | true => exact congrArg (fun q => { q with bPush := true, pushData := data }) h.fields
  · simp [setElem_apply]
  · rw [hb hr]
    simp [setElem_apply]
  · simp [setElem_apply, hstored hr]
  · rw [hbPop]
    simp [setElem_apply, h.pop hr]
  · rw [hbPop] at hp
    exact h.notEmpty hp

/-- A pop of this element. -/
theorem Mid.popped (h : Mid c d.addrWidth bReset q₀ q cur i) {b : Bool} (hb : bReset = false → b = true)
    (hempty : q₀.empty c = false) :
    Mid c d.addrWidth bReset q₀ (if b then { q with bPop := true } else q)
      (setElem cur .cRdAddr i ((cur .rRdAddr i + 1) % 2 ^ (d.addrWidth + 1))) i := by
  have hbPush : (if b then { q with bPop := true } else q).bPush = q.bPush ∧
      (if b then { q with bPop := true } else q).pushData = q.pushData := by
    split <;> exact ⟨rfl, rfl⟩
  refine ⟨?_, ?_, fun hr => ?_, fun hr hen => ?_, fun hr => ?_, fun _ => hempty⟩
  · cases b with
    | false => exact h.fields
    | true => exact congrArg (fun q => { q with bPop := true }) h.fields
  · simp [setElem_apply, h.cWrAddr]
  · rw [hbPush.1, hbPush.2]
    simpa [setElem_apply] using h.push hr
  · simp only [setElem_apply, reduceCtorEq, false_and, if_false] at hen ⊢
    exact h.stored hr hen
  · rw [hb hr]
    simp [setElem_apply]

/-- Another element. -/
theorem Mid.other (h : Mid c d.addrWidth bReset q₀ q cur i) (hcur : ∀ v, cur' v i = cur v i) :
    Mid c d.addrWidth bReset q₀ q cur' i := by
  refine ⟨h.fields, ?_, fun hr => ?_, fun hr hen => ?_, fun hr => ?_, h.notEmpty⟩
  · rw [hcur, hcur, hcur]
    exact h.cWrAddr
  · rw [hcur, hcur]
    exact h.push hr
  · rw [hcur] at hen ⊢
    exact h.stored hr hen
  · rw [hcur, hcur]
    exact h.pop hr

/-- The elements of `refs` are between calls. -/
def MidAll (c : QueClass) (d : Design) (bReset : Bool) (refs : List (List ℕ)) (qs₀ qs : Queues) (s : CycleVals) : Prop :=
  ∀ i ∈ refs, Mid c d.addrWidth bReset (qs₀ i) (qs i) s.cur i

/-- The element has not been pushed, or popped. -/
def Free (qs : Queues) (call : Call) : Prop :=
  if call.op.isPush then (qs call.elem).bPush = false else (qs call.elem).bPop = false

/-- **A call** does the same to the object and to the wires, and leaves the other elements alone. -/
theorem call_mid {refs : List (List ℕ)} {qs₀ qs : Queues} {call : Call} (n : ℕ) (hok : CallOk c d bReset qs₀ call)
    (helem : call.elem ∈ refs) (hmid : MidAll c d bReset refs qs₀ qs s) (hfree : Free qs call) :
    ∃ qs' sts, call.run c d qs = .ok qs' ∧ call.stmts n = some sts ∧ Idle s (d.execs bReset call.env s sts) ∧
      MidAll c d bReset refs qs₀ qs' (d.execs bReset call.env s sts) ∧
        ∀ other : Call, (other.op.isPush = call.op.isPush → other.elem ≠ call.elem) → Free qs other → Free qs' other := by
  have hat := hmid call.elem helem
  obtain ⟨hfull, hempty, hpopReset, hpushReset⟩ := hat.flags
  have hflag : bReset = false → ((qs call.elem).bPopWasReset && (qs call.elem).bPushWasReset) = true := by
    intro hr
    obtain ⟨h₁, h₂⟩ := hok.ready hr
    rw [hpopReset, hpushReset, h₁, h₂]
    rfl
  cases hop : call.op with
  | push e =>
    obtain ⟨huser, hnotFull, hsafe, hstored⟩ := hok.push e hop
    rw [Free, hop] at hfree
    have hrun := push_returns (hfull.trans hnotFull) hfree (trunc d.dataWidth (e.value call.env))
    obtain ⟨sts, hsts, hexec⟩ := push_stmts n huser hsafe d bReset s
    have hstmts : call.stmts n = some sts := by rw [Call.stmts, hop]; exact hsts
    refine ⟨_, sts, by rw [Call.run, hop, CallOp.run, hrun]; rfl, hstmts, ?_, fun i hi => ?_, fun other hne hother => ?_⟩
    · rw [hexec]
      refine ⟨rfl, ?_, ?_, ?_, ?_⟩ <;> funext i <;> simp [setElem_apply]
    · rw [hexec]
      by_cases hij : i = call.elem
      · subst hij
        rw [Function.update_self]
        exact hat.pushed hflag hstored
      · rw [Function.update_of_ne hij]
        have hij' : i ≠ evalIndex call.env call.indexList := hij
        refine (hmid i hi).other fun v => ?_
        simp [setElem_apply, hij']
    · unfold Free at hother ⊢
      by_cases hij : other.elem = call.elem
      · have hkind : other.op.isPush = false := by
          cases hk : other.op.isPush with
          | false => rfl
          | true => exact absurd hij (hne (by rw [hk]; rfl))
        rw [hkind] at hother ⊢
        rw [hij] at hother ⊢
        rw [Function.update_self]
        rw [if_neg Bool.false_ne_true] at hother ⊢
        split
        · exact hother
        · exact hother
      · rw [Function.update_of_ne hij]
        exact hother
  | pop =>
    have hnotEmpty := hok.pop hop
    rw [Free, hop] at hfree
    have hrun := pop_returns (hempty.trans hnotEmpty) hfree
    obtain ⟨sts, hsts, hexec⟩ := pop_stmts call.indexList n d bReset call.env s
    have hstmts : call.stmts n = some sts := by rw [Call.stmts, hop]; exact hsts
    refine ⟨_, sts, by rw [Call.run, hop, CallOp.run, hrun]; rfl, hstmts, ?_, fun i hi => ?_, fun other hne hother => ?_⟩
    · rw [hexec]
      refine ⟨rfl, ?_, ?_, ?_, ?_⟩ <;> funext i <;> simp [setElem_apply]
    · rw [hexec]
      by_cases hij : i = call.elem
      · subst hij
        rw [Function.update_self]
        exact hat.popped hflag hnotEmpty
      · rw [Function.update_of_ne hij]
        have hij' : i ≠ evalIndex call.env call.indexList := hij
        refine (hmid i hi).other fun v => ?_
        simp [setElem_apply, hij']
    · unfold Free at hother ⊢
      by_cases hij : other.elem = call.elem
      · have hkind : other.op.isPush = true := by
          cases hk : other.op.isPush with
          | true => rfl
          | false => exact absurd hij (hne (by rw [hk]; rfl))
        rw [hkind] at hother ⊢
        rw [hij] at hother ⊢
        rw [Function.update_self]
        rw [if_pos rfl] at hother ⊢
        split
        · exact hother
        · exact hother
      · rw [Function.update_of_ne hij]
        exact hother

theorem Idle.trans {s₁ s₂ : CycleVals} (h₁ : Idle s s₁) (h₂ : Idle s₁ s₂) : Idle s s₂ :=
  ⟨h₂.next.trans h₁.next, h₂.rWrAddr.trans h₁.rWrAddr, h₂.rWrAddr2.trans h₁.rWrAddr2, h₂.rRdAddr.trans h₁.rRdAddr,
    h₂.cRdData.trans h₁.cRdData⟩

/-- All calls of a cycle. -/
theorem calls_mid {refs : List (List ℕ)} {qs₀ qs : Queues} {calls : List Call}
    (hok : ∀ call ∈ calls, CallOk c d bReset qs₀ call) (helem : ∀ call ∈ calls, call.elem ∈ refs)
    (honce : calls.Pairwise fun a b => a.op.isPush = b.op.isPush → a.elem ≠ b.elem)
    (hmid : MidAll c d bReset refs qs₀ qs s) (hfree : ∀ call ∈ calls, Free qs call) :
    ∃ qs' s', runCalls c d calls qs = .ok qs' ∧ d.execCalls bReset calls s = some s' ∧ Idle s s' ∧
      MidAll c d bReset refs qs₀ qs' s' := by
  induction calls generalizing qs s with
  | nil => exact ⟨qs, s, rfl, rfl, ⟨rfl, rfl, rfl, rfl, rfl⟩, hmid⟩
  | cons call calls ih =>
    obtain ⟨hne, honce⟩ := List.pairwise_cons.1 honce
    obtain ⟨qs₁, sts, hrun, hsts, hidle, hmid₁, hfree₁⟩ := call_mid d.dimenList.length (hok call (.head _))
      (helem call (.head _)) hmid (hfree call (.head _))
    obtain ⟨qs', s', hruns, hexecs, hidle', hmid'⟩ := ih (fun a ha => hok a (.tail _ ha)) (fun a ha => helem a (.tail _ ha))
      honce hmid₁ fun a ha => hfree₁ a (fun hk he => hne a ha hk.symm he.symm) (hfree a (.tail _ ha))
    refine ⟨qs', s', ?_, ?_, hidle.trans hidle', hmid'⟩
    · rw [runCalls, hrun]
      exact hruns
    · rw [Design.execCalls, hsts]
      exact hexecs

/-! ## The statements of the clock -/

/-- What the clock statements make of an element. -/
structure Clocked (d : Design) (bReset : Bool) (cur : Vals) (i : List ℕ) (s : CycleVals) : Prop where
  cCnt : s.cur .cCnt i = trunc (d.addrWidth + 1) ((cur .rWrAddr i : Int) - cur .rRdAddr i)
  rWrAddr2 : d.kind.bCmpWrIdx2 = true →
    s.next .rWrAddr2 i = trunc (d.addrWidth + 1) (if bReset then 0 else cur .rWrAddr i)
  rWrAddr : s.next .rWrAddr i = trunc (d.addrWidth + 1) (if bReset then 0 else cur .cWrAddr i)

/-- The only wire that the clock statements assign. -/
def SameWires (cur : Vals) (s : CycleVals) : Prop := ∀ v, v ≠ .cCnt → s.cur v = cur v

theorem pushClock_at (d : Design) (bReset : Bool) (env : Env) (s : CycleVals) (j : List ℕ) :
    SameWires s.cur (d.execs bReset env s (pushClockStmts d.kind j)) ∧
      Clocked d bReset s.cur j (d.execs bReset env s (pushClockStmts d.kind j)) ∧
        ∀ i, i ≠ j → (∀ v, (d.execs bReset env s (pushClockStmts d.kind j)).cur v i = s.cur v i) ∧
          ∀ v, (d.execs bReset env s (pushClockStmts d.kind j)).next v i = s.next v i := by
  have hexec : d.execs bReset env s (pushClockStmts d.kind j) =
      ⟨setElem s.cur .cCnt j (trunc (d.addrWidth + 1) ((s.cur .rWrAddr j : Int) - s.cur .rRdAddr j)),
        setElem (if d.kind.bCmpWrIdx2 then
            setElem s.next .rWrAddr2 j (trunc (d.addrWidth + 1) (if bReset then 0 else s.cur .rWrAddr j)) else s.next)
          .rWrAddr j (trunc (d.addrWidth + 1) (if bReset then 0 else s.cur .cWrAddr j))⟩ := by
    cases hk : d.kind.bCmpWrIdx2 <;> cases bReset <;>
      simp [Design.execs, pushClockStmts, exec_que, QueVar.isReg, QueVar.width, Operand.eval, EToken.eval, zero, select,
        setElem_apply, hk]
  rw [hexec]
  refine ⟨fun v hv => ?_, ⟨?_, fun hk => ?_, ?_⟩, fun i hi => ⟨fun v => ?_, fun v => ?_⟩⟩
  · funext i
    simp [setElem_apply, hv]
  · simp [setElem_apply]
  · simp [setElem_apply, hk]
  · simp [setElem_apply]
  · simp [setElem_apply, hi]
  · simp only [setElem_apply, hi, and_false, if_false]
    split
    · simp [setElem_apply, hi]
    · rfl

theorem popClock_at (d : Design) (bReset : Bool) (env : Env) (s : CycleVals) (j : List ℕ) :
    d.execs bReset env s (popClockStmts j) =
      ⟨s.cur, setElem s.next .rRdAddr j (trunc (d.addrWidth + 1) (if bReset then 0 else s.cur .cRdAddr j))⟩ := by
  cases bReset <;>
    simp [Design.execs, popClockStmts, exec_que, QueVar.isReg, QueVar.width, Operand.eval, zero, select]

/-- **The clock statements.** -/
theorem clockStmts_returns (d : Design) (bReset : Bool) (env : Env) (s : CycleVals) (hi : i ∈ dimenIter d.dimenList) :
    SameWires s.cur (d.execs bReset env s (clockStmts d.kind d.dimenList)) ∧
      Clocked d bReset s.cur i (d.execs bReset env s (clockStmts d.kind d.dimenList)) ∧
        (d.execs bReset env s (clockStmts d.kind d.dimenList)).next .rRdAddr i =
          trunc (d.addrWidth + 1) (if bReset then 0 else s.cur .cRdAddr i) := by
  unfold clockStmts
  rw [execs_append, execs_flatMap, execs_flatMap]
  -- the push side, element by element
  have hstep : ∀ s' j, SameWires s.cur s' → SameWires s.cur (d.execs bReset env s' (pushClockStmts d.kind j)) :=
    fun s' j h v hv => ((pushClock_at d bReset env s' j).1 v hv).trans (h v hv)
  have hset : ∀ s', SameWires s.cur s' → Clocked d bReset s.cur i (d.execs bReset env s' (pushClockStmts d.kind i)) := by
    intro s' h
    obtain ⟨hcnt, hwr2, hwr⟩ := (pushClock_at d bReset env s' i).2.1
    rw [h _ (by decide), h _ (by decide)] at hcnt
    rw [h _ (by decide)] at hwr2 hwr
    exact ⟨hcnt, hwr2, hwr⟩
  have hkeep : ∀ s' j, j ≠ i → SameWires s.cur s' → Clocked d bReset s.cur i s' →
      Clocked d bReset s.cur i (d.execs bReset env s' (pushClockStmts d.kind j)) := by
    intro s' j hj _ h
    obtain ⟨hcur, hnext⟩ := (pushClock_at d bReset env s' j).2.2 i hj.symm
    refine ⟨?_, fun hk => ?_, ?_⟩
    · rw [hcur, h.cCnt]
    · rw [hnext, h.rWrAddr2 hk]
    · rw [hnext, h.rWrAddr]
  obtain ⟨hwires, hclocked⟩ := foldl_at (l := dimenIter d.dimenList) hstep hset hkeep fun v _ => rfl
  replace hclocked := hclocked (.inl hi)
  generalize (dimenIter d.dimenList).foldl (fun s i => d.execs bReset env s (pushClockStmts d.kind i)) s = s₁ at hwires hclocked
  -- the pop side
  have hstep' : ∀ s' j, s'.cur = s₁.cur ∧ s'.next .rWrAddr = s₁.next .rWrAddr ∧ s'.next .rWrAddr2 = s₁.next .rWrAddr2 →
      (d.execs bReset env s' (popClockStmts j)).cur = s₁.cur ∧
        (d.execs bReset env s' (popClockStmts j)).next .rWrAddr = s₁.next .rWrAddr ∧
          (d.execs bReset env s' (popClockStmts j)).next .rWrAddr2 = s₁.next .rWrAddr2 := by
    intro s' j h
    rw [popClock_at]
    refine ⟨h.1, Eq.trans ?_ h.2.1, Eq.trans ?_ h.2.2⟩
    · funext i
      simp [setElem_apply]
    · funext i
      simp [setElem_apply]
  obtain ⟨⟨hcur, hwr, hwr2⟩, hrd⟩ := foldl_at (i := i) (l := dimenIter d.dimenList) hstep'
    (P := fun s' => s'.next .rRdAddr i = trunc (d.addrWidth + 1) (if bReset then 0 else s₁.cur .cRdAddr i))
    (by
      intro s' h
      rw [popClock_at, h.1]
      simp [setElem_apply])
    (by
      intro s' j hj h hP
      rw [popClock_at]
      simpa [setElem_apply, hj.symm] using hP)
    ⟨rfl, rfl, rfl⟩
  refine ⟨fun v hv => ?_, ⟨?_, fun hk => ?_, ?_⟩, ?_⟩
  · rw [hcur, hwires v hv]
  · rw [hcur, hclocked.cCnt]
  · rw [hwr2, hclocked.rWrAddr2 hk]
  · rw [hwr, hclocked.rWrAddr]
  · rw [hrd (.inl hi), hwires _ (by decide)]

/-! ## A cycle -/

theorem trunc_sub {w x y : ℕ} (hx : x < 2 ^ w) (hy : y < 2 ^ w) :
    trunc w ((x : Int) - y) = if x ≥ y then x - y else x + 2 ^ w - y := by
  unfold trunc
  split
  next h =>
    have hcast : (x : Int) - y = ((x - y : ℕ) : Int) := by omega
    rw [hcast, ← Int.natCast_emod, Nat.mod_eq_of_lt (by omega), Int.toNat_natCast]
  next h =>
    have hcast : (x : Int) - y = ((x + 2 ^ w - y : ℕ) : Int) + -1 * ((2 ^ w : ℕ) : Int) := by omega
    rw [hcast, Int.add_mul_emod_self_right, ← Int.natCast_emod, Nat.mod_eq_of_lt (by omega), Int.toNat_natCast]

section

variable {addrWidth wr wr2 rd : ℕ} {ram : ℕ → ℕ}

/-- **The calls that return a value** return the same. -/
theorem Agree.result (h : Agree c d.addrWidth q wr wr2 rd ram) (hab : d.addrWidth < c.addrLimit)
    (hkind : d.kind.bCmpWrIdx2 = c.bCmpWrIdx2) {vals : Vals} {indexList : List Index} {query : Query} {x : Int}
    (hwr : vals .rWrAddr (evalIndex env indexList) = wr) (hwr2 : vals .rWrAddr2 (evalIndex env indexList) = wr2)
    (hrd : vals .rRdAddr (evalIndex env indexList) = rd)
    (hcnt : vals .cCnt (evalIndex env indexList) = trunc (d.addrWidth + 1) ((wr : Int) - rd))
    (hdata : vals .cRdData (evalIndex env indexList) = ram (rd % 2 ^ d.addrWidth))
    (hx : d.result vals bReset env indexList query = some x) : x = queResult c d.addrWidth q query := by
  have hpow := QueInv.pow_lt hab
  have hM : 2 ^ (d.addrWidth + 1) = 2 ^ d.addrWidth * 2 := Nat.pow_succ 2 d.addrWidth
  have hpos := Nat.two_pow_pos d.addrWidth
  have hwr_lt := h.wr_lt
  have hrd_lt := h.rd_lt
  have hsize : q.size d.addrWidth = trunc (d.addrWidth + 1) ((wr : Int) - rd) := by
    unfold Que.size ScSignal.read
    rw [h.cmpWr, h.cmpRd, trunc_sub h.wr_lt h.rd_lt]
    show Que.u32 (if wr ≥ rd then wr - rd else wr + 2 ^ (d.addrWidth + 1) - rd) = _
    apply Que.u32_of_lt
    split
    next => omega
    next => omega
  unfold Design.result at hx
  cases query with
  | size =>
    obtain rfl := Option.some.inj hx
    simp only [Operand.setIndexList, Operand.eval, hcnt, select, queResult, hsize]
  | readAddr =>
    obtain rfl := Option.some.inj hx
    have hw : ((d.addrWidth : Int) - 1 + 1 - 0).toNat = d.addrWidth := by omega
    simp only [Operand.setIndexList, Operand.eval, hrd, select, hw, Int.toNat_zero, Nat.pow_zero, Nat.div_one, queResult,
      Que.readAddr, h.rdIdx]
  | writeAddr =>
    obtain rfl := Option.some.inj hx
    have hw : ((d.addrWidth : Int) - 1 + 1 - 0).toNat = d.addrWidth := by omega
    simp only [Operand.setIndexList, Operand.eval, hwr, select, hw, Int.toNat_zero, Nat.pow_zero, Nat.div_one, queResult,
      Que.writeAddr, h.wrIdx]
  | front =>
    obtain rfl := Option.some.inj hx
    have hcell := h.cells (rd % 2 ^ d.addrWidth) (Nat.mod_lt _ hpos)
    simp only [Operand.setIndexList, Operand.eval, hdata, select, queResult, Que.front, h.rdIdx, hcell]
  | empty =>
    obtain rfl := Option.some.inj hx
    rw [hkind]
    have hempty : q.empty c = decide ((if c.bCmpWrIdx2 then wr2 else wr) = rd) := by
      cases c with
      | htDistQue =>
        simp only [Que.empty, ScSignal.read, h.cmpWr, h.cmpRd]
        rfl
      | htBlockQue =>
        simp only [Que.empty, ScSignal.read, h.cmpWr2 rfl, h.cmpRd]
        rfl
      | htUltraQue =>
        simp only [Que.empty, ScSignal.read, h.cmpWr2 rfl, h.cmpRd]
        rfl
    have hval : vals (if c.bCmpWrIdx2 then .rWrAddr2 else .rWrAddr) (evalIndex env indexList) =
        if c.bCmpWrIdx2 then wr2 else wr := by
      split
      next => exact hwr2
      next => exact hwr
    simp only [Operand.setIndexList, Operand.eval, EToken.eval, hval, hrd, select, queResult, hempty, Int.natCast_inj,
      decide_eq_true_eq]
  | full num =>
    have hnum : ¬num > 2 ^ d.addrWidth - 1 := by
      intro hgt
      rw [parseHtQueueExpr, if_pos hgt] at hx
      cases hx
    rw [parseHtQueueExpr, if_neg hnum] at hx
    obtain rfl := Option.some.inj hx
    have hu32 : Que.u32 (2 ^ d.addrWidth + 2 ^ 32 - num) = 2 ^ d.addrWidth - num := by
      have hsplit : 2 ^ d.addrWidth + 2 ^ 32 - num = 2 ^ d.addrWidth - num + 2 ^ 32 := by omega
      rw [Que.u32, hsplit, Nat.add_mod_right, Nat.mod_eq_of_lt (by omega)]
    have hge : ((q.size d.addrWidth : Int) ≥ ((2 ^ d.addrWidth : ℕ) : Int) - num) ↔
        q.size d.addrWidth ≥ 2 ^ d.addrWidth - num := by omega
    simp only [Operand.setIndexList, Operand.eval, EToken.eval, hcnt, select, queResult, Que.fullNum, hu32, ← hsize, hge,
      decide_eq_true_eq]

/-- **A clock of an element.** -/
theorem Agree.clock (h : Agree c d.addrWidth q₀ wr wr2 rd ram) (hab : d.addrWidth < c.addrLimit)
    (hkind : d.kind.bCmpWrIdx2 = c.bCmpWrIdx2) (hmid : Mid c d.addrWidth bReset q₀ q cur i) (hwr : cur .rWrAddr i = wr)
    (hrd : cur .rRdAddr i = rd) (hclock : Clocked d bReset cur i s) (hreset : bReset = true → c.bCmpWrIdx2 = true → wr = 0)
    (hrdNext : s.next .rRdAddr i = trunc (d.addrWidth + 1) (if bReset then 0 else cur .cRdAddr i)) :
    ∃ q', q.clock c d.addrWidth bReset = .ok q' ∧ Agree c d.addrWidth q' (s.next .rWrAddr i) (s.next .rWrAddr2 i)
      (s.next .rRdAddr i)
      (if cur .cWrEn i ≠ 0 then Function.update ram (cur .rWrAddr i % 2 ^ d.addrWidth) (cur .cWrData i) else ram) := by
  obtain ⟨-, hempty, -, -⟩ := hmid.flags
  have hM : 2 ^ (d.addrWidth + 1) = 2 ^ d.addrWidth * 2 := Nat.pow_succ 2 d.addrWidth
  have hpow := QueInv.pow_lt hab
  have hMpos := Nat.two_pow_pos (d.addrWidth + 1)
  have hwr_lt := h.wr_lt
  have hrd_lt := h.rd_lt
  have hcmpWr : q.cmpWrIdx = ⟨wr, wr⟩ := by rw [hmid.fields]; exact h.cmpWr
  have hcmpRd : q.cmpRdIdx = ⟨rd, rd⟩ := by rw [hmid.fields]; exact h.cmpRd
  have hque : q.que = q₀.que := by rw [hmid.fields]
  have hwrIdx : q.wrIdx = q₀.wrIdx := by rw [hmid.fields]
  -- the indices after the clock
  have hwrNext : s.next .rWrAddr i = Que.scUint d.addrWidth (q.nextWrIdx bReset) := by
    rw [hclock.rWrAddr, Que.scUint, Que.nextWrIdx]
    cases bReset with
    | true => exact trunc_nat _ 0
    | false =>
      obtain ⟨hen, -⟩ := hmid.push rfl
      have haddr := hmid.cWrAddr
      rw [← hen, hwr] at haddr
      rw [if_neg Bool.false_ne_true, if_neg Bool.false_ne_true, trunc_nat, haddr, Nat.mod_mod, hcmpWr]
      cases q.bPush with
      | false => rfl
      | true =>
        have hu32 : Que.u32 (wr + 1) = wr + 1 := Que.u32_of_lt (by omega)
        show (wr + 1) % 2 ^ (d.addrWidth + 1) = Que.u32 (wr + 1) % 2 ^ (d.addrWidth + 1)
        rw [hu32]
  have hrdNext' : s.next .rRdAddr i = Que.scUint d.addrWidth (q.nextRdIdx bReset) := by
    rw [hrdNext, Que.scUint, Que.nextRdIdx]
    cases bReset with
    | true => exact trunc_nat _ 0
    | false =>
      rw [if_neg Bool.false_ne_true, if_neg Bool.false_ne_true, trunc_nat, hmid.pop rfl, Nat.mod_mod, hrd, hcmpRd]
      cases q.bPop with
      | false => rfl
      | true =>
        have hu32 : Que.u32 (rd + 1) = rd + 1 := Que.u32_of_lt (by omega)
        show (rd + 1) % 2 ^ (d.addrWidth + 1) = Que.u32 (rd + 1) % 2 ^ (d.addrWidth + 1)
        rw [hu32]
  have hslot : ∀ x, x % 2 ^ d.addrWidth = Que.scUint d.addrWidth x % 2 ^ d.addrWidth := fun x =>
    (Nat.mod_mod_of_dvd x ⟨2, hM⟩).symm
  refine ⟨_, Que.clock_returns fun hp => hempty.trans (hmid.notEmpty hp),
    ⟨?_, ?_, fun hc => ?_, ?_, ?_, fun a ha => ?_, rfl, rfl, ?_, ?_⟩⟩
  · rw [hwrNext]
    rfl
  · rw [hrdNext']
    rfl
  · have hwr2 : s.next .rWrAddr2 i = wr := by
      rw [hclock.rWrAddr2 (hkind.trans hc), hwr]
      cases bReset with
      | true => rw [hreset rfl hc]; exact trunc_nat _ 0
      | false => exact trunc_of_lt hwr_lt
    rw [hwr2]
    show (if c.bCmpWrIdx2 then q.cmpWrIdx2.write q.cmpWrIdx.read else q.cmpWrIdx2).update = _
    rw [if_pos hc, hcmpWr]
    rfl
  · rw [hwrNext]
    exact hslot _
  · rw [hrdNext']
    exact hslot _
  · show (if bReset then q.que else q.store d.addrWidth) a = _
    have hcell := h.cells a ha
    have haddr : cur .rWrAddr i % 2 ^ d.addrWidth = q₀.wrIdx % 2 ^ d.addrWidth := by rw [hwr, h.wrIdx]
    rw [haddr]
    cases hr : bReset with
    | true =>
      rw [if_pos rfl, hque]
      split
      next hen =>
        rw [hmid.stored hr hen, Function.update_apply]
        split
        next heq => rw [heq]
        next => exact hcell
      next => exact hcell
    | false =>
      obtain ⟨hen, hdata⟩ := hmid.push hr
      rw [if_neg Bool.false_ne_true, Que.store, hque, hwrIdx, ← hen]
      cases hb : q.bPush with
      | false => exact hcell
      | true =>
        rw [if_pos rfl, if_pos (by decide), hdata hb, Function.update_apply, Function.update_apply, hcell]
  · rw [hwrNext]
    exact Nat.mod_lt _ hMpos
  · rw [hrdNext']
    exact Nat.mod_lt _ hMpos

end

theorem dimenIter_nodup (dims : List ℕ) : (dimenIter dims).Nodup := by
  induction dims with
  | nil => exact List.nodup_singleton []
  | cons n dims ih =>
    unfold dimenIter
    refine List.nodup_flatMap.2 ⟨fun k _ => ih.map fun a b h => (List.cons.inj h).2, ?_⟩
    refine List.nodup_range.imp fun {k k'} hne => ?_
    intro l hl hl'
    obtain ⟨a, -, rfl⟩ := List.mem_map.1 hl
    obtain ⟨b, -, hb⟩ := List.mem_map.1 hl'
    exact hne (List.cons.inj hb).1.symm

/-- Every queue is clocked once. -/
theorem clockAll_returns {P : List ℕ → Que ℕ → Prop} {l : List (List ℕ)} {qs : Queues} (hnd : l.Nodup)
    (hclock : ∀ i ∈ l, ∃ q', (qs i).clock c d.addrWidth bReset = .ok q' ∧ P i q') :
    ∃ qs', clockAll c d bReset l qs = .ok qs' ∧ (∀ i ∈ l, P i (qs' i)) ∧ ∀ i, i ∉ l → qs' i = qs i := by
  induction l generalizing qs with
  | nil => exact ⟨qs, rfl, fun i hi => absurd hi List.not_mem_nil, fun i _ => rfl⟩
  | cons j l ih =>
    obtain ⟨hj, hnd⟩ := List.nodup_cons.1 hnd
    obtain ⟨q', hq', hP⟩ := hclock j (.head _)
    obtain ⟨qs', hrest, hin, hout⟩ := @ih (Function.update qs j q') hnd fun i hi => by
      rw [Function.update_of_ne (ne_of_mem_of_not_mem hi hj)]
      exact hclock i (.tail _ hi)
    refine ⟨qs', ?_, fun i hi => ?_, fun i hi => ?_⟩
    · rw [clockAll, hq']
      exact hrest
    · obtain _ | ⟨_, hi⟩ := hi
      · rw [hout j hj, Function.update_self]
        exact hP
      · exact hin i hi
    · simp only [List.mem_cons, not_or] at hi
      rw [hout i hi.2, Function.update_of_ne hi.1]

/-- The calls of a cycle return what they return on the objects. -/
def SameResults (c : QueClass) (d : Design) (qs : Queues) (vals : Vals) (bReset : Bool) : Prop :=
  ∀ env indexList query x, evalIndex env indexList ∈ dimenIter d.dimenList →
    d.result vals bReset env indexList query = some x →
      x = queResult c d.addrWidth (qs (evalIndex env indexList)) query

/-- **A cycle** keeps the objects and the generated design in step. -/
theorem cycle_agree {qs : Queues} {g : State} {cyc : Cycle} (hab : d.addrWidth < c.addrLimit)
    (hkind : d.kind.bCmpWrIdx2 = c.bCmpWrIdx2) (hagree : AgreeAll c d qs g) (huse : Usage c d qs cyc.calls)
    (hmeets : Meets c d qs cyc) :
    ∃ qs' g' vals, qs.cycle c d cyc = .ok qs' ∧ d.cycle g cyc = some (g', vals) ∧ SameResults c d qs vals cyc.bReset ∧
      AgreeAll c d qs' g' := by
  -- before the calls
  have hpre : ∀ i ∈ dimenIter d.dimenList,
      Idle (d.start g) (d.execs cyc.bReset (fun _ _ => 0) (d.start g) ((dimenIter d.dimenList).flatMap preClock)) ∧
        IdleAt i (d.execs cyc.bReset (fun _ _ => 0) (d.start g) ((dimenIter d.dimenList).flatMap preClock)) := fun i hi =>
    preClock_returns (fun j hj => (hagree j hj).wr_lt) (fun j hj => (hagree j hj).rd_lt) hi
  generalize hs : d.execs cyc.bReset (fun _ _ => 0) (d.start g) ((dimenIter d.dimenList).flatMap preClock) = s₁ at hpre
  have hmid₁ : MidAll c d cyc.bReset (dimenIter d.dimenList) qs qs s₁ := by
    intro i hi
    obtain ⟨hidle, hat⟩ := hpre i hi
    have hag := hagree i hi
    have hwr : s₁.cur .rWrAddr i = g.regs .rWrAddr i := congrFun hidle.rWrAddr i
    have hrd : s₁.cur .rRdAddr i = g.regs .rRdAddr i := congrFun hidle.rRdAddr i
    refine ⟨rfl, ?_, fun _ => ⟨?_, fun hb => ?_⟩, fun _ hen => absurd hat.cWrEn hen, fun _ => ?_, fun hb => ?_⟩
    · rw [hat.cWrAddr, hat.cWrEn, hwr, Nat.add_zero, Nat.mod_eq_of_lt hag.wr_lt]
    · rw [hag.bPush, hat.cWrEn]
      rfl
    · rw [hag.bPush] at hb
      cases hb
    · rw [hat.cRdAddr, hrd, hag.bPop, Bool.toNat_false, Nat.add_zero, Nat.mod_eq_of_lt hag.rd_lt]
    · rw [hag.bPop] at hb
      cases hb
  have hok : ∀ call ∈ cyc.calls, CallOk c d cyc.bReset qs call := fun call hcall =>
    ⟨fun e he => ⟨(huse.push call hcall e he).1, (huse.push call hcall e he).2, hmeets.patch call hcall e he,
      fun hr => hmeets.stored hr call hcall e he⟩, huse.pop call hcall, fun hr => hmeets.ready hr call hcall⟩
  have hfree : ∀ call ∈ cyc.calls, Free qs call := by
    intro call hcall
    have hag := hagree call.elem (huse.elem call hcall)
    unfold Free
    split
    · exact hag.bPush
    · exact hag.bPop
  obtain ⟨qs₂, s₂, hcalls, hexec, hidle₂, hmid₂⟩ := calls_mid hok huse.elem huse.once hmid₁ hfree
  have hidle : ∀ i ∈ dimenIter d.dimenList, Idle (d.start g) s₂ := fun i hi => (hpre i hi).1.trans hidle₂
  -- the clock
  have hclock := fun i (hi : i ∈ dimenIter d.dimenList) =>
    clockStmts_returns d cyc.bReset (fun _ _ => 0) s₂ hi
  generalize hs₃ : d.execs cyc.bReset (fun _ _ => 0) s₂ (clockStmts d.kind d.dimenList) = s₃ at hclock
  have hcycle : d.cycle g cyc = some (⟨s₃.next, d.writeRam s₃.cur g.ram⟩, s₃.cur) := by
    unfold Design.cycle
    rw [hs]
    simp only [hexec, Option.bind_eq_bind, Option.bind_some, hs₃]
  have hregs : ∀ i ∈ dimenIter d.dimenList, s₂.cur .rWrAddr i = g.regs .rWrAddr i ∧ s₂.cur .rWrAddr2 i = g.regs .rWrAddr2 i ∧
      s₂.cur .rRdAddr i = g.regs .rRdAddr i ∧ s₂.cur .cRdData i = g.ram i (g.regs .rRdAddr i % 2 ^ d.addrWidth) := fun i hi =>
    ⟨congrFun (hidle i hi).rWrAddr i, congrFun (hidle i hi).rWrAddr2 i, congrFun (hidle i hi).rRdAddr i,
      congrFun (hidle i hi).cRdData i⟩
  have hnext : ∀ i ∈ dimenIter d.dimenList, ∃ q', (qs₂ i).clock c d.addrWidth cyc.bReset = .ok q' ∧
      Agree c d.addrWidth q' (s₃.next .rWrAddr i) (s₃.next .rWrAddr2 i) (s₃.next .rRdAddr i)
        (d.writeRam s₃.cur g.ram i) := by
    intro i hi
    obtain ⟨hwires, hclocked, hrd⟩ := hclock i hi
    obtain ⟨hwr, -, hrdAddr, -⟩ := hregs i hi
    have hreset : cyc.bReset = true → c.bCmpWrIdx2 = true → g.regs .rWrAddr i = 0 := by
      intro hr hc
      have hzero := hmeets.wrIdx hr hc i hi
      rw [(hagree i hi).cmpWr] at hzero
      exact hzero
    unfold Design.writeRam
    rw [hwires _ (by decide), hwires _ (by decide), hwires _ (by decide)]
    exact (hagree i hi).clock hab hkind (hmid₂ i hi) hwr hrdAddr hclocked hreset hrd
  obtain ⟨qs', hclockAll, hagree', -⟩ := clockAll_returns (dimenIter_nodup d.dimenList) hnext
  refine ⟨qs', _, _, ?_, hcycle, ?_, hagree'⟩
  · unfold Queues.cycle
    rw [hcalls]
    exact hclockAll
  · intro env indexList query x hi hx
    obtain ⟨hwires, hclocked, -⟩ := hclock _ hi
    obtain ⟨hwr, hwr2, hrd, hdata⟩ := hregs _ hi
    refine (hagree _ hi).result hab hkind ?_ ?_ ?_ ?_ ?_ hx
    · rw [hwires _ (by decide), hwr]
    · rw [hwires _ (by decide), hwr2]
    · rw [hwires _ (by decide), hrd]
    · rw [hclocked.cCnt, hwr, hrd]
    · rw [hwires _ (by decide), hdata]

/-- **The design refines the objects** through a run of cycles, as long as every cycle uses the queues as it may and
meets `ok`. -/
def Refines (c : QueClass) (d : Design) (ok : Queues → Cycle → Prop) : Queues → State → List Cycle → Prop
  | _, _, [] => True
  | qs, g, cyc :: run => Usage c d qs cyc.calls → ok qs cyc →
    ∃ qs' g' vals, qs.cycle c d cyc = .ok qs' ∧ d.cycle g cyc = some (g', vals) ∧ SameResults c d qs vals cyc.bReset ∧
      Refines c d ok qs' g' run

theorem refines {qs : Queues} {g : State} (hab : d.addrWidth < c.addrLimit)
    (hkind : d.kind.bCmpWrIdx2 = c.bCmpWrIdx2) (hagree : AgreeAll c d qs g) (run : List Cycle) :
    Refines c d (Meets c d) qs g run := by
  induction run generalizing qs g with
  | nil => trivial
  | cons cyc run ih =>
    intro huse hmeets
    obtain ⟨qs', g', vals, hq, hg, hsame, hagree'⟩ := cycle_agree hab hkind hagree huse hmeets
    exact ⟨qs', g', vals, hq, hg, hsame, ih hagree'⟩

/-- Queues that have been constructed: the indices of the class are not set yet, and neither are the registers. -/
structure PowerUp (c : QueClass) (addrWidth : ℕ) (q : Que ℕ) (regs : QueVar → ℕ) (ram : ℕ → ℕ) : Prop where
  cmpWr : q.cmpWrIdx = ⟨0, 0⟩
  cmpWr2 : q.cmpWrIdx2 = ⟨0, 0⟩
  cmpRd : q.cmpRdIdx = ⟨0, 0⟩
  bPush : q.bPush = false
  bPop : q.bPop = false
  cells : ∀ a, a < 2 ^ addrWidth → q.que a = ram a
  wr_lt : regs .rWrAddr < 2 ^ (addrWidth + 1)
  rd_lt : regs .rRdAddr < 2 ^ (addrWidth + 1)

/-- The first reset sets them. -/
theorem reset_agree {qs : Queues} {g : State} (hkind : d.kind.bCmpWrIdx2 = c.bCmpWrIdx2)
    (hpower : ∀ i ∈ dimenIter d.dimenList, PowerUp c d.addrWidth (qs i) (g.regs · i) (g.ram i)) :
    ∃ qs' g' vals, qs.cycle c d ⟨true, []⟩ = .ok qs' ∧ d.cycle g ⟨true, []⟩ = some (g', vals) ∧ AgreeAll c d qs' g' := by
  have hpre : ∀ i ∈ dimenIter d.dimenList,
      IdleAt i (d.execs true (fun _ _ => 0) (d.start g) ((dimenIter d.dimenList).flatMap preClock)) := fun i hi =>
    (preClock_returns (fun j hj => (hpower j hj).wr_lt) (fun j hj => (hpower j hj).rd_lt) hi).2
  generalize hs : d.execs true (fun _ _ => 0) (d.start g) ((dimenIter d.dimenList).flatMap preClock) = s₁ at hpre
  have hclock := fun i (hi : i ∈ dimenIter d.dimenList) =>
    clockStmts_returns d true (fun _ _ => 0) s₁ hi
  generalize hs₃ : d.execs true (fun _ _ => 0) s₁ (clockStmts d.kind d.dimenList) = s₃ at hclock
  have hcycle : d.cycle g ⟨true, []⟩ = some (⟨s₃.next, d.writeRam s₃.cur g.ram⟩, s₃.cur) := by
    unfold Design.cycle
    simp only [hs, Design.execCalls, Option.bind_eq_bind, Option.bind_some, hs₃]
  have hnext : ∀ i ∈ dimenIter d.dimenList, ∃ q', (qs i).clock c d.addrWidth true = .ok q' ∧
      Agree c d.addrWidth q' (s₃.next .rWrAddr i) (s₃.next .rWrAddr2 i) (s₃.next .rRdAddr i)
        (d.writeRam s₃.cur g.ram i) := by
    intro i hi
    have hup := hpower i hi
    obtain ⟨hwires, hclocked, hrd⟩ := hclock i hi
    have hzero : trunc (d.addrWidth + 1) 0 = 0 := (trunc_nat _ 0).trans (Nat.zero_mod _)
    have hwr : s₃.next .rWrAddr i = 0 := hclocked.rWrAddr.trans hzero
    have hrd : s₃.next .rRdAddr i = 0 := hrd.trans hzero
    have hen : s₃.cur .cWrEn i = 0 := by rw [hwires _ (by decide), (hpre i hi).cWrEn]
    have hindex : Que.scUint d.addrWidth 0 = 0 := Nat.zero_mod _
    rw [hwr, hrd, Design.writeRam, if_neg (not_not.2 hen)]
    refine ⟨_, Que.clock_returns fun hp => ?_,
      ⟨?_, ?_, fun hc => ?_, rfl, rfl, hup.cells, rfl, rfl, Nat.two_pow_pos _, Nat.two_pow_pos _⟩⟩
    · rw [hup.bPop] at hp
      cases hp
    · show ScSignal.mk (Que.scUint d.addrWidth 0) (Que.scUint d.addrWidth 0) = ⟨0, 0⟩
      rw [hindex]
    · show ScSignal.mk (Que.scUint d.addrWidth 0) (Que.scUint d.addrWidth 0) = ⟨0, 0⟩
      rw [hindex]
    · have hwr2 : s₃.next .rWrAddr2 i = 0 := (hclocked.rWrAddr2 (hkind.trans hc)).trans hzero
      rw [hwr2]
      show (if c.bCmpWrIdx2 then (qs i).cmpWrIdx2.write (qs i).cmpWrIdx.read else (qs i).cmpWrIdx2).update = _
      rw [if_pos hc, hup.cmpWr]
      rfl
  obtain ⟨qs', hclockAll, hagree', -⟩ := clockAll_returns (dimenIter_nodup d.dimenList) hnext
  exact ⟨qs', _, _, hclockAll, hcycle, hagree'⟩

end

/-- **The generated queues refine the class.** Where the declarations before have no type of the same name of another
class, every run whose cycles meet the condition keeps the two in step, from a common state on, or from the first reset
on. -/
theorem queue_refines (before : List Decl) (decl : Decl) (dataWidth : ℕ) (dimenList : List ℕ)
    (hsame : ∀ d' ∈ before, d'.typeName = decl.typeName → d'.cls = decl.cls) (hab : decl.addrWidth < decl.cls.addrLimit) :
    let d : Design := ⟨declKind before decl, decl.addrWidth, dataWidth, dimenList⟩
    (∀ qs g, AgreeAll decl.cls d qs g → ∀ run, Refines decl.cls d (Meets decl.cls d) qs g run) ∧
      ∀ (qs : Queues) (g : State),
        (∀ i ∈ dimenIter dimenList, PowerUp decl.cls decl.addrWidth (qs i) (g.regs · i) (g.ram i)) →
          ∃ qs' g' vals, qs.cycle decl.cls d ⟨true, []⟩ = .ok qs' ∧ d.cycle g ⟨true, []⟩ = some (g', vals) ∧
            ∀ run, Refines decl.cls d (Meets decl.cls d) qs' g' run := by
  intro d
  have hkind : d.kind = decl.cls := by
    show declKind before decl = decl.cls
    unfold declKind
    split
    next d' hfind =>
      have hname := List.find?_some hfind
      exact hsame d' (List.mem_of_find?_eq_some hfind) (of_decide_eq_true hname)
    next => rfl
  have hflag : d.kind.bCmpWrIdx2 = decl.cls.bCmpWrIdx2 := congrArg QueClass.bCmpWrIdx2 hkind
  refine ⟨fun qs g hagree run => refines hab hflag hagree run, fun qs g hpower => ?_⟩
  obtain ⟨qs', g', vals, hq, hg, hagree⟩ := reset_agree hflag hpower
  exact ⟨qs', g', vals, hq, hg, fun run => refines hab hflag hagree run⟩

/-- A queue as it is constructed, with its indices at zero. -/
def zeroQue : Que ℕ := ⟨fun _ => 0, 0, 0, 0, ⟨0, 0⟩, ⟨0, 0⟩, ⟨0, 0⟩, false, false, false, false⟩

/-- All registers at zero. -/
def zeroState : State := ⟨fun _ _ => 0, fun _ _ => 0⟩

theorem zero_agree (c : QueClass) (d : Design) : AgreeAll c d (fun _ => zeroQue) zeroState := fun _ _ =>
  ⟨rfl, rfl, fun _ => rfl, rfl, rfl, fun _ _ => rfl, rfl, rfl, Nat.two_pow_pos _, Nat.two_pow_pos _⟩

/-- A push of 7, where the queue has no indices. -/
def pushSeven : Call := ⟨.push (.other fun _ => 7), [], fun _ _ => 0⟩

theorem queue_refines_one :
    Refines .htDistQue ⟨declKind [] ⟨.htDistQue, "int", 5⟩, 5, 32, []⟩
      (Meets .htDistQue ⟨declKind [] ⟨.htDistQue, "int", 5⟩, 5, 32, []⟩) (fun _ => zeroQue) zeroState
        [⟨true, []⟩, ⟨false, [pushSeven]⟩, ⟨false, []⟩] :=
  (queue_refines [] ⟨.htDistQue, "int", 5⟩ 32 [] (fun _ h => absurd h List.not_mem_nil) (by decide)).1 _ _ (zero_agree _ _) _

theorem no_calls (c : QueClass) (d : Design) (qs : Queues) : Usage c d qs [] :=
  ⟨fun _ h => absurd h List.not_mem_nil, fun _ h => absurd h List.not_mem_nil, fun _ h => absurd h List.not_mem_nil,
    List.Pairwise.nil⟩

theorem push_usage (c : QueClass) (d : Design) (qs : Queues) (hdim : d.dimenList = [])
    (hfull : (qs []).full d.addrWidth = false) : Usage c d qs [pushSeven] := by
  refine ⟨?_, ?_, ?_, List.pairwise_singleton _ _⟩
  · intro call hcall
    obtain rfl := List.mem_singleton.1 hcall
    rw [hdim]
    exact List.mem_singleton.2 rfl
  · intro call hcall e he
    obtain rfl := List.mem_singleton.1 hcall
    obtain rfl := CallOp.push.inj he
    exact ⟨trivial, hfull⟩
  · intro call hcall he
    obtain rfl := List.mem_singleton.1 hcall
    cases he

/-- A block queue is not empty in the cycle after a reset, where the generated design says it is. -/
theorem not_empty_after_reset :
    ¬∀ (before : List Decl) (decl : Decl) (dataWidth : ℕ) (dimenList : List ℕ), decl.addrWidth < decl.cls.addrLimit →
      ∀ qs g, AgreeAll decl.cls ⟨declKind before decl, decl.addrWidth, dataWidth, dimenList⟩ qs g →
        ∀ run, Refines decl.cls ⟨declKind before decl, decl.addrWidth, dataWidth, dimenList⟩ (fun _ _ => True) qs g run := by
  intro hall
  obtain ⟨qs₁, g₁, vals₁, hq₁, hg₁, -, hrun⟩ := hall [] ⟨.htBlockQue, "int", 1⟩ 4 [] (by decide) _ _ (zero_agree _ _)
    [⟨true, []⟩, ⟨false, [pushSeven]⟩, ⟨true, []⟩, ⟨false, []⟩] (no_calls _ _ _) trivial
  obtain rfl := Except.ok.inj hq₁
  obtain ⟨rfl, -⟩ := Prod.mk.inj (Option.some.inj hg₁)
  obtain ⟨qs₂, g₂, vals₂, hq₂, hg₂, -, hrun⟩ := hrun (push_usage _ _ _ rfl rfl) trivial
  obtain rfl := Except.ok.inj hq₂
  obtain ⟨rfl, -⟩ := Prod.mk.inj (Option.some.inj hg₂)
  obtain ⟨qs₃, g₃, vals₃, hq₃, hg₃, -, hrun⟩ := hrun (no_calls _ _ _) trivial
  obtain rfl := Except.ok.inj hq₃
  obtain ⟨rfl, -⟩ := Prod.mk.inj (Option.some.inj hg₃)
  obtain ⟨qs₄, g₄, vals₄, hq₄, hg₄, hsame, -⟩ := hrun (no_calls _ _ _) trivial
  obtain ⟨-, rfl⟩ := Prod.mk.inj (Option.some.inj hg₄)
  have hempty := hsame (fun _ _ => 0) [] .empty 1 (by decide) rfl
  revert hempty
  decide

end OpenHT.Htfe.HtQueue
