import Mathlib.Algebra.BigOperators.Fin
import OpenHT.Lib.Lts
import OpenHT.Lib.Wait
import OpenHT.Sysc.MemReq

/-!
# The memory model with banks

`CSyscMemLib` with `bMemBankModel`: requests pass a delay FIFO of their port, are then scheduled on
a bank (or on the host interface) and complete in the order of their bank and of their port.

* `BankReq`: a scheduled request with its bank and the time it is available.
* `insertBusy`: the insertion into a port's list, which is kept in order.
* `BankMem.call`: a port's call of `SyscMemLib` at a time.
* `BankInv`: the order of the queues, the half-finished bursts, and where every request is.
-/

namespace OpenHT.Sysc

/-- `BANK_CNT` -/
def bankCnt : ℕ := 1024

/-- `m_bank`; the last bank is the host. -/
def MemRdWrReqTime.bank (r : MemRdWrReqTime) : ℕ := if r.host then bankCnt else r.req.addr / 8 % bankCnt

/-- `CBankReq` once it is scheduled. -/
structure BankReq where
  r : MemRdWrReqTime
  bankAvlTime : ℚ

/-- The members of one `CSyscMemLib`. The lists are in the order of the source. -/
structure BankPort where
  newReq : Option MemRdWrReqTime
  wrDataIdx : ℕ
  hostReqQue : List MemRdWrReqTime
  bankReqQue : List MemRdWrReqTime
  bankBusyQue : List BankReq
  /-- `m_rdReqQwIdx` and `m_wrReqQwIdx` -/
  qwIdx : MemDir → ℕ

def BankPort.setQwIdx (c : BankPort) (d : MemDir) (qw : ℕ) : BankPort :=
  { c with qwIdx := Function.update c.qwIdx d qw }

/-- A complete request goes to the FIFO of the host or of the banks. -/
def BankPort.push (c : BankPort) (q : MemRdWrReqTime) : BankPort :=
  if q.host then { c with hostReqQue := c.hostReqQue ++ [q] } else { c with bankReqQue := c.bankReqQue ++ [q] }

/-- Where a request is. -/
inductive BankLoc (n : ℕ)
  | fifo (p : Fin n)
  | busy (p : Fin n)
  | done

/-- All ports and the queues they share. -/
structure BankMem (n : ℕ) where
  port : Fin n → BankPort
  /-- `g_bankQue` -/
  bankQue : ℕ → List BankReq
  mem : Mem ℕ
  /-- The responses of the last call. -/
  rsp : MemRsp
  /-- The time of the last call. -/
  now : ℚ
  hist : MemHist (BankLoc n)

structure BankIn where
  now : ℚ
  req : Option MemRdWrReqIntf
  rdRspFull : Bool
  wrRspFull : Bool
  ranges : AddrRanges

/-- `a` is available before `b`. -/
def BankReq.before (a b : BankReq) : Bool :=
  a.bankAvlTime < b.bankAvlTime || (a.bankAvlTime == b.bankAvlTime && a.r.bank < b.r.bank)

/-- The walk through the list of a port: the request goes before the first one that is available
before it. -/
def insertBusy (b : BankReq) : List BankReq → List BankReq
  | [] => [b]
  | a :: l => if a.before b then b :: a :: l else a :: insertBusy b l

attribute [local simp] insertBusy

namespace BankMem

variable {n : ℕ} (cfg : MemCfg) (p : Fin n) (i : BankIn) (s : BankMem n)

def construct (mem : Mem ℕ) : BankMem n where
  port _ := ⟨none, 0, [], [], [], fun _ => 0⟩
  bankQue _ := []
  mem := mem
  rsp := ⟨none, none⟩
  now := 0
  hist := ⟨0, [], [], fun _ => .done⟩

def setPort (q : BankPort) : BankMem n := { s with port := Function.update s.port p q }

/-- The request interface. -/
def takeIn : Except MemStop (BankMem n) :=
  match i.req with
  | none => return s
  | some r => do
    let c := s.port p
    let (q, w) ← takeReq cfg i.ranges i.now s.hist.seqNum c.wrDataIdx r c.newReq
    let s := { s with hist := s.hist.take c.newReq }
    if q.complete w then
      let c := BankPort.push { c with newReq := none, wrDataIdx := 0 } q
      return { s.setPort p c with hist := s.hist.accept q (.fifo p) }
    else return s.setPort p { c with newReq := some q, wrDataIdx := w }

/-- The nanoseconds a request takes in the delay FIFO: `1000 * 100/66` and `400 * 100/66`. -/
def delay (host : Bool) : ℚ := if host then 1515 else 606

/-- The nanoseconds a request keeps its bank busy: `25.6 * 100/66` and `11.4 * 100/66` for the host,
`800 * 100/66` and `100 * 100/66` for a bank. -/
def bankBusyTime (host : Bool) (tidQw : ℕ) : ℚ :=
  if host then (if tidQw > 0 then 1280 / 33 else 190 / 11)
  else if tidQw > 0 then 1212 else 151

/-- The time at which the bank has done the request, after what is queued for it. -/
def avlTime (busy : ℚ) (r : MemRdWrReqTime) : ℚ :=
  match (s.bankQue r.bank).getLast? with
  | none => s.now + busy
  | some last => max (last.bankAvlTime + busy) (s.now + busy)

/-- A request gets its bank. -/
def schedule (busy : ℚ) (r : MemRdWrReqTime) : BankMem n :=
  let b : BankReq := ⟨r, s.avlTime busy r⟩
  let c := s.port p
  { s.setPort p { c with bankBusyQue := insertBusy b c.bankBusyQue } with
    bankQue := Function.update s.bankQue r.bank (s.bankQue r.bank ++ [b])
    hist := s.hist.move r.id (.busy p) }

/-- The front of the host FIFO or, if it still has to wait, of the bank FIFO is scheduled. -/
def scheduleReq : BankMem n :=
  let c := s.port p
  match c.hostReqQue.head?.filter (fun r => r.time + delay true ≤ s.now) with
  | some r =>
    (s.setPort p { c with hostReqQue := c.hostReqQue.tail }).schedule p (bankBusyTime true r.req.tidQw) r
  | none =>
    match c.bankReqQue.head?.filter (fun r => r.time + delay false ≤ s.now) with
    | some r =>
      (s.setPort p { c with bankReqQue := c.bankReqQue.tail }).schedule p (bankBusyTime false r.req.tidQw) r
    | none => s

/-- A quadword of the port's earliest request is transferred; after the last the request leaves its
queues. -/
def transfer (b : BankReq) (d : MemDir) (mem : Mem ℕ) (rsp : MemRsp) : BankMem n :=
  let c := s.port p
  let qw := c.qwIdx d
  let hist := s.hist.xfer b.r.id qw
  if qw + 1 = b.r.reqQwCnt then
    { s.setPort p { c.setQwIdx d 0 with bankBusyQue := c.bankBusyQue.dropLast } with
      bankQue := Function.update s.bankQue b.r.bank (s.bankQue b.r.bank).tail
      mem := mem, rsp := rsp, hist := hist.move b.r.id .done }
  else
    { s.setPort p (c.setQwIdx d (qw + 1)) with
      mem := mem, rsp := rsp, hist := hist }

/-- The port's earliest request has its bank and its time has come. -/
def serve (b : BankReq) : BankMem n :=
  let r := b.r.req
  let qw := (s.port p).qwIdx r.type.dir
  match r.type.dir with
  | .wr =>
    if i.wrRspFull then s
    else s.transfer p b .wr (writeQw cfg s.mem r qw (b.r.data qw))
      (if qw = 0 then { s.rsp with wrRspTid := some (r.rspTid qw) } else s.rsp)
  | .rd =>
    if i.rdRspFull then s
    else s.transfer p b .rd (if r.type = .setBit63 then setBit63 cfg s.mem r qw else s.mem)
      { s.rsp with rdRsp := some (r.rspTid qw, readQw cfg s.mem r qw) }

/-- The completion of requests. Requests are compared as pointers, here by their ids. -/
def complete : Except MemStop (BankMem n) :=
  match (s.port p).bankBusyQue.getLast? with
  | none => return s
  | some b =>
    match s.bankQue b.r.bank with
    | [] => .error .emptyFront
    | f :: _ =>
      if f.r.id = b.r.id ∧ f.bankAvlTime ≤ s.now then do
        checkAddr cfg i.ranges b.r.req.addr
        return serve cfg p i s b
      else return s

/-- A port's call at time `i.now`. -/
def call : Except MemStop (BankMem n) := do
  let s ← takeIn cfg p i { s with rsp := ⟨none, none⟩, now := i.now }
  complete cfg p i (scheduleReq p s)

end BankMem

/-! ## Order of a port's list -/

namespace BankReq

variable {a b c : BankReq}

theorem before_iff : a.before b = true ↔
    a.bankAvlTime < b.bankAvlTime ∨ a.bankAvlTime = b.bankAvlTime ∧ a.r.bank < b.r.bank := by
  simp [before]

theorem before_false_iff : a.before b = false ↔
    b.bankAvlTime < a.bankAvlTime ∨ a.bankAvlTime = b.bankAvlTime ∧ b.r.bank ≤ a.r.bank := by
  rw [Bool.eq_false_iff, ne_eq, before_iff]
  rcases lt_trichotomy a.bankAvlTime b.bankAvlTime with h | h | h
  · simp [h, not_lt_of_gt h, ne_of_lt h]
  · simp [h]
  · simp [h, not_lt_of_gt h, ne_of_gt h]

/-- A list in order has the later times in front. -/
theorem le_of_before_false (h : a.before b = false) : b.bankAvlTime ≤ a.bankAvlTime := by
  rcases before_false_iff.1 h with h | ⟨h, _⟩
  · exact le_of_lt h
  · exact le_of_eq h.symm

theorem before_false_of_before (hab : a.before b = true) : b.before a = false := by
  rw [before_false_iff]
  rcases before_iff.1 hab with h | ⟨h, hk⟩
  · exact .inl h
  · exact .inr ⟨h.symm, Nat.le_of_lt hk⟩

theorem before_false_trans (hab : a.before b = true) (hac : a.before c = false) : b.before c = false := by
  rw [before_false_iff] at hac ⊢
  rcases before_iff.1 hab with h | ⟨h, hk⟩
  · rcases hac with h' | ⟨h', _⟩
    · exact .inl (lt_trans h' h)
    · exact .inl (h' ▸ h)
  · rcases hac with h' | ⟨h', hk'⟩
    · exact .inl (h ▸ h')
    · exact .inr ⟨h.symm.trans h', by omega⟩

end BankReq

theorem insertBusy_perm (b : BankReq) (l : List BankReq) : (insertBusy b l).Perm (b :: l) := by
  induction l with
  | nil => exact List.Perm.refl _
  | cons a l ih =>
    unfold insertBusy
    by_cases h : a.before b = true
    · rw [if_pos h]
    · rw [if_neg h]
      exact (ih.cons a).trans (List.Perm.swap b a l)

/-- **The walk keeps the order.** -/
theorem insertBusy_order {b : BankReq} {l : List BankReq} (h : l.Pairwise fun x y => x.before y = false) :
    (insertBusy b l).Pairwise fun x y => x.before y = false := by
  induction l with
  | nil => exact List.pairwise_singleton _ _
  | cons a l ih =>
    obtain ⟨ha, hl⟩ := List.pairwise_cons.1 h
    unfold insertBusy
    by_cases hab : a.before b = true
    · rw [if_pos hab]
      refine List.pairwise_cons.2 ⟨?_, h⟩
      intro x hx
      rcases List.mem_cons.1 hx with rfl | hx
      · exact BankReq.before_false_of_before hab
      · exact BankReq.before_false_trans hab (ha x hx)
    · rw [if_neg hab]
      refine List.pairwise_cons.2 ⟨?_, ih hl⟩
      intro x hx
      rcases List.mem_cons.1 ((insertBusy_perm b l).mem_iff.1 hx) with rfl | hx
      · exact Bool.eq_false_iff.2 hab
      · exact ha x hx

/-- What is available before the new request stays at the back. -/
theorem getLast_insertBusy {b x : BankReq} {l : List BankReq} (hx : l.getLast? = some x)
    (hxb : x.before b = true) : (insertBusy b l).getLast? = some x := by
  induction l with
  | nil => cases hx
  | cons a l ih =>
    unfold insertBusy
    by_cases hab : a.before b = true
    · rw [if_pos hab, List.getLast?_cons_cons]
      exact hx
    · rw [if_neg hab]
      cases l with
      | nil =>
        obtain rfl : a = x := by simpa using hx
        exact absurd hxb hab
      | cons a' l =>
        rw [List.getLast?_cons_cons] at hx
        have hlast := ih hx
        cases hins : insertBusy b (a' :: l) with
        | nil => rw [hins] at hlast; cases hlast
        | cons c l' => rw [List.getLast?_cons_cons, ← hins]; exact hlast

end OpenHT.Sysc
