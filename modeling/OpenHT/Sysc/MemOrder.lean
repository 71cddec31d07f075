import OpenHT.Sysc.BankServe
import OpenHT.Sysc.RndServe

/-!
# The check on the order of memory requests

When a request is complete, both memory models compare it with requests that wait, and report pairs whose order
matters.

* `checkMemReqOrdering`: the comparison of two requests, with the count of the reports.
* `RndMem.queued`, `BankMem.queued`: the requests a new one is compared with.
* `RndMem.clkCheck`, `BankMem.callCheck`: a step of the models with the comparisons it makes.
* `Hazard`: the pairs that are to be reported.
* `hazards_reported_iff`: which of them are.
* `hazards_unreported`: an atomic behind a read, and a write into a read of 64 bytes.
-/

namespace OpenHT.Sysc

open OpenHT.Lts

/-! ## The comparison -/

/-- `maxErrorCnt` -/
def maxErrorCnt : ℕ := 5

/-- `newSize`, `queSize` -/
def MemRdWrReqIntf.chkSize (r : MemRdWrReqIntf) : ℕ :=
  match r.type with
  | .rd | .wr => (r.tidQw + 1) * 8
  | .setBit63 => 8

/-- The last condition, on the kinds of the two requests. -/
def orderingProblem (newType queType : MemReqType) : Bool :=
  newType == .rd && queType == .wr ||
  newType == .wr && queType == .rd ||
  newType == .setBit63 && (queType == .rd || queType == .wr) ||
  (newType == .rd || newType == .wr) && queType == .setBit63

/-- `CheckMemReqOrdering`: the new `errorCnt`, and whether the pair is reported. -/
def checkMemReqOrdering (newReq queReq : MemRdWrReqIntf) (errorCnt : ℕ) : ℕ × Bool :=
  if !newReq.orderChk || !queReq.orderChk || decide (errorCnt > maxErrorCnt) then (errorCnt, false)
  else if newReq.addr ≥ queReq.addr + queReq.chkSize ∨ newReq.addr + newReq.chkSize ≤ queReq.addr then
    (errorCnt, false)
  else if orderingProblem newReq.type queReq.type then (errorCnt + 1, true)
  else (errorCnt, false)

/-- A call of `CheckMemReqOrdering` for a new request. -/
structure CheckCall where
  queReq : MemRdWrReqTime
  /-- The count before the call. -/
  errorCnt : ℕ
  reported : Bool

/-- The calls for a list of requests. -/
def checkMemReqs (newReq : MemRdWrReqIntf) : ℕ → List MemRdWrReqTime → ℕ × List CheckCall
  | errorCnt, [] => (errorCnt, [])
  | errorCnt, q :: l =>
    let r := checkMemReqOrdering newReq q.req errorCnt
    let rest := checkMemReqs newReq r.1 l
    (rest.1, ⟨q, errorCnt, r.2⟩ :: rest.2)

/-- A request that is complete, and the calls for it. -/
structure Accepted where
  req : MemRdWrReqTime
  calls : List CheckCall

/-! ## The models with the check

`errorCnt` is static: all ports count with it, so a step takes any value of it. -/

namespace RndMem

/-- The requests of the valid slots. -/
def slots (s : RndMem) (d : MemDir) : List MemRdWrReqTime :=
  ((List.range memReqMax).filter fun j => (s.req d).valid.getLsbD j).map (s.req d).list

/-- What a new request is compared with: the FIFO, the reads if it is a write, and the writes if it is not. -/
def queued (s : RndMem) (q : MemRdWrReqTime) : List MemRdWrReqTime :=
  s.memReqQue ++ (if q.req.type = .wr then s.slots .rd else []) ++
    (if q.req.type ≠ .wr then s.slots .wr else [])

variable (cfg : RndCfg) (i : RndIn) (s : RndMem) (errorCnt : ℕ)

/-- `takeIn` with the check. -/
def takeInCheck : Except MemStop (RndMem × ℕ × Option Accepted) :=
  match i.req with
  | none => return (s, errorCnt, none)
  | some r => do
    let (q, w) ← takeReq cfg.toMemCfg i.ranges i.now s.hist.seqNum s.wrDataIdx r s.pReqTime
    let hist := s.hist.take s.pReqTime
    if q.complete w then
      let chk := checkMemReqs q.req errorCnt (s.queued q)
      return ({ s with
        memReqQue := s.memReqQue ++ [q], pReqTime := none, wrDataIdx := 0, hist := hist.accept q .que },
        chk.1, some ⟨q, chk.2⟩)
    else return ({ s with pReqTime := some q, wrDataIdx := w, hist := hist }, errorCnt, none)

/-- `clk` with the check. -/
def clkCheck : Except MemStop (RndMem × ℕ × Option Accepted) := do
  let (s, errorCnt, a) ← takeInCheck cfg i { s with rsp := ⟨none, none⟩ } errorCnt
  let s := serveWr cfg i (serveRd cfg i (chooseIdx i (insert cfg i s)))
  return (if i.reset then s.reset else s, errorCnt, a)

end RndMem

namespace BankMem

variable {n : ℕ} (cfg : MemCfg) (p : Fin n) (i : BankIn) (s : BankMem n) (errorCnt : ℕ)

/-- What a new request is compared with: the FIFO it goes to, and the queue of its bank. -/
def queued (q : MemRdWrReqTime) : List MemRdWrReqTime :=
  (if q.host then (s.port p).hostReqQue else (s.port p).bankReqQue) ++ (s.bankQue q.bank).map BankReq.r

/-- `takeIn` with the check. -/
def takeInCheck : Except MemStop (BankMem n × ℕ × Option Accepted) :=
  match i.req with
  | none => return (s, errorCnt, none)
  | some r => do
    let c := s.port p
    let (q, w) ← takeReq cfg i.ranges i.now s.hist.seqNum c.wrDataIdx r c.newReq
    let hist := s.hist.take c.newReq
    if q.complete w then
      let chk := checkMemReqs q.req errorCnt (s.queued p q)
      let c := BankPort.push { c with newReq := none, wrDataIdx := 0 } q
      return ({ s.setPort p c with hist := hist.accept q (.fifo p) }, chk.1, some ⟨q, chk.2⟩)
    else return ({ s.setPort p { c with newReq := some q, wrDataIdx := w } with hist := hist }, errorCnt, none)

/-- `call` with the check. -/
def callCheck : Except MemStop (BankMem n × ℕ × Option Accepted) := do
  let (s, errorCnt, a) ← takeInCheck cfg p i { s with rsp := ⟨none, none⟩, now := i.now } errorCnt
  let s ← complete cfg p i (scheduleReq p s)
  return (s, errorCnt, a)

end BankMem

/-! ## What is to be reported -/

/-- The rules in the comment of `CheckMemReqOrdering`: the new request and the queued one. -/
inductive Conflicting : MemReqType → MemReqType → Prop
  | readWrite : Conflicting .rd .wr
  | writeRead : Conflicting .wr .rd
  | atomicRead : Conflicting .setBit63 .rd
  | atomicWrite : Conflicting .setBit63 .wr
  | readAtomic : Conflicting .rd .setBit63
  | writeAtomic : Conflicting .wr .setBit63

/-- `a` is an address the request refers to. -/
def MemRdWrReqIntf.RefersTo (r : MemRdWrReqIntf) (a : ℕ) : Prop := r.addr ≤ a ∧ a < r.addr + r.chkSize

/-- Requests that are checked, overlap and conflict. -/
structure Hazard (newReq queReq : MemRdWrReqIntf) : Prop where
  newChk : newReq.orderChk = true
  queChk : queReq.orderChk = true
  overlap : ∃ a, newReq.RefersTo a ∧ queReq.RefersTo a
  conflict : Conflicting newReq.type queReq.type

/-- There is a call for the request, and it reports while the limit is not reached. -/
def Reported (calls : List CheckCall) (q : MemRdWrReqTime) : Prop :=
  ∃ c ∈ calls, c.queReq = q ∧ (c.errorCnt < maxErrorCnt → c.reported = true)

theorem orderingProblem_iff (t t' : MemReqType) : orderingProblem t t' = true ↔ Conflicting t t' := by
  constructor
  · intro h
    cases t <;> cases t' <;> first | constructor | exact absurd h (by decide)
  · intro h
    cases h <;> rfl

theorem chkSize_pos (r : MemRdWrReqIntf) : 0 < r.chkSize := by
  unfold MemRdWrReqIntf.chkSize
  split <;> omega

/-- The two comparisons of the ends are the negation of an overlap. -/
theorem overlap_iff (r r' : MemRdWrReqIntf) :
    (∃ a, r.RefersTo a ∧ r'.RefersTo a) ↔ ¬ (r.addr ≥ r'.addr + r'.chkSize ∨ r.addr + r.chkSize ≤ r'.addr) := by
  have hr := chkSize_pos r
  have hr' := chkSize_pos r'
  unfold MemRdWrReqIntf.RefersTo
  constructor
  · rintro ⟨a, h, h'⟩
    omega
  · intro h
    refine ⟨max r.addr r'.addr, ?_, ?_⟩
    · omega
    · omega

/-- **A hazard is reported** unless the limit is passed. -/
theorem checkMemReqOrdering_hazard {newReq queReq : MemRdWrReqIntf} {errorCnt : ℕ} (h : Hazard newReq queReq)
    (hcnt : errorCnt ≤ maxErrorCnt) :
    checkMemReqOrdering newReq queReq errorCnt = (errorCnt + 1, true) := by
  have hoverlap := (overlap_iff _ _).1 h.overlap
  have hproblem := (orderingProblem_iff _ _).2 h.conflict
  have hlimit : ¬ errorCnt > maxErrorCnt := by omega
  unfold checkMemReqOrdering
  rw [if_neg (by simp [h.newChk, h.queChk, hlimit]), if_neg hoverlap, if_pos hproblem]

/-- The calls are those for the requests of the list, in order. -/
theorem checkMemReqs_calls (newReq : MemRdWrReqIntf) (errorCnt : ℕ) (l : List MemRdWrReqTime) :
    (checkMemReqs newReq errorCnt l).2.map CheckCall.queReq = l ∧
      ∀ c ∈ (checkMemReqs newReq errorCnt l).2,
        c.reported = (checkMemReqOrdering newReq c.queReq.req c.errorCnt).2 := by
  induction l generalizing errorCnt with
  | nil => exact ⟨rfl, fun c hc => nomatch hc⟩
  | cons q l ih =>
    obtain ⟨hmap, hall⟩ := ih (checkMemReqOrdering newReq q.req errorCnt).1
    refine ⟨congrArg (q :: ·) hmap, ?_⟩
    intro c hc
    rcases List.mem_cons.1 hc with rfl | hc
    · rfl
    · exact hall c hc

/-- A hazard is reported exactly when the requests are compared. -/
theorem reported_iff {newReq : MemRdWrReqIntf} {q : MemRdWrReqTime} (h : Hazard newReq q.req) (errorCnt : ℕ)
    (l : List MemRdWrReqTime) : Reported (checkMemReqs newReq errorCnt l).2 q ↔ q ∈ l := by
  obtain ⟨hmap, hall⟩ := checkMemReqs_calls newReq errorCnt l
  constructor
  · rintro ⟨c, hc, rfl, _⟩
    rw [← hmap]
    exact List.mem_map_of_mem hc
  · intro hq
    rw [← hmap] at hq
    obtain ⟨c, hc, rfl⟩ := List.mem_map.1 hq
    refine ⟨c, hc, rfl, ?_⟩
    intro hcnt
    rw [hall c hc, checkMemReqOrdering_hazard h (Nat.le_of_lt hcnt)]

/-! ## Steps with the check -/

/-- The interface with the check is the interface, and the calls are those for the requests that wait. -/
theorem RndMem.takeInCheck_ok {cfg : RndCfg} {i : RndIn} {s s' : RndMem} {errorCnt e : ℕ} {a : Option Accepted}
    (h : s.takeInCheck cfg i errorCnt = .ok (s', e, a)) :
    s.takeIn cfg i = .ok s' ∧ ∀ x ∈ a, x.calls = (checkMemReqs x.req.req errorCnt (s.queued x.req)).2 := by
  unfold takeInCheck at h
  unfold takeIn
  cases hr : i.req with
  | none =>
    rw [hr] at h
    cases h
    exact ⟨rfl, fun x hx => nomatch hx⟩
  | some r =>
    rw [hr] at h
    simp only [bind_ok] at h
    obtain ⟨⟨q, w⟩, htake, h⟩ := h
    refine ⟨?_, ?_⟩
    · refine bind_ok.2 ⟨(q, w), htake, ?_⟩
      split at h
      · rename_i hc
        cases h
        exact if_pos hc
      · rename_i hc
        cases h
        exact if_neg hc
    · intro x hx
      split at h
      · cases h
        obtain rfl := Option.some.inj hx
        rfl
      · cases h
        cases hx

theorem RndMem.clkCheck_ok {cfg : RndCfg} {i : RndIn} {s s' : RndMem} {errorCnt e : ℕ} {a : Option Accepted}
    (h : s.clkCheck cfg i errorCnt = .ok (s', e, a)) :
    s.clk cfg i = .ok s' ∧ ∀ x ∈ a, x.calls = (checkMemReqs x.req.req errorCnt (s.queued x.req)).2 := by
  unfold clkCheck at h
  simp only [bind_ok] at h
  obtain ⟨⟨s₁, e₁, a₁⟩, htake, h⟩ := h
  obtain ⟨hstep, hcalls⟩ := takeInCheck_ok htake
  cases h
  exact ⟨bind_ok.2 ⟨s₁, hstep, rfl⟩, hcalls⟩

theorem BankMem.takeInCheck_ok {n : ℕ} {cfg : MemCfg} {p : Fin n} {i : BankIn} {s s' : BankMem n} {errorCnt e : ℕ}
    {a : Option Accepted} (h : s.takeInCheck cfg p i errorCnt = .ok (s', e, a)) :
    s.takeIn cfg p i = .ok s' ∧ ∀ x ∈ a, x.calls = (checkMemReqs x.req.req errorCnt (s.queued p x.req)).2 := by
  unfold takeInCheck at h
  unfold takeIn
  cases hr : i.req with
  | none =>
    rw [hr] at h
    cases h
    exact ⟨rfl, fun x hx => nomatch hx⟩
  | some r =>
    rw [hr] at h
    simp only [bind_ok] at h
    obtain ⟨⟨q, w⟩, htake, h⟩ := h
    refine ⟨?_, ?_⟩
    · refine bind_ok.2 ⟨(q, w), htake, ?_⟩
      split at h
      · rename_i hc
        cases h
        exact if_pos hc
      · rename_i hc
        cases h
        exact if_neg hc
    · intro x hx
      split at h
      · cases h
        obtain rfl := Option.some.inj hx
        rfl
      · cases h
        cases hx

theorem BankMem.callCheck_ok {n : ℕ} {cfg : MemCfg} {p : Fin n} {i : BankIn} {s s' : BankMem n} {errorCnt e : ℕ}
    {a : Option Accepted} (h : s.callCheck cfg p i errorCnt = .ok (s', e, a)) :
    s.call cfg p i = .ok s' ∧ ∀ x ∈ a, x.calls = (checkMemReqs x.req.req errorCnt (s.queued p x.req)).2 := by
  unfold callCheck at h
  simp only [bind_ok] at h
  obtain ⟨⟨s₁, e₁, a₁⟩, htake, s₂, hrest, h⟩ := h
  obtain ⟨hstep, hcalls⟩ := takeInCheck_ok htake
  cases h
  exact ⟨bind_ok.2 ⟨s₁, hstep, hrest⟩, hcalls⟩

/-! ## The containers hold one kind of request each -/

/-- The slots of a list hold requests of its direction. -/
def RndMem.Sorted (s : RndMem) : Prop :=
  ∀ d j, (s.req d).valid.getLsbD j = true → ((s.req d).list j).req.type.dir = d

namespace RndMem.Sorted

variable {cfg : RndCfg} {i : RndIn} {s s' : RndMem}

theorem put (hs : s.Sorted) {q : MemRdWrReqTime} {rr : ℕ} (hrr : rr < 32) (que : List MemRdWrReqTime)
    (hist : MemHist RndLoc) :
    RndMem.Sorted { s with
      memReqQue := que, hist := hist
      req := Function.update s.req q.req.type.dir ((s.req q.req.type.dir).put rr q) } := by
  intro d j hv
  dsimp only at hv ⊢
  by_cases hd : d = q.req.type.dir
  · subst hd
    rw [Function.update_self] at hv ⊢
    by_cases hj : j = rr
    · subst hj
      exact congrArg (fun x : MemRdWrReqTime => x.req.type.dir) (Function.update_self _ _ _)
    · have hold : (s.req q.req.type.dir).valid.getLsbD j = true := by
        simpa [ReqList.put, getLsbD_set _ hrr, hj] using hv
      have hlist : ((s.req q.req.type.dir).put rr q).list j = (s.req q.req.type.dir).list j :=
        Function.update_of_ne hj _ _
      rw [hlist]
      exact hs _ j hold
  · rw [Function.update_of_ne hd] at hv ⊢
    exact hs d j hv

theorem setRr (hs : s.Sorted) (d : MemDir) (rr : ℕ) :
    RndMem.Sorted { s with req := Function.update s.req d { s.req d with rr := rr } } := by
  intro d' j hv
  dsimp only at hv ⊢
  by_cases hd : d' = d
  · subst hd
    rw [Function.update_self] at hv ⊢
    exact hs d' j hv
  · rw [Function.update_of_ne hd] at hv ⊢
    exact hs d' j hv

theorem insert (h : RndInv s) (hs : s.Sorted) : (s.insert cfg i).Sorted := by
  unfold RndMem.insert
  cases hq : s.memReqQue with
  | nil => exact hs
  | cons q rest =>
    dsimp only
    have hspec := ReqList.findSlot_spec memReqMax (s.req q.req.type.dir).valid (h.side q.req.type.dir).rr
    split
    · split
      · exact hs.put hspec.1 _ _
      · rw [← hq]
        exact hs.setRr _ _
    · exact hs

/-- A transfer sets no valid bit. -/
theorem transfer (hs : s.Sorted) (d : MemDir) (hprev : s.prevReqIdx < 32) (mem : Mem ℕ) (rsp : MemRsp) :
    (s.transfer d mem rsp).Sorted := by
  intro d' j hv
  rw [list_transfer]
  refine hs d' j ?_
  unfold RndMem.transfer at hv
  dsimp only at hv
  by_cases hd : d' = d
  · subst hd
    rw [Function.update_self] at hv
    unfold ReqList.advance at hv
    split at hv
    · dsimp only at hv
      rw [getLsbD_clear _ hprev, Bool.and_eq_true] at hv
      exact hv.1
    · exact hv
  · rwa [Function.update_of_ne hd] at hv

theorem serveRd (h : RndInv s) (hs : s.Sorted) : (s.serveRd cfg i).Sorted := by
  unfold RndMem.serveRd
  dsimp only
  split
  · exact hs.transfer _ h.prev _ _
  · exact hs

theorem serveWr (h : RndInv s) (hs : s.Sorted) : (s.serveWr cfg i).Sorted := by
  unfold RndMem.serveWr
  dsimp only
  split
  · exact hs.transfer _ h.prev _ _
  · exact hs

theorem of_req_eq (hs : s.Sorted) (hreq : s'.req = s.req) : s'.Sorted := by
  intro d j hv
  rw [hreq] at hv ⊢
  exact hs d j hv

theorem clk (h : RndInv s) (hs : s.Sorted) (hreset : i.reset = false) (he : s.clk cfg i = .ok s') : s'.Sorted := by
  unfold RndMem.clk at he
  simp only [bind_ok] at he
  obtain ⟨s₁, htake, he⟩ := he
  rw [hreset] at he
  cases he
  have h₁ : RndInv s₁ := RndInv.takeIn (s := { s with rsp := ⟨none, none⟩ }) { h with } htake
  have hs₁ : s₁.Sorted := hs.of_req_eq ((req_takeIn htake).trans rfl)
  have hs₂ : (RndMem.chooseIdx i (RndMem.insert cfg i s₁)).Sorted := (hs₁.insert h₁).of_req_eq req_chooseIdx
  have h₂ : RndInv (RndMem.chooseIdx i (RndMem.insert cfg i s₁)) := h₁.insert.chooseIdx
  exact (hs₂.serveRd h₂).serveWr h₂.serveRd

theorem of_afterReset (h : AfterReset cfg s) : s.Sorted := by
  obtain ⟨bRd, bWr, prev, list, mem, s₁, i₀, s₂, hpre, hreset, hclk, hr⟩ := h
  have hque : s₁.QueOk := hpre.invariant (.construct bRd bWr prev list mem)
    (fun _ _ _ _ hs _ he => RndMem.QueOk.clk hs he) s₁
  -- A reset clears the valid bits.
  have hclear : s₂.fresh.Sorted := by
    unfold RndMem.clk at hclk
    simp only [bind_ok, hreset] at hclk
    obtain ⟨s₃, _, hclk⟩ := hclk
    cases hclk
    intro d j hv
    exact absurd hv (by simp [RndMem.fresh, RndMem.reset, ReqList.reset])
  have hboth := hr.invariant (I := fun t => RndInv t ∧ t.Sorted) ⟨hque.reset hreset hclk, hclear⟩
    (fun t t' i _ ht hi he => ⟨ht.1.clk hi he, ht.2.clk ht.1 hi he⟩) s
  exact hboth.2

end RndMem.Sorted

/-- The FIFO of the host holds the host's requests, the other one the rest. -/
def BankPort.Sorted (c : BankPort) : Prop :=
  (∀ q ∈ c.hostReqQue, q.host = true) ∧ ∀ q ∈ c.bankReqQue, q.host = false

theorem BankPort.Sorted.push {c : BankPort} (h : c.Sorted) (q : MemRdWrReqTime) : (c.push q).Sorted := by
  unfold BankPort.push
  split
  · rename_i hq
    refine ⟨?_, h.2⟩
    intro q' hq'
    rcases List.mem_append.1 hq' with hq' | hq'
    · exact h.1 q' hq'
    · obtain rfl := List.mem_singleton.1 hq'
      exact hq
  · rename_i hq
    refine ⟨h.1, ?_⟩
    intro q' hq'
    rcases List.mem_append.1 hq' with hq' | hq'
    · exact h.2 q' hq'
    · obtain rfl := List.mem_singleton.1 hq'
      simpa using hq

def BankMem.Sorted {n : ℕ} (s : BankMem n) : Prop := ∀ p, (s.port p).Sorted

namespace BankMem.Sorted

variable {n : ℕ} {cfg : MemCfg} {p : Fin n} {i : BankIn} {s s' : BankMem n}

theorem setPort (hs : s.Sorted) {c : BankPort} (hc : c.Sorted) : (s.setPort p c).Sorted := by
  intro p'
  by_cases hp : p' = p
  · subst hp
    rw [port_setPort_self]
    exact hc
  · rw [port_setPort_of_ne hp]
    exact hs p'

theorem takeIn (hs : s.Sorted) (he : s.takeIn cfg p i = .ok s') : s'.Sorted := by
  unfold BankMem.takeIn at he
  cases hr : i.req with
  | none =>
    rw [hr] at he
    cases he
    exact hs
  | some r =>
    rw [hr] at he
    simp only [bind_ok] at he
    obtain ⟨⟨q, w⟩, _, he⟩ := he
    have hempty : BankPort.Sorted { s.port p with newReq := none, wrDataIdx := 0 } := hs p
    have hmore : BankPort.Sorted { s.port p with newReq := some q, wrDataIdx := w } := hs p
    split at he
    · cases he
      exact hs.setPort (hempty.push q)
    · cases he
      exact hs.setPort hmore

theorem schedule (hs : s.Sorted) (busy : ℚ) (r : MemRdWrReqTime) : (s.schedule p busy r).Sorted := by
  have hc : BankPort.Sorted
      { s.port p with bankBusyQue := insertBusy ⟨r, s.avlTime busy r⟩ (s.port p).bankBusyQue } := hs p
  exact hs.setPort hc

theorem scheduleReq (hs : s.Sorted) : (s.scheduleReq p).Sorted := by
  have hhost : BankPort.Sorted { s.port p with hostReqQue := (s.port p).hostReqQue.tail } :=
    ⟨fun q hq => (hs p).1 q (List.mem_of_mem_tail hq), (hs p).2⟩
  have hbank : BankPort.Sorted { s.port p with bankReqQue := (s.port p).bankReqQue.tail } :=
    ⟨(hs p).1, fun q hq => (hs p).2 q (List.mem_of_mem_tail hq)⟩
  unfold BankMem.scheduleReq
  dsimp only
  split
  · exact (hs.setPort hhost).schedule _ _
  · split
    · exact (hs.setPort hbank).schedule _ _
    · exact hs

theorem transfer (hs : s.Sorted) (b : BankReq) (d : MemDir) (mem : Mem ℕ) (rsp : MemRsp) :
    (s.transfer p b d mem rsp).Sorted := by
  have hlast : BankPort.Sorted
      { (s.port p).setQwIdx d 0 with bankBusyQue := (s.port p).bankBusyQue.dropLast } := hs p
  have hnext : BankPort.Sorted ((s.port p).setQwIdx d ((s.port p).qwIdx d + 1)) := hs p
  unfold BankMem.transfer
  dsimp only
  split
  · exact hs.setPort hlast
  · exact hs.setPort hnext

theorem complete (hs : s.Sorted) (he : s.complete cfg p i = .ok s') : s'.Sorted := by
  unfold BankMem.complete at he
  split at he
  · cases he
    exact hs
  · split at he
    · cases he
    · split at he
      · simp only [bind_ok] at he
        obtain ⟨_, _, he⟩ := he
        cases he
        unfold serve
        dsimp only
        split
        · split
          · exact hs
          · exact hs.transfer _ _ _ _
        · split
          · exact hs
          · exact hs.transfer _ _ _ _
      · cases he
        exact hs

theorem call (hs : s.Sorted) (he : s.call cfg p i = .ok s') : s'.Sorted := by
  unfold BankMem.call at he
  simp only [bind_ok] at he
  obtain ⟨s₁, htake, he⟩ := he
  have hs₀ : BankMem.Sorted { s with rsp := ⟨none, none⟩, now := i.now } := hs
  exact ((hs₀.takeIn htake).scheduleReq (p := p)).complete he

theorem of_reach {mem : Mem ℕ} (hr : Reach (BankMem.step cfg) BankMem.Timely (.construct mem) s) : s.Sorted := by
  have hconstruct : BankMem.Sorted (n := n) (.construct mem) :=
    fun _ => ⟨fun _ hq => (nomatch hq), fun _ hq => (nomatch hq)⟩
  exact hr.invariant hconstruct (fun _ _ _ _ hs _ he => hs.call he) s

end BankMem.Sorted

/-! ## The requests that are compared -/

/-- An accepted request that lacks transfers. -/
structure RndMem.Waits (s : RndMem) (q : MemRdWrReqTime) : Prop where
  accepted : q ∈ s.hist.accepted
  incomplete : (s.hist.qws q.id).length < q.reqQwCnt

theorem RndMem.mem_slots {s : RndMem} (h : RndInv s) {d : MemDir} {q : MemRdWrReqTime} :
    q ∈ s.slots d → ∃ j, s.hist.loc q.id = .slot d j := by
  intro hq
  obtain ⟨j, hj, rfl⟩ := List.mem_map.1 hq
  exact ⟨j, (h.slot d j (List.mem_filter.1 hj).2).2⟩

theorem RndMem.slots_of_valid {s : RndMem} {d : MemDir} {j : ℕ} (hv : (s.req d).valid.getLsbD j = true) :
    (s.req d).list j ∈ s.slots d := by
  have hj : j ∈ List.range memReqMax := List.mem_range.2 (lt_of_getLsbD hv)
  exact List.mem_map.2 ⟨j, List.mem_filter.2 ⟨hj, hv⟩, rfl⟩

/-- **The random order model** misses reads and atomics in the read list when the new request is one. -/
theorem RndMem.mem_queued_iff {s : RndMem} (h : RndInv s) (hs : s.Sorted) {q q' : MemRdWrReqTime}
    (hw : s.Waits q') (hc : Conflicting q.req.type q'.req.type) :
    q' ∈ s.queued q ↔ ¬ (q.req.type ≠ .wr ∧ q' ∈ s.slots .rd) := by
  have hque : q' ∈ s.memReqQue → s.hist.loc q'.id = .que := fun hq => (h.que q' hq).2
  have hat := h.at_loc q' hw.accepted
  have hinc := hw.incomplete
  unfold RndMem.queued
  simp only [List.mem_append]
  cases hl : s.hist.loc q'.id with
  | done =>
    rw [hl] at hat
    rw [hat, List.length_range] at hinc
    omega
  | que =>
    rw [hl] at hat
    refine ⟨?_, fun _ => .inl (.inl hat.1)⟩
    rintro _ ⟨_, hslot⟩
    obtain ⟨j, hj⟩ := mem_slots h hslot
    rw [hl] at hj
    cases hj
  | slot d j =>
    rw [hl] at hat
    obtain ⟨hv, rfl, _⟩ := hat
    have hmem := slots_of_valid hv
    have hnotque : (s.req d).list j ∉ s.memReqQue := by
      intro hq
      have := hque hq
      rw [hl] at this
      cases this
    have honly (d' : MemDir) (hd : (s.req d).list j ∈ s.slots d') : d' = d := by
      obtain ⟨j', hj'⟩ := mem_slots h hd
      rw [hl] at hj'
      cases hj'
      rfl
    cases d with
    | rd =>
      constructor
      · rintro ((hq | hq) | hq) ⟨hne, _⟩
        · exact hnotque hq
        · rw [if_neg hne] at hq
          cases hq
        · rw [if_pos hne] at hq
          cases honly .wr hq
      · intro hnot
        have hwr : q.req.type = .wr := Classical.byContradiction fun hne => hnot ⟨hne, hmem⟩
        rw [if_pos hwr]
        exact .inl (.inr hmem)
    | wr =>
      -- A conflict with a write is one of a request that is no write.
      have hwrite : ((s.req .wr).list j).req.type = .wr := by
        have hdir := hs .wr j hv
        cases ht : ((s.req .wr).list j).req.type with
        | wr => rfl
        | rd => rw [ht] at hdir; cases hdir
        | setBit63 => rw [ht] at hdir; cases hdir
      have hne : q.req.type ≠ .wr := by
        intro hq
        rw [hq, hwrite] at hc
        cases hc
      refine ⟨fun _ hboth => ?_, fun _ => ?_⟩
      · cases honly .rd hboth.2
      · rw [if_pos hne]
        exact .inr hmem

/-- An accepted request of port `p` that lacks transfers. -/
structure BankMem.Waits {n : ℕ} (s : BankMem n) (p : Fin n) (q : MemRdWrReqTime) : Prop where
  accepted : q ∈ s.hist.accepted
  incomplete : (s.hist.qws q.id).length < q.reqQwCnt
  port : s.hist.loc q.id = .fifo p ∨ s.hist.loc q.id = .busy p

/-- The requests of a port that are scheduled. -/
def BankPort.scheduled (c : BankPort) : List MemRdWrReqTime := c.bankBusyQue.map BankReq.r

/-- **The bank model** misses requests of the other FIFO and of the other banks. -/
theorem BankMem.mem_queued_iff {n : ℕ} {s : BankMem n} {p : Fin n} (h : BankInv s) (hs : s.Sorted)
    {q q' : MemRdWrReqTime} (hw : s.Waits p q') :
    q' ∈ s.queued p q ↔ (q' ∈ (s.port p).fifo → q'.host = q.host) ∧
      (q' ∈ (s.port p).scheduled → q'.bank = q.bank) := by
  have hat := h.at_loc q' hw.accepted
  have hfifo (hq : q' ∈ (s.port p).fifo) : s.hist.loc q'.id = .fifo p := (h.front.fifo p q' hq).2
  have hkind (hq : q' ∈ if q.host then (s.port p).hostReqQue else (s.port p).bankReqQue) :
      q' ∈ (s.port p).fifo ∧ q'.host = q.host := by
    by_cases hh : q.host = true
    · rw [if_pos hh] at hq
      exact ⟨List.mem_append_left _ hq, ((hs p).1 q' hq).trans hh.symm⟩
    · rw [if_neg hh] at hq
      exact ⟨List.mem_append_right _ hq, ((hs p).2 q' hq).trans (Bool.eq_false_iff.2 hh).symm⟩
  have hbank (hq : q' ∈ (s.bankQue q.bank).map BankReq.r) :
      q'.bank = q.bank ∧ ∃ p', s.hist.loc q'.id = .busy p' := by
    obtain ⟨b, hb, rfl⟩ := List.mem_map.1 hq
    obtain ⟨hk, p', hp'⟩ := h.back.bank _ b hb
    exact ⟨hk, p', (h.back.busy p' b hp').2.1⟩
  have hsched (hq : q' ∈ (s.port p).scheduled) : s.hist.loc q'.id = .busy p := by
    obtain ⟨b, hb, rfl⟩ := List.mem_map.1 hq
    exact (h.back.busy p b hb).2.1
  unfold BankMem.queued
  rw [List.mem_append]
  rcases hw.port with hl | hl
  · rw [hl] at hat hsched
    constructor
    · rintro (hq | hq)
      · exact ⟨fun _ => (hkind hq).2, fun hq' => (nomatch hsched hq')⟩
      · obtain ⟨_, p', hp'⟩ := hbank hq
        rw [hl] at hp'
        cases hp'
    · rintro ⟨hhost, _⟩
      have hsame := hhost hat.1
      refine .inl ?_
      by_cases hh : q.host = true
      · rw [if_pos hh]
        rcases List.mem_append.1 hat.1 with hq | hq
        · exact hq
        · rw [(hs p).2 q' hq, hh] at hsame
          cases hsame
      · rw [if_neg hh]
        rcases List.mem_append.1 hat.1 with hq | hq
        · exact absurd (hsame.symm.trans ((hs p).1 q' hq)) hh
        · exact hq
  · rw [hl] at hat hfifo
    obtain ⟨b, hb, hbq, _⟩ := hat
    constructor
    · rintro (hq | hq)
      · cases hfifo (hkind hq).1
      · exact ⟨fun hq' => (nomatch hfifo hq'), fun _ => (hbank hq).1⟩
    · rintro ⟨_, hsame⟩
      have hmem : q' ∈ (s.port p).scheduled := List.mem_map.2 ⟨b, hb, hbq⟩
      have hque := (h.back.busy p b hb).2.2
      rw [hbq, hsame hmem] at hque
      exact .inr (List.mem_map.2 ⟨b, hque, hbq⟩)

/-! ## A read of 64 bytes that waits -/

/-- An atomic on the address of `read64`. -/
def atomic64 : MemRdWrReqIntf := ⟨0, 64, 0, .setBit63, false, .u64, true⟩

/-- Writes into the bytes of `read64`, on its bank and on the next one. -/
def write64 : MemRdWrReqIntf := ⟨0, 64, 0, .wr, false, .u64, true⟩
def write72 : MemRdWrReqIntf := ⟨0, 72, 0, .wr, false, .u64, true⟩

def demoRndCfg : RndCfg := ⟨⟨false, false, false, 0⟩, fun _ => 0⟩

def demoRndIn (now : ℚ) (req : Option MemRdWrReqIntf) : RndIn :=
  ⟨now, false, req, false, false, 1, fun _ => (true, true)⟩

def demoRndStart : RndMem :=
  .construct false false 0 (fun _ _ => ⟨0, read64, 0, false, 0, fun _ => 0⟩) (fun _ => 0)

/-- After a reset, the read moves to the read list. -/
def demoRndRun : Option RndMem :=
  runIf (RndMem.step demoRndCfg) (fun _ i => !i.reset) demoRndStart.reset.fresh
    [demoRndIn 0 (some read64), demoRndIn 10 none]

def demoBankCfg : MemCfg := ⟨false, false, false, 0⟩

def demoBankIn (now : ℚ) (req : Option MemRdWrReqIntf) : BankIn := ⟨now, req, false, false, fun _ => (true, true)⟩

/-- The read is scheduled on its bank. -/
def demoBankRun : Option (BankMem 1) :=
  runIf (BankMem.step demoBankCfg) (fun s a => decide (s.now ≤ a.2.now)) (.construct fun _ => 0)
    [(0, demoBankIn 0 (some read64)), (0, demoBankIn 700 none)]

/-- The read is the one accepted request, and has no transfers. -/
def demoWaits {L : Type} (h : MemHist L) : Bool :=
  h.accepted.map (fun q => (q.id, q.req, q.reqQwCnt, q.host)) = [(0, read64, 8, false)] && h.qws 0 = []

theorem demoWaits_spec {L : Type} {h : MemHist L} (hd : demoWaits h = true) :
    ∃ q ∈ h.accepted, q.id = 0 ∧ q.req = read64 ∧ q.host = false ∧ (h.qws q.id).length < q.reqQwCnt := by
  unfold demoWaits at hd
  simp only [Bool.and_eq_true, decide_eq_true_iff] at hd
  obtain ⟨hacc, hqws⟩ := hd
  cases hl : h.accepted with
  | nil => rw [hl] at hacc; cases hacc
  | cons q l =>
    rw [hl, List.map_cons, List.cons.injEq, Prod.mk.injEq, Prod.mk.injEq, Prod.mk.injEq] at hacc
    obtain ⟨⟨hid, hreq, hcnt, hhost⟩, _⟩ := hacc
    refine ⟨q, List.mem_cons_self, hid, hreq, hhost, ?_⟩
    rw [hid, hqws, hcnt]
    exact Nat.zero_lt_succ 7

theorem ok_of_toOption {α : Type} {x : Except MemStop α} {a : α} (h : x.toOption = some a) : x = .ok a := by
  cases x with
  | error e => cases h
  | ok b => exact congrArg _ (Option.some.inj h)

/-- A request behind the read, in the random order model. -/
theorem rnd_demo (r : MemRdWrReqIntf) (f : Accepted → Bool)
    (hf : (demoRndRun.any fun s => demoWaits s.hist &&
      (s.clkCheck demoRndCfg (demoRndIn 20 (some r)) 0).toOption.any fun t => t.2.2.any f) = true) :
    ∃ (s s' : RndMem) (e : ℕ) (x : Accepted) (q : MemRdWrReqTime), AfterReset demoRndCfg s ∧
      s.clkCheck demoRndCfg (demoRndIn 20 (some r)) 0 = .ok (s', e, some x) ∧ s.Waits q ∧ q.req = read64 ∧
      f x = true := by
  obtain ⟨s, hs, hf⟩ := (Option.any_eq_true _ _).1 hf
  obtain ⟨hwaits, hf⟩ := Bool.and_eq_true_iff.1 hf
  obtain ⟨⟨s', e, a⟩, hstep, hf⟩ := (Option.any_eq_true _ _).1 hf
  obtain ⟨x, rfl, hf⟩ := (Option.any_eq_true _ _).1 hf
  obtain ⟨q, hq, _, hread, _, hinc⟩ := demoWaits_spec hwaits
  have hreset : demoRndStart.clk demoRndCfg { demoRndIn 0 none with reset := true } = .ok demoRndStart.reset := rfl
  have hreach : Reach (RndMem.step demoRndCfg) (fun _ i => i.reset = false) demoRndStart.reset.fresh s :=
    Reach.runIf (fun _ i hi => by simpa using hi) _ .init hs
  have hafter : AfterReset demoRndCfg s :=
    ⟨false, false, 0, _, _, demoRndStart, _, demoRndStart.reset, .init, rfl, hreset, hreach⟩
  exact ⟨s, s', e, x, q, hafter, ok_of_toOption hstep, ⟨hq, hinc⟩, hread, hf⟩

/-- A request behind the read, in the bank model. -/
theorem bank_demo (r : MemRdWrReqIntf) (f : Accepted → Bool)
    (hf : (demoBankRun.any fun s => demoWaits s.hist && ((s.port 0).fifo.isEmpty &&
      ((s.port 0).scheduled.map MemRdWrReqTime.id == [0] &&
        (s.callCheck demoBankCfg 0 (demoBankIn 710 (some r)) 0).toOption.any fun t => t.2.2.any f))) = true) :
    ∃ (s s' : BankMem 1) (e : ℕ) (x : Accepted) (q : MemRdWrReqTime),
      Reach (BankMem.step demoBankCfg) BankMem.Timely (.construct fun _ => 0) s ∧
      s.callCheck demoBankCfg 0 (demoBankIn 710 (some r)) 0 = .ok (s', e, some x) ∧ s.Waits 0 q ∧
      q.req = read64 ∧ q.host = false ∧ (s.port 0).fifo = [] ∧ f x = true := by
  obtain ⟨s, hs, hf⟩ := (Option.any_eq_true _ _).1 hf
  obtain ⟨hwaits, hf⟩ := Bool.and_eq_true_iff.1 hf
  obtain ⟨hfifo, hf⟩ := Bool.and_eq_true_iff.1 hf
  obtain ⟨hsched, hf⟩ := Bool.and_eq_true_iff.1 hf
  obtain ⟨⟨s', e, a⟩, hstep, hf⟩ := (Option.any_eq_true _ _).1 hf
  obtain ⟨x, rfl, hf⟩ := (Option.any_eq_true _ _).1 hf
  obtain ⟨q, hq, hid, hread, hhost, hinc⟩ := demoWaits_spec hwaits
  have hreach : Reach (BankMem.step demoBankCfg) BankMem.Timely (.construct fun _ => 0) s :=
    Reach.runIf (fun _ _ hi => by simpa [BankMem.Timely] using hi) _ .init hs
  have hloc : s.hist.loc q.id = .busy 0 := by
    have hmem : q.id ∈ (s.port 0).scheduled.map MemRdWrReqTime.id := by
      rw [eq_of_beq hsched, hid]
      exact List.mem_cons_self
    obtain ⟨q', hq', he⟩ := List.mem_map.1 hmem
    obtain ⟨b, hb, rfl⟩ := List.mem_map.1 hq'
    rw [← he]
    exact ((BankInv.of_reach hreach).back.busy 0 b hb).2.1
  exact ⟨s, s', e, x, q, hreach, ok_of_toOption hstep, ⟨hq, hinc, .inr hloc⟩, hread, hhost,
    List.isEmpty_iff.1 hfifo, hf⟩

theorem hazard_atomic64 : Hazard atomic64 read64 :=
  ⟨rfl, rfl, ⟨64, by unfold MemRdWrReqIntf.RefersTo; decide⟩, .atomicRead⟩

theorem hazard_write64 : Hazard write64 read64 :=
  ⟨rfl, rfl, ⟨64, by unfold MemRdWrReqIntf.RefersTo; decide⟩, .writeRead⟩

theorem hazard_write72 : Hazard write72 read64 :=
  ⟨rfl, rfl, ⟨72, by unfold MemRdWrReqIntf.RefersTo; decide⟩, .writeRead⟩

/-- **Which hazards are reported.** In the random order model a hazard is reported unless the new request is a
read or an atomic and the earlier one is in the read list. In the bank model it is reported exactly when the earlier
one waits in the FIFO the new one goes to, or is scheduled on its bank. -/
theorem hazards_reported_iff {n : ℕ} (rndCfg : RndCfg) (cfg : MemCfg) (mem : Mem ℕ) (errorCnt : ℕ) :
    (∀ (s s' : RndMem) (i : RndIn) (e : ℕ) (x : Accepted), AfterReset rndCfg s →
      s.clkCheck rndCfg i errorCnt = .ok (s', e, some x) → ∀ q, s.Waits q → Hazard x.req.req q.req →
        (Reported x.calls q ↔ ¬ (x.req.req.type ≠ .wr ∧ q ∈ s.slots .rd))) ∧
    (∀ (s s' : BankMem n) (p : Fin n) (i : BankIn) (e : ℕ) (x : Accepted),
      Reach (BankMem.step cfg) BankMem.Timely (.construct mem) s →
      s.callCheck cfg p i errorCnt = .ok (s', e, some x) → ∀ q, s.Waits p q → Hazard x.req.req q.req →
        (Reported x.calls q ↔ (q ∈ (s.port p).fifo → q.host = x.req.host) ∧
          (q ∈ (s.port p).scheduled → q.bank = x.req.bank))) := by
  refine ⟨?_, ?_⟩
  · intro s s' i e x hreset hstep q hw hz
    have hcalls := (RndMem.clkCheck_ok hstep).2 x rfl
    rw [hcalls, reported_iff hz]
    exact RndMem.mem_queued_iff (RndInv.of_afterReset hreset) (.of_afterReset hreset) hw hz.conflict
  · intro s s' p i e x hr hstep q hw hz
    have hcalls := (BankMem.callCheck_ok hstep).2 x rfl
    rw [hcalls, reported_iff hz]
    exact BankMem.mem_queued_iff (BankInv.of_reach hr) (.of_reach hr) hw

/-- A write is reported for the read that waits, in both models. -/
theorem hazards_reported_demo :
    (∃ (s : RndMem) (x : Accepted) (q : MemRdWrReqTime), s.Waits q ∧ x.req.req = write72 ∧ Reported x.calls q) ∧
    (∃ (s : BankMem 1) (x : Accepted) (q : MemRdWrReqTime), s.Waits 0 q ∧ x.req.req = write64 ∧ Reported x.calls q) := by
  refine ⟨?_, ?_⟩
  · obtain ⟨s, s', e, x, q, hafter, hstep, hw, hread, hx⟩ :=
      rnd_demo write72 (fun x => x.req.req = write72) (by decide +kernel)
    have hreq : x.req.req = write72 := of_decide_eq_true hx
    have hz : Hazard x.req.req q.req := hreq ▸ hread ▸ hazard_write72
    refine ⟨s, x, q, hw, hreq, ((@hazards_reported_iff 1 _ demoBankCfg (fun _ => 0) 0).1 s s' _ e x hafter hstep q hw hz).2 ?_⟩
    intro hcond
    exact hcond.1 (by rw [hreq]; rfl)
  · obtain ⟨s, s', e, x, q, hreach, hstep, hw, hread, hhost, hfifo, hx⟩ :=
      bank_demo write64 (fun x => x.req.req = write64 && !x.req.host) (by decide +kernel)
    simp only [Bool.and_eq_true, decide_eq_true_iff, Bool.not_eq_true'] at hx
    have hz : Hazard x.req.req q.req := hx.1 ▸ hread ▸ hazard_write64
    refine ⟨s, x, q, hw, hx.1, ((hazards_reported_iff demoRndCfg _ _ 0).2 s s' 0 _ e x hreach hstep q hw hz).2 ⟨?_, ?_⟩⟩
    · intro _
      rw [hhost, hx.2]
    · intro _
      unfold MemRdWrReqTime.bank
      rw [hhost, hx.2, hread, hx.1]
      rfl

/-- **An atomic is not compared with the read** in the read list, and a write not with the read that is scheduled on
another bank. -/
theorem hazards_unreported :
    (∃ (cfg : RndCfg) (s s' : RndMem) (i : RndIn) (e : ℕ) (x : Accepted) (q : MemRdWrReqTime), AfterReset cfg s ∧
      s.clkCheck cfg i 0 = .ok (s', e, some x) ∧ s.Waits q ∧ Hazard x.req.req q.req ∧ x.calls = []) ∧
    (∃ (cfg : MemCfg) (mem : Mem ℕ) (s s' : BankMem 1) (i : BankIn) (e : ℕ) (x : Accepted) (q : MemRdWrReqTime),
      Reach (BankMem.step cfg) BankMem.Timely (.construct mem) s ∧
      s.callCheck cfg 0 i 0 = .ok (s', e, some x) ∧ s.Waits 0 q ∧ Hazard x.req.req q.req ∧ x.calls = []) := by
  refine ⟨?_, ?_⟩
  · obtain ⟨s, s', e, x, q, hafter, hstep, hw, hread, hx⟩ :=
      rnd_demo atomic64 (fun x => x.req.req = atomic64 && x.calls.isEmpty) (by decide +kernel)
    simp only [Bool.and_eq_true, decide_eq_true_iff, List.isEmpty_iff] at hx
    have hz : Hazard x.req.req q.req := hx.1 ▸ hread ▸ hazard_atomic64
    exact ⟨_, s, s', _, e, x, q, hafter, hstep, hw, hz, hx.2⟩
  · obtain ⟨s, s', e, x, q, hreach, hstep, hw, hread, _, _, hx⟩ :=
      bank_demo write72 (fun x => x.req.req = write72 && x.calls.isEmpty) (by decide +kernel)
    simp only [Bool.and_eq_true, decide_eq_true_iff, List.isEmpty_iff] at hx
    have hz : Hazard x.req.req q.req := hx.1 ▸ hread ▸ hazard_write72
    exact ⟨_, _, s, s', _, e, x, q, hreach, hstep, hw, hz, hx.2⟩

end OpenHT.Sysc
