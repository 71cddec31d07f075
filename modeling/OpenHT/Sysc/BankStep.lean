import OpenHT.Sysc.BankInv

/-!
# Steps of the bank model

* `BankInv.schedule`: a scheduled request goes behind the half-finished burst of its port.
* `BankInv.transferNext`, `BankInv.transferLast`: a quadword of the request at the back of its port.
* `BankInv.call`: a call at a time that is not before the last one keeps the invariant.
-/

namespace OpenHT.Sysc

variable {n : ℕ}

/-- The request interface takes nothing from a bank queue. -/
theorem BankMem.takeIn_ne_emptyFront {cfg : MemCfg} {p : Fin n} {i : BankIn} {s : BankMem n} :
    s.takeIn cfg p i ≠ .error .emptyFront := by
  intro he
  unfold takeIn at he
  cases hr : i.req with
  | none =>
    rw [hr] at he
    cases he
  | some r =>
    rw [hr] at he
    simp only [bind_error] at he
    rcases he with he | ⟨_, _, he⟩
    · cases hp : (s.port p).newReq with
      | none =>
        rw [hp] at he
        exact newReq_ne _ he
      | some q =>
        rw [hp] at he
        cases he
    · split at he
      · cases he
      · cases he

namespace BankInv

variable {cfg : MemCfg} {p : Fin n} {i : BankIn} {s s' : BankMem n}

/-- The new time is after now and after all others of the bank. -/
theorem lt_avlTime (h : BankBack s) {busy : ℚ} (hbusy : 0 < busy) (r : MemRdWrReqTime) :
    s.now < s.avlTime busy r ∧ ∀ b ∈ s.bankQue r.bank, b.bankAvlTime < s.avlTime busy r := by
  unfold BankMem.avlTime
  cases hl : (s.bankQue r.bank).getLast? with
  | none =>
    refine ⟨lt_add_of_pos_right _ hbusy, ?_⟩
    intro b hb
    rw [List.getLast?_eq_none_iff.1 hl] at hb
    cases hb
  | some last =>
    refine ⟨lt_of_lt_of_le (lt_add_of_pos_right _ hbusy) (le_max_right _ _), ?_⟩
    intro b hb
    have hle : b.bankAvlTime ≤ last.bankAvlTime := by
      obtain ⟨l, hl'⟩ := List.getLast?_eq_some_iff.1 hl
      have horder := h.bankOrder r.bank
      rw [hl'] at horder hb
      rcases List.mem_append.1 hb with hb | hb
      · exact le_of_lt ((List.pairwise_append.1 horder).2.2 b hb last List.mem_cons_self)
      · obtain rfl : b = last := by simpa using hb
        exact le_refl _
    exact lt_of_lt_of_le (lt_of_le_of_lt hle (lt_add_of_pos_right _ hbusy)) (le_max_left _ _)

/-- Progress of the requests of a port when one more is inserted. -/
theorem progress_insertBusy (h : BankBack s) {b : BankReq} (hb : s.now < b.bankAvlTime) (x : BankReq) :
    BankPort.progress { s.port p with bankBusyQue := insertBusy b (s.port p).bankBusyQue } x =
      (s.port p).progress x := by
  by_cases hqw : (s.port p).qwIdx x.r.req.type.dir = 0
  · unfold BankPort.progress
    dsimp only
    rw [hqw, ite_self, ite_self]
  · obtain ⟨y, hy, _, _, _, hle⟩ := h.burst p _ hqw
    have hbefore : y.before b = true := BankReq.before_iff.2 (.inl (lt_of_le_of_lt hle hb))
    unfold BankPort.progress
    dsimp only
    rw [getLast_insertBusy hy hbefore, hy]

/-- **Scheduling** a request of the FIFO of port `p`; `c` is the port without it. -/
theorem schedule (h : BankInv s) {c : BankPort} {r : MemRdWrReqTime} {busy : ℚ} (hbusy : 0 < busy)
    (hfifo : (s.port p).fifo.Perm (r :: c.fifo))
    (hc : c = { s.port p with hostReqQue := c.hostReqQue, bankReqQue := c.bankReqQue }) :
    BankInv ((s.setPort p c).schedule p busy r) := by
  have hc1 : c.newReq = (s.port p).newReq := by rw [hc]
  have hc2 : c.wrDataIdx = (s.port p).wrDataIdx := by rw [hc]
  have hc3 : c.bankBusyQue = (s.port p).bankBusyQue := by rw [hc]
  have hc4 : c.qwIdx = (s.port p).qwIdx := by rw [hc]
  obtain ⟨b, hbdef⟩ : ∃ b : BankReq, b = ⟨r, s.avlTime busy r⟩ := ⟨_, rfl⟩
  obtain ⟨hnow, hlt⟩ := lt_avlTime h.back hbusy r
  have hbr : b.r = r := by rw [hbdef]
  have hbt : b.bankAvlTime = s.avlTime busy r := by rw [hbdef]
  have hstate : (s.setPort p c).schedule p busy r =
      { s.setPort p { c with bankBusyQue := insertBusy b (s.port p).bankBusyQue } with
        bankQue := Function.update s.bankQue r.bank (s.bankQue r.bank ++ [b])
        hist := s.hist.move r.id (.busy p) } := by
    unfold BankMem.schedule
    dsimp only
    rw [BankMem.port_setPort_self, hc3, hbdef]
    simp [BankMem.setPort, BankMem.avlTime]
  rw [hstate]
  obtain ⟨hacc, hloc⟩ := h.front.fifo p r (hfifo.mem_iff.2 List.mem_cons_self)
  have hbusyNe (p' : Fin n) (x : BankReq) (hx : x ∈ (s.port p').bankBusyQue) : x.r.id ≠ r.id := by
    intro he
    have hl := (h.back.busy p' x hx).2.1
    rw [he, hloc] at hl
    cases hl
  have hbank (k : ℕ) (x : BankReq) : x ∈ Function.update s.bankQue r.bank (s.bankQue r.bank ++ [b]) k ↔
      x ∈ s.bankQue k ∨ k = r.bank ∧ x = b := by
    by_cases hk : k = r.bank
    · subst hk
      rw [Function.update_self, List.mem_append, List.mem_singleton]
      simp
    · rw [Function.update_of_ne hk]
      simp [hk]
  have hfifoNodup := h.front.fifoNodup p
  rw [(hfifo.map _).nodup_iff, List.map_cons, List.nodup_cons] at hfifoNodup
  -- Port by port, with the lists of the new state.
  obtain ⟨port, hportdef⟩ : ∃ port, port = Function.update s.port p
    { c with bankBusyQue := insertBusy b (s.port p).bankBusyQue } := ⟨_, rfl⟩
  have hself : port p = { c with bankBusyQue := insertBusy b (s.port p).bankBusyQue } := by
    rw [hportdef, Function.update_self]
  have hother (p' : Fin n) (hp : p' ≠ p) : port p' = s.port p' := by
    rw [hportdef, Function.update_of_ne hp]
  have hnewReq (p' : Fin n) : (port p').newReq = (s.port p').newReq ∧
      (port p').wrDataIdx = (s.port p').wrDataIdx ∧ (port p').qwIdx = (s.port p').qwIdx := by
    by_cases hp : p' = p
    · subst hp
      rw [hself]
      exact ⟨hc1, hc2, hc4⟩
    · rw [hother p' hp]
      exact ⟨rfl, rfl, rfl⟩
  have hmem (p' : Fin n) (x : BankReq) : x ∈ (port p').bankBusyQue ↔
      x ∈ (s.port p').bankBusyQue ∨ p' = p ∧ x = b := by
    by_cases hp : p' = p
    · subst hp
      rw [hself, (insertBusy_perm b _).mem_iff, List.mem_cons]
      simp [or_comm]
    · rw [hother p' hp]
      simp [hp]
  have hfifoMem (p' : Fin n) (q : MemRdWrReqTime) (hq : q ∈ (port p').fifo) :
      q ∈ (s.port p').fifo ∧ q.id ≠ r.id := by
    by_cases hp : p' = p
    · subst hp
      rw [hself] at hq
      have hq : q ∈ c.fifo := hq
      refine ⟨hfifo.mem_iff.2 (List.mem_cons_of_mem _ hq), ?_⟩
      intro he
      exact hfifoNodup.1 (he ▸ List.mem_map_of_mem hq)
    · rw [hother p' hp] at hq
      refine ⟨hq, ?_⟩
      intro he
      have hl := (h.front.fifo p' q hq).2
      rw [he, hloc] at hl
      cases hl
      exact hp rfl
  have hprog (p' : Fin n) (x : BankReq) : (port p').progress x = (s.port p').progress x := by
    by_cases hp : p' = p
    · subst hp
      rw [← progress_insertBusy h.back (hbt ▸ hnow) x, hself]
      unfold BankPort.progress
      dsimp only
      rw [hc4]
    · rw [hother p' hp]
  have hlast (p' : Fin n) (y : BankReq) (hy : (s.port p').bankBusyQue.getLast? = some y)
      (hle : y.bankAvlTime ≤ s.now) : (port p').bankBusyQue.getLast? = some y := by
    by_cases hp : p' = p
    · subst hp
      rw [hself]
      exact getLast_insertBusy hy (BankReq.before_iff.2 (.inl (hbt ▸ lt_of_le_of_lt hle hnow)))
    · rw [hother p' hp]
      exact hy
  have hstate' : BankInv { s with
      port := port, bankQue := Function.update s.bankQue r.bank (s.bankQue r.bank ++ [b])
      hist := s.hist.move r.id (.busy p) } := {
    front := {
      asm := by
        intro p'
        dsimp only
        rw [(hnewReq p').1, (hnewReq p').2.1]
        exact h.front.asm p'
      asmNew := by
        intro p' x hx
        dsimp only at hx
        rw [(hnewReq p').1] at hx
        exact h.front.asmNew p' x hx
      asmApart := by
        intro p₁ p₂ hne x hx y hy
        dsimp only at hx hy
        rw [(hnewReq p₁).1] at hx
        rw [(hnewReq p₂).1] at hy
        exact h.front.asmApart p₁ p₂ hne x hx y hy
      fifo := by
        intro p' q hq
        obtain ⟨hq, hne⟩ := hfifoMem p' q hq
        obtain ⟨hacc', hl⟩ := h.front.fifo p' q hq
        exact ⟨hacc', (Function.update_of_ne hne _ _).trans hl⟩
      fifoNodup := by
        intro p'
        dsimp only
        by_cases hp : p' = p
        · subst hp
          rw [hself]
          exact hfifoNodup.2
        · rw [hother p' hp]
          exact h.front.fifoNodup p' }
    back := {
      busy := by
        intro p' x hx
        rcases (hmem p' x).1 hx with hx | ⟨rfl, rfl⟩
        · obtain ⟨h1, h2, h3⟩ := h.back.busy p' x hx
          exact ⟨h1, (Function.update_of_ne (hbusyNe p' x hx) _ _).trans h2, (hbank _ x).2 (.inl h3)⟩
        · refine ⟨hbr ▸ hacc, ?_, (hbank _ x).2 (.inr ⟨congrArg _ hbr, rfl⟩)⟩
          rw [hbr]
          exact Function.update_self _ _ _
      busyNodup := by
        intro p'
        dsimp only
        by_cases hp : p' = p
        · subst hp
          rw [hself, ((insertBusy_perm b _).map _).nodup_iff, List.map_cons, List.nodup_cons]
          refine ⟨?_, h.back.busyNodup p'⟩
          intro hin
          obtain ⟨x, hx, he⟩ := List.mem_map.1 hin
          exact hbusyNe p' x hx (he.trans (congrArg _ hbr))
        · rw [hother p' hp]
          exact h.back.busyNodup p'
      bank := by
        intro k x hx
        rcases (hbank k x).1 hx with hx | ⟨rfl, rfl⟩
        · obtain ⟨hk, p', hp'⟩ := h.back.bank k x hx
          exact ⟨hk, p', (hmem p' x).2 (.inl hp')⟩
        · exact ⟨congrArg _ hbr, p, (hmem p x).2 (.inr ⟨rfl, rfl⟩)⟩
      bankOrder := by
        intro k
        dsimp only
        by_cases hk : k = r.bank
        · subst hk
          rw [Function.update_self]
          refine List.pairwise_append.2 ⟨h.back.bankOrder _, List.pairwise_singleton _ _, ?_⟩
          intro x hx y hy
          obtain rfl : y = b := by simpa using hy
          exact hbt ▸ hlt x hx
        · rw [Function.update_of_ne hk]
          exact h.back.bankOrder k
      busyOrder := by
        intro p'
        dsimp only
        by_cases hp : p' = p
        · subst hp
          rw [hself]
          exact insertBusy_order (h.back.busyOrder p')
        · rw [hother p' hp]
          exact h.back.busyOrder p'
      burst := by
        intro p' d hd
        dsimp only at hd
        rw [(hnewReq p').2.2] at hd
        obtain ⟨y, h1, h2, h3, h4, h5⟩ := h.back.burst p' d hd
        refine ⟨y, hlast p' y h1 h5, h2, ?_, ?_, h5⟩
        · dsimp only
          by_cases hk : y.r.bank = r.bank
          · rw [hk] at h3 ⊢
            rw [Function.update_self, List.head?_append, h3]
            rfl
          · rw [Function.update_of_ne hk]
            exact h3
        · dsimp only
          rw [(hnewReq p').2.2]
          exact h4 }
    at_loc := by
      intro q hq
      show BankMem.At _ q (Function.update s.hist.loc r.id (.busy p) q.id)
      by_cases hqr : q = r
      · subst hqr
        rw [Function.update_self]
        refine ⟨b, (hmem p b).2 (.inr ⟨rfl, rfl⟩), hbr, ?_⟩
        have hqws : s.hist.qws q.id = [] := by
          have hat := h.at_loc q hacc
          rw [hloc] at hat
          exact hat.2
        -- The new request has no progress: a half-finished burst is still at the back.
        have hzero : (port p).progress b = 0 := by
          unfold BankPort.progress
          rw [(hnewReq p).2.2]
          by_cases hqw : (s.port p).qwIdx b.r.req.type.dir = 0
          · rw [hqw, ite_self]
          · obtain ⟨y, h1, _, _, _, h5⟩ := h.back.burst p _ hqw
            rw [hlast p y h1 h5, if_neg]
            intro he
            exact hbusyNe p y (List.mem_of_getLast? h1) ((Option.some.inj he).trans (congrArg _ hbr))
        exact hqws.trans (congrArg List.range hzero).symm
      · have hne : q.id ≠ r.id := fun he => hqr (h.hist.eq_of_id hq hacc he)
        rw [Function.update_of_ne hne]
        refine (h.at_loc q hq).congr rfl ?_ ?_
        · intro p' _ hin
          dsimp only
          by_cases hp : p' = p
          · subst hp
            rw [hself]
            rcases List.mem_cons.1 (hfifo.mem_iff.1 hin) with he | hin
            · exact absurd he hqr
            · exact hin
          · rw [hother p' hp]
            exact hin
        · intro p' x _ hx _
          exact ⟨(hmem p' x).2 (.inl hx), hprog p' x⟩
    hist := h.hist.move _ _ }
  rw [hportdef] at hstate'
  exact hstate'

theorem bankBusyTime_pos (host : Bool) (tidQw : ℕ) : 0 < BankMem.bankBusyTime host tidQw := by
  unfold BankMem.bankBusyTime
  split
  · split <;> norm_num
  · split <;> norm_num

theorem scheduleReq (h : BankInv s) : BankInv (s.scheduleReq p) := by
  unfold BankMem.scheduleReq
  dsimp only
  split
  · rename_i r hr
    have hhead : (s.port p).hostReqQue.head? = some r := (Option.filter_eq_some_iff.1 hr).1
    obtain ⟨l, hl⟩ : ∃ l, (s.port p).hostReqQue = r :: l := List.head?_eq_some_iff.1 hhead
    refine h.schedule (bankBusyTime_pos _ _) ?_ rfl
    unfold BankPort.fifo
    dsimp only
    rw [hl]
    exact List.Perm.refl _
  · split
    · rename_i r hr
      have hhead : (s.port p).bankReqQue.head? = some r := (Option.filter_eq_some_iff.1 hr).1
      obtain ⟨l, hl⟩ : ∃ l, (s.port p).bankReqQue = r :: l := List.head?_eq_some_iff.1 hhead
      refine h.schedule (bankBusyTime_pos _ _) ?_ rfl
      unfold BankPort.fifo
      dsimp only
      rw [hl]
      exact List.perm_middle
    · exact h

section Transfer

variable {b : BankReq}

/-- The transfers made for the request at the back of a port. -/
theorem qws_last (h : BankInv s) (hlast : (s.port p).bankBusyQue.getLast? = some b) :
    s.hist.qws b.r.id = List.range ((s.port p).qwIdx b.r.req.type.dir) := by
  obtain ⟨hacc, hloc, _⟩ := h.back.busy p b (List.mem_of_getLast? hlast)
  have hat := h.at_loc b.r hacc
  rw [hloc] at hat
  obtain ⟨b', hb', hbr, hq⟩ := hat
  have hp : (s.port p).progress b' = (s.port p).qwIdx b.r.req.type.dir := by
    unfold BankPort.progress
    rw [hlast, hbr]
    exact if_pos rfl
  rw [hq, hp]

theorem qwIdx_lt (h : BankInv s) (hlast : (s.port p).bankBusyQue.getLast? = some b) :
    (s.port p).qwIdx b.r.req.type.dir < b.r.reqQwCnt := by
  by_cases hqw : (s.port p).qwIdx b.r.req.type.dir = 0
  · rw [hqw]
    exact (h.hist.cnt _ (h.back.busy p b (List.mem_of_getLast? hlast)).1).1
  · obtain ⟨y, h1, _, _, h4, _⟩ := h.back.burst p _ hqw
    obtain rfl : b = y := Option.some.inj (hlast.symm.trans h1)
    exact h4

/-- Only the direction of the request at the back is counted. -/
theorem qwIdx_other (h : BankInv s) (hlast : (s.port p).bankBusyQue.getLast? = some b) {d : MemDir}
    (hd : d ≠ b.r.req.type.dir) : (s.port p).qwIdx d = 0 := by
  by_contra hqw
  obtain ⟨y, h1, h2, _⟩ := h.back.burst p _ hqw
  obtain rfl : b = y := Option.some.inj (hlast.symm.trans h1)
  exact hd h2.symm

/-- **A transfer** that is not the request's last. -/
theorem transferNext (h : BankInv s) (hlast : (s.port p).bankBusyQue.getLast? = some b)
    (hfront : (s.bankQue b.r.bank).head? = some b) (hnow : b.bankAvlTime ≤ s.now) (mem : Mem ℕ) (rsp : MemRsp)
    (hne : (s.port p).qwIdx b.r.req.type.dir + 1 ≠ b.r.reqQwCnt) :
    BankInv { s.setPort p ((s.port p).setQwIdx b.r.req.type.dir ((s.port p).qwIdx b.r.req.type.dir + 1)) with
      mem := mem, rsp := rsp, hist := s.hist.xfer b.r.id ((s.port p).qwIdx b.r.req.type.dir) } := by
  obtain ⟨hacc, hloc, _⟩ := h.back.busy p b (List.mem_of_getLast? hlast)
  have hnext := s.hist.qws_xfer (h.qws_last hlast)
  have hlt := h.qwIdx_lt hlast
  obtain ⟨port, hportdef⟩ : ∃ port, port = Function.update s.port p
    ((s.port p).setQwIdx b.r.req.type.dir ((s.port p).qwIdx b.r.req.type.dir + 1)) := ⟨_, rfl⟩
  have hself : port p = (s.port p).setQwIdx b.r.req.type.dir ((s.port p).qwIdx b.r.req.type.dir + 1) := by
    rw [hportdef, Function.update_self]
  have hother (p' : Fin n) (hp : p' ≠ p) : port p' = s.port p' := by
    rw [hportdef, Function.update_of_ne hp]
  have hlists (p' : Fin n) : (port p').newReq = (s.port p').newReq ∧
      (port p').wrDataIdx = (s.port p').wrDataIdx ∧ (port p').fifo = (s.port p').fifo ∧
      (port p').bankBusyQue = (s.port p').bankBusyQue := by
    by_cases hp : p' = p
    · subst hp
      rw [hself]
      exact ⟨rfl, rfl, rfl, rfl⟩
    · rw [hother p' hp]
      exact ⟨rfl, rfl, rfl, rfl⟩
  have hstate : BankInv { s with
      port := port, mem := mem, rsp := rsp
      hist := s.hist.xfer b.r.id ((s.port p).qwIdx b.r.req.type.dir) } := {
    front := h.front.congr (fun p' => ⟨(hlists p').1, (hlists p').2.1, (hlists p').2.2.1⟩) rfl rfl
      fun _ _ _ => rfl
    back := {
      busy := by
        intro p' x hx
        dsimp only at hx
        rw [(hlists p').2.2.2] at hx
        exact h.back.busy p' x hx
      busyNodup := by
        intro p'
        dsimp only
        rw [(hlists p').2.2.2]
        exact h.back.busyNodup p'
      bank := by
        intro k x hx
        obtain ⟨hk, p', hp'⟩ := h.back.bank k x hx
        refine ⟨hk, p', ?_⟩
        dsimp only
        rw [(hlists p').2.2.2]
        exact hp'
      bankOrder := h.back.bankOrder
      busyOrder := by
        intro p'
        dsimp only
        rw [(hlists p').2.2.2]
        exact h.back.busyOrder p'
      burst := by
        intro p' d hd
        dsimp only at hd
        by_cases hp : p' = p
        · subst hp
          have hdb : d = b.r.req.type.dir := by
            by_contra hdb
            rw [hself] at hd
            unfold BankPort.setQwIdx at hd
            dsimp only at hd
            rw [Function.update_of_ne hdb] at hd
            exact hd (h.qwIdx_other hlast hdb)
          subst hdb
          refine ⟨b, ?_, rfl, hfront, ?_, hnow⟩
          · dsimp only
            rw [(hlists p').2.2.2]
            exact hlast
          · dsimp only
            rw [hself]
            unfold BankPort.setQwIdx
            dsimp only
            rw [Function.update_self]
            omega
        · rw [hother p' hp] at hd
          obtain ⟨y, h1, h2, h3, h4, h5⟩ := h.back.burst p' d hd
          refine ⟨y, ?_, h2, h3, ?_, h5⟩
          · dsimp only
            rw [hother p' hp]
            exact h1
          · dsimp only
            rw [hother p' hp]
            exact h4 }
    at_loc := by
      intro q hq
      show BankMem.At _ q (s.hist.loc q.id)
      by_cases hqb : q = b.r
      · subst hqb
        rw [hloc]
        refine ⟨b, ?_, rfl, hnext.trans (congrArg List.range ?_)⟩
        · dsimp only
          rw [(hlists p).2.2.2]
          exact List.mem_of_getLast? hlast
        · dsimp only
          unfold BankPort.progress
          rw [(hlists p).2.2.2, hlast, hself]
          unfold BankPort.setQwIdx
          dsimp only
          rw [Function.update_self]
          exact (if_pos rfl).symm
      · have hid : b.r.id ≠ q.id := fun he => hqb (h.hist.eq_of_id hq hacc he.symm)
        refine (h.at_loc q hq).congr (s.hist.qws_xfer_of_ne hid _) ?_ ?_
        · intro p' _ hin
          dsimp only
          rw [(hlists p').2.2.1]
          exact hin
        · intro p' x _ hx hxq
          dsimp only
          refine ⟨by rw [(hlists p').2.2.2]; exact hx, ?_⟩
          unfold BankPort.progress
          rw [(hlists p').2.2.2]
          by_cases hp : p' = p
          · subst hp
            have hxid : ¬ (some b.r.id = some x.r.id) := fun he => hid ((Option.some.inj he).trans (congrArg _ hxq))
            rw [hlast, Option.map_some, if_neg hxid, if_neg hxid]
          · rw [hother p' hp]
    hist := h.hist.xfer hacc _ }
  rw [hportdef] at hstate
  exact hstate

/-- **The last transfer** of a request takes it out of its queues. -/
theorem transferLast (h : BankInv s) (hlast : (s.port p).bankBusyQue.getLast? = some b)
    (hfront : (s.bankQue b.r.bank).head? = some b) (mem : Mem ℕ) (rsp : MemRsp)
    (hcnt : (s.port p).qwIdx b.r.req.type.dir + 1 = b.r.reqQwCnt) :
    BankInv { s.setPort p { (s.port p).setQwIdx b.r.req.type.dir 0 with
        bankBusyQue := (s.port p).bankBusyQue.dropLast } with
      bankQue := Function.update s.bankQue b.r.bank (s.bankQue b.r.bank).tail
      mem := mem, rsp := rsp
      hist := (s.hist.xfer b.r.id ((s.port p).qwIdx b.r.req.type.dir)).move b.r.id .done } := by
  obtain ⟨hacc, hloc, _⟩ := h.back.busy p b (List.mem_of_getLast? hlast)
  have hnext := s.hist.qws_xfer (h.qws_last hlast)
  obtain ⟨l, hl⟩ := List.getLast?_eq_some_iff.1 hlast
  obtain ⟨m, hm⟩ := List.head?_eq_some_iff.1 hfront
  obtain ⟨port, hportdef⟩ : ∃ port, port = Function.update s.port p
    { (s.port p).setQwIdx b.r.req.type.dir 0 with bankBusyQue := (s.port p).bankBusyQue.dropLast } := ⟨_, rfl⟩
  have hself : port p = { (s.port p).setQwIdx b.r.req.type.dir 0 with bankBusyQue := l } := by
    rw [hportdef, Function.update_self, hl, List.dropLast_concat]
  have hother (p' : Fin n) (hp : p' ≠ p) : port p' = s.port p' := by
    rw [hportdef, Function.update_of_ne hp]
  have hzero (d : MemDir) : (port p).qwIdx d = 0 := by
    rw [hself]
    unfold BankPort.setQwIdx
    dsimp only
    by_cases hd : d = b.r.req.type.dir
    · rw [hd, Function.update_self]
    · rw [Function.update_of_ne hd, h.qwIdx_other hlast hd]
  have hfront' (p' : Fin n) : (port p').newReq = (s.port p').newReq ∧
      (port p').wrDataIdx = (s.port p').wrDataIdx ∧ (port p').fifo = (s.port p').fifo := by
    by_cases hp : p' = p
    · subst hp
      rw [hself]
      exact ⟨rfl, rfl, rfl⟩
    · rw [hother p' hp]
      exact ⟨rfl, rfl, rfl⟩
  -- The ids of the requests that stay scheduled.
  have hbusyNodup := h.back.busyNodup p
  rw [hl, List.map_append, List.nodup_append] at hbusyNodup
  have hmem (p' : Fin n) (x : BankReq) : x ∈ (port p').bankBusyQue ↔
      x ∈ (s.port p').bankBusyQue ∧ x.r.id ≠ b.r.id := by
    by_cases hp : p' = p
    · subst hp
      rw [hself, hl, List.mem_append, List.mem_singleton]
      constructor
      · intro hx
        exact ⟨.inl hx, hbusyNodup.2.2 _ (List.mem_map_of_mem (f := fun b : BankReq => b.r.id) hx) _ (by simp)⟩
      · rintro ⟨hx | rfl, hne⟩
        · exact hx
        · exact absurd rfl hne
    · rw [hother p' hp]
      refine ⟨fun hx => ⟨hx, ?_⟩, And.left⟩
      intro he
      have hx' := (h.back.busy p' x hx).2.1
      rw [he, hloc] at hx'
      cases hx'
      exact hp rfl
  have hmne (x : BankReq) (hx : x ∈ m) : x ≠ b := by
    have horder := h.back.bankOrder b.r.bank
    rw [hm] at horder
    rintro rfl
    exact lt_irrefl _ ((List.pairwise_cons.1 horder).1 x hx)
  have hbank (k : ℕ) (x : BankReq) : x ∈ Function.update s.bankQue b.r.bank (s.bankQue b.r.bank).tail k ↔
      x ∈ s.bankQue k ∧ x ≠ b := by
    by_cases hk : k = b.r.bank
    · subst hk
      rw [Function.update_self, hm, List.tail_cons, List.mem_cons]
      constructor
      · intro hx
        exact ⟨.inr hx, hmne x hx⟩
      · rintro ⟨hx | hx, hne⟩
        · exact absurd hx hne
        · exact hx
    · rw [Function.update_of_ne hk]
      refine ⟨fun hx => ⟨hx, ?_⟩, And.left⟩
      rintro rfl
      exact hk (h.back.bank k x hx).1.symm
  have hstate : BankInv { s with
      port := port, mem := mem, rsp := rsp
      bankQue := Function.update s.bankQue b.r.bank (s.bankQue b.r.bank).tail
      hist := (s.hist.xfer b.r.id ((s.port p).qwIdx b.r.req.type.dir)).move b.r.id .done } := {
    front := by
      refine h.front.congr hfront' rfl rfl ?_
      intro p' q hq
      refine Function.update_of_ne ?_ _ _
      intro he
      have hq' := (h.front.fifo p' q hq).2
      rw [he, hloc] at hq'
      cases hq'
    back := {
      busy := by
        intro p' x hx
        obtain ⟨hx, hne⟩ := (hmem p' x).1 hx
        obtain ⟨h1, h2, h3⟩ := h.back.busy p' x hx
        refine ⟨h1, (Function.update_of_ne hne _ _).trans h2, (hbank _ x).2 ⟨h3, ?_⟩⟩
        rintro rfl
        exact hne rfl
      busyNodup := by
        intro p'
        dsimp only
        by_cases hp : p' = p
        · subst hp
          rw [hself]
          exact hbusyNodup.1
        · rw [hother p' hp]
          exact h.back.busyNodup p'
      bank := by
        intro k x hx
        obtain ⟨hx, hne⟩ := (hbank k x).1 hx
        obtain ⟨hk, p', hp'⟩ := h.back.bank k x hx
        refine ⟨hk, p', (hmem p' x).2 ⟨hp', ?_⟩⟩
        -- Two scheduled requests with one id are the same.
        intro he
        have hx' := (h.back.busy p' x hp').2.1
        rw [he, hloc] at hx'
        cases hx'
        exact hne (List.inj_on_of_nodup_map (h.back.busyNodup p) hp' (List.mem_of_getLast? hlast) he)
      bankOrder := by
        intro k
        dsimp only
        by_cases hk : k = b.r.bank
        · subst hk
          rw [Function.update_self]
          exact (h.back.bankOrder _).sublist (List.tail_sublist _)
        · rw [Function.update_of_ne hk]
          exact h.back.bankOrder k
      busyOrder := by
        intro p'
        dsimp only
        by_cases hp : p' = p
        · subst hp
          have horder := h.back.busyOrder p'
          rw [hl] at horder
          rw [hself]
          exact (List.pairwise_append.1 horder).1
        · rw [hother p' hp]
          exact h.back.busyOrder p'
      burst := by
        intro p' d hd
        dsimp only at hd
        by_cases hp : p' = p
        · subst hp
          exact absurd (hzero d) hd
        · rw [hother p' hp] at hd
          obtain ⟨y, h1, h2, h3, h4, h5⟩ := h.back.burst p' d hd
          refine ⟨y, ?_, h2, ?_, ?_, h5⟩
          · dsimp only
            rw [hother p' hp]
            exact h1
          · dsimp only
            by_cases hk : y.r.bank = b.r.bank
            · -- The front of that bank is `b`, which waits on port `p`.
              exfalso
              rw [hk, hfront] at h3
              obtain rfl : b = y := Option.some.inj h3
              have hy := (h.back.busy p' b (List.mem_of_getLast? h1)).2.1
              rw [hloc] at hy
              cases hy
              exact hp rfl
            · rw [Function.update_of_ne hk]
              exact h3
          · dsimp only
            rw [hother p' hp]
            exact h4 }
    at_loc := by
      intro q hq
      show BankMem.At _ q (Function.update s.hist.loc b.r.id .done q.id)
      by_cases hqb : q = b.r
      · subst hqb
        rw [Function.update_self]
        exact hnext.trans (congrArg List.range hcnt)
      · have hid : b.r.id ≠ q.id := fun he => hqb (h.hist.eq_of_id hq hacc he.symm)
        rw [Function.update_of_ne hid.symm]
        refine (h.at_loc q hq).congr (s.hist.qws_xfer_of_ne hid _) ?_ ?_
        · intro p' _ hin
          dsimp only
          rw [(hfront' p').2.2]
          exact hin
        · intro p' x _ hx hxq
          have hxid : x.r.id ≠ b.r.id := fun he => hid (he.symm.trans (congrArg _ hxq))
          refine ⟨(hmem p' x).2 ⟨hx, hxid⟩, ?_⟩
          dsimp only
          unfold BankPort.progress
          by_cases hp : p' = p
          · subst hp
            have hxl : ¬ (some b.r.id = some x.r.id) := fun he => hxid (Option.some.inj he).symm
            rw [hlast, Option.map_some, if_neg hxl, hzero, ite_self]
          · rw [hother p' hp]
    hist := (h.hist.xfer hacc _).move _ _ }
  rw [hportdef] at hstate
  exact hstate

theorem transfer (h : BankInv s) (hlast : (s.port p).bankBusyQue.getLast? = some b)
    (hfront : (s.bankQue b.r.bank).head? = some b) (hnow : b.bankAvlTime ≤ s.now) (mem : Mem ℕ) (rsp : MemRsp) :
    BankInv (s.transfer p b b.r.req.type.dir mem rsp) := by
  unfold BankMem.transfer
  dsimp only
  by_cases hcnt : (s.port p).qwIdx b.r.req.type.dir + 1 = b.r.reqQwCnt
  · rw [if_pos hcnt]
    exact h.transferLast hlast hfront mem rsp hcnt
  · rw [if_neg hcnt]
    exact h.transferNext hlast hfront hnow mem rsp hcnt

theorem serve (h : BankInv s) (hlast : (s.port p).bankBusyQue.getLast? = some b)
    (hfront : (s.bankQue b.r.bank).head? = some b) (hnow : b.bankAvlTime ≤ s.now) :
    BankInv (s.serve cfg p i b) := by
  unfold BankMem.serve
  dsimp only
  cases hd : b.r.req.type.dir with
  | rd =>
    dsimp only
    split
    · exact h
    · exact hd ▸ h.transfer hlast hfront hnow _ _
  | wr =>
    dsimp only
    split
    · exact h
    · exact hd ▸ h.transfer hlast hfront hnow _ _

end Transfer

/-- The front of the bank of a port's earliest request, if the ids are the same. -/
theorem front_eq (h : BankInv s) {b f : BankReq} (hlast : (s.port p).bankBusyQue.getLast? = some b)
    (hfront : (s.bankQue b.r.bank).head? = some f) (hid : f.r.id = b.r.id) : f = b := by
  have hb := List.mem_of_getLast? hlast
  obtain ⟨p', hp'⟩ := (h.back.bank _ f (List.mem_of_head? hfront)).2
  have hlf := (h.back.busy p' f hp').2.1
  rw [hid, (h.back.busy p b hb).2.1] at hlf
  cases hlf
  exact List.inj_on_of_nodup_map (h.back.busyNodup p) hp' hb hid

/-- **Completion** never finds an empty bank queue. -/
theorem complete_ne_emptyFront (h : BankInv s) : s.complete cfg p i ≠ .error .emptyFront := by
  unfold BankMem.complete
  split
  · intro he
    cases he
  · rename_i b hlast
    have hmem := (h.back.busy p b (List.mem_of_getLast? hlast)).2.2
    split
    · rename_i hnil
      rw [hnil] at hmem
      cases hmem
    · split
      · unfold checkAddr
        split
        · intro he
          cases he
        · intro he
          cases he
      · intro he
        cases he

theorem complete (h : BankInv s) (he : s.complete cfg p i = .ok s') : BankInv s' := by
  unfold BankMem.complete at he
  split at he
  · cases he
    exact h
  · rename_i b hlast
    split at he
    · cases he
    · rename_i f l hque
      split at he
      · rename_i hc
        simp only [bind_ok] at he
        obtain ⟨_, _, he⟩ := he
        cases he
        have hfront : (s.bankQue b.r.bank).head? = some f := by rw [hque]; rfl
        obtain rfl := h.front_eq hlast hfront hc.1
        exact h.serve hlast hfront hc.2
      · cases he
        exact h

/-- **A call** at a time that is not before the last one. -/
theorem call (h : BankInv s) (hnow : s.now ≤ i.now) (he : s.call cfg p i = .ok s') : BankInv s' := by
  unfold BankMem.call at he
  simp only [bind_ok] at he
  obtain ⟨s₁, htake, he⟩ := he
  exact ((h.setNow hnow _).takeIn htake).scheduleReq.complete he

theorem call_ne_emptyFront (h : BankInv s) (hnow : s.now ≤ i.now) : s.call cfg p i ≠ .error .emptyFront := by
  unfold BankMem.call
  cases htake : BankMem.takeIn cfg p i { s with rsp := ⟨none, none⟩, now := i.now } with
  | error e =>
    intro he
    cases he
    exact BankMem.takeIn_ne_emptyFront htake
  | ok s₁ =>
    have h₁ : BankInv s₁ := (h.setNow hnow _).takeIn htake
    exact h₁.scheduleReq.complete_ne_emptyFront

theorem construct (mem : Mem ℕ) : BankInv (n := n) (.construct mem) where
  front := by
    refine ⟨fun _ => rfl, ?_, ?_, ?_, ?_⟩ <;> simp [BankMem.construct, BankPort.fifo]
  back := by
    refine ⟨?_, ?_, ?_, ?_, ?_, ?_⟩ <;> simp [BankMem.construct]
  at_loc := by simp [BankMem.construct]
  hist := ⟨by simp [BankMem.construct], by simp [BankMem.construct], by simp [BankMem.construct], fun _ _ => rfl⟩

end BankInv

end OpenHT.Sysc
