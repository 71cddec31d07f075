import OpenHT.Sysc.MemOrder
import OpenHT.Sysc.SerialMem

/-!
# The bank model is a serial memory

The requests of one port for one bank wait in one queue. The FIFOs, the bank queues and the lists of the ports only
decide which queue is next.

* `BankPort.pending`: the queue of a port for a bank, in the port's FIFOs and its list.
* `Serves`: a state of the model and one of `SerialMem`.
* `takeIn_serves`, `scheduleReq_serves`, `complete_serves`: the parts of a call.
* `bank_mem_serial`: every run is one of `SerialMem`.
* `bank_mem_in_order`: the transfers of a port and a bank.
-/

namespace OpenHT.Sysc

open Refine

variable {n : ℕ}

/-! ## The queues of a port -/

/-- The scheduled requests for bank `k`, the earliest first, and those in the FIFO. -/
def BankPort.pending (c : BankPort) (k : ℕ) : List MemRdWrReqTime :=
  (c.bankBusyQue.filter fun b => b.r.bank = k).reverse.map BankReq.r ++
    (if k = bankCnt then c.hostReqQue else c.bankReqQue).filter fun q => q.bank = k

theorem bank_eq_bankCnt {q : MemRdWrReqTime} : q.bank = bankCnt ↔ q.host = true := by
  unfold MemRdWrReqTime.bank
  have hlt : q.req.addr / 8 % bankCnt < bankCnt := Nat.mod_lt _ (by decide)
  cases q.host with
  | true => simp
  | false =>
    simp only [Bool.false_eq_true, if_false, iff_false]
    exact Nat.ne_of_lt hlt

theorem BankPort.pending_push (c : BankPort) (q : MemRdWrReqTime) (k : ℕ) :
    (c.push q).pending k = c.pending k ++ if q.bank = k then [q] else [] := by
  unfold BankPort.push BankPort.pending
  by_cases hhost : q.host = true
  · have hbank := bank_eq_bankCnt.2 hhost
    rw [if_pos hhost, List.append_assoc, hbank]
    congr 1
    by_cases hk : k = bankCnt
    · rw [if_pos hk, if_pos hk, if_pos hk.symm, List.filter_append]
      simp [hbank, hk]
    · rw [if_neg hk, if_neg hk, if_neg (Ne.symm hk), List.append_nil]
  · have hbank := mt bank_eq_bankCnt.1 hhost
    rw [if_neg hhost, List.append_assoc]
    congr 1
    by_cases hk : k = bankCnt
    · rw [if_pos hk, if_pos hk, if_neg (hk ▸ hbank), List.append_nil]
    · rw [if_neg hk, if_neg hk, List.filter_append]
      by_cases hq : q.bank = k
      · simp [hq]
      · simp [hq]

/-- A request that is available after all others of its bank comes last. -/
theorem insertBusy_filter {b : BankReq} {l : List BankReq}
    (h : ∀ a ∈ l, a.r.bank = b.r.bank → a.bankAvlTime < b.bankAvlTime) (k : ℕ) :
    (insertBusy b l).filter (fun x => x.r.bank = k) = (if b.r.bank = k then [b] else []) ++ l.filter fun x => x.r.bank = k := by
  induction l with
  | nil =>
    unfold insertBusy
    by_cases hb : b.r.bank = k
    · simp [hb]
    · simp [hb]
  | cons a l ih =>
    have ih := ih fun x hx => h x (List.mem_cons_of_mem a hx)
    unfold insertBusy
    by_cases hbefore : a.before b = true
    · rw [if_pos hbefore]
      by_cases hb : b.r.bank = k
      · simp [hb]
      · simp [hb]
    · rw [if_neg hbefore]
      -- the list goes on behind `a`, which is of another bank
      have hne : a.r.bank ≠ b.r.bank := fun heq =>
        hbefore (BankReq.before_iff.2 (.inl (h a List.mem_cons_self heq)))
      rw [List.filter_cons, ih, List.filter_cons]
      by_cases hb : b.r.bank = k
      · have ha : a.r.bank ≠ k := fun heq => hne (heq.trans hb.symm)
        simp [hb, ha]
      · simp [hb]

/-- Scheduling moves a request within its queue. -/
theorem BankPort.pending_schedule {c c' : BankPort} {b : BankReq}
    (hlt : ∀ a ∈ c.bankBusyQue, a.r.bank = b.r.bank → a.bankAvlTime < b.bankAvlTime)
    (hbusy : c'.bankBusyQue = insertBusy b c.bankBusyQue)
    (hfifo : ∀ k, (if k = bankCnt then c.hostReqQue else c.bankReqQue).filter (fun q => q.bank = k) =
      (if b.r.bank = k then [b.r] else []) ++
        (if k = bankCnt then c'.hostReqQue else c'.bankReqQue).filter fun q => q.bank = k) (k : ℕ) :
    c'.pending k = c.pending k := by
  unfold BankPort.pending
  rw [hfifo k, hbusy, insertBusy_filter hlt k, List.reverse_append, List.map_append, List.append_assoc]
  congr 2
  split
  · rfl
  · rfl

/-- The last request of the list is the first of its queue. -/
theorem BankPort.pending_last {c : BankPort} {b : BankReq} (hlast : c.bankBusyQue.getLast? = some b) (k : ℕ) :
    c.pending k = (if b.r.bank = k then [b.r] else []) ++
      BankPort.pending { c with bankBusyQue := c.bankBusyQue.dropLast } k := by
  obtain ⟨l, hl⟩ := List.getLast?_eq_some_iff.1 hlast
  unfold BankPort.pending
  dsimp only
  rw [hl, List.dropLast_concat, List.filter_append, List.reverse_append, List.map_append, List.append_assoc]
  congr 1
  by_cases hb : b.r.bank = k
  · simp [hb]
  · simp [hb]

/-! ## The simulation -/

/-- The queues of the bank model: one for each port and bank. -/
def bankDiscipline (n : ℕ) : Discipline (Fin n) (Fin n × ℕ) where
  place p q := (p, q.bank)
  port := Prod.fst
  bit63Qw := id

namespace BankMem

/-- The requests that were accepted between two states, at port `p`. -/
def newEvents (p : Fin n) (s s' : BankMem n) : List (MemEvent (Fin n)) :=
  (s'.hist.accepted.drop s.hist.accepted.length).map (.accept p)

/-- A call, and what is seen of it. -/
def Next (cfg : MemCfg) (s : BankMem n) (es : List (MemEvent (Fin n))) (s' : BankMem n) : Prop :=
  ∃ p i, s.now ≤ i.now ∧ s.call cfg p i = .ok s' ∧ es = newEvents p s s' ++ s'.rsp.events p

end BankMem

/-- A state of the bank model and a state of the serial memory that started with memory `mem`. -/
structure Serves (cfg : MemCfg) (mem : Mem ℕ) (s : BankMem n) (t : SerialMem (Fin n × ℕ)) : Prop where
  inv : BankInv s
  ok : t.Ok cfg id mem
  accepted : t.accepted.map Prod.snd = s.hist.accepted
  que : ∀ p k, t.que (p, k) = (s.port p).pending k
  xfers : t.xfers = s.hist.xfers
  mem : t.mem = s.mem
  sorted : s.Sorted

section Steps

variable {cfg : MemCfg} {mem : Mem ℕ} {p : Fin n} {i : BankIn} {s s' : BankMem n} {t : SerialMem (Fin n × ℕ)}

/-- A part of a call that leaves the queues alone. -/
theorem Serves.silent (h : Serves cfg mem s t) (hinv : BankInv s') (hacc : s'.hist.accepted = s.hist.accepted)
    (hpending : ∀ p k, (s'.port p).pending k = (s.port p).pending k) (hxfers : s'.hist.xfers = s.hist.xfers)
    (hmem : s'.mem = s.mem) (hsorted : s'.Sorted) : Serves cfg mem s' t where
  inv := hinv
  ok := h.ok
  accepted := h.accepted.trans hacc.symm
  que p k := (h.que p k).trans (hpending p k).symm
  xfers := h.xfers.trans hxfers.symm
  mem := h.mem.trans hmem.symm
  sorted := hsorted

/-- The request interface. -/
theorem takeIn_serves (h : Serves cfg mem s t) (he : s.takeIn cfg p i = .ok s') :
    ∃ t', Runs (SerialMem.Next cfg (bankDiscipline n)) t (BankMem.newEvents p s s') t' ∧ Serves cfg mem s' t' ∧
      s'.rsp = s.rsp := by
  have hinv := h.inv.takeIn he
  have hsorted := h.sorted.takeIn he
  unfold BankMem.takeIn at he
  cases hr : i.req with
  | none =>
    rw [hr] at he
    cases he
    refine ⟨t, ?_, h, rfl⟩
    unfold BankMem.newEvents
    rw [List.drop_length]
    exact .init
  | some r =>
    rw [hr] at he
    simp only [bind_ok] at he
    obtain ⟨⟨q, w⟩, htake, he⟩ := he
    obtain ⟨hid, -, h1, -, -⟩ := takeReq_ok (h.inv.front.asm p) htake
    have hnew := (h.inv.takenId_new p).1
    rw [← hid, ← h.accepted] at hnew
    by_cases hc : q.complete w = true
    · rw [if_pos hc] at he
      cases he
      have hstep : SerialMem.Next cfg (bankDiscipline n) t [.accept p q] (t.push (p, q.bank) q) :=
        .accept t p q (fun x hx => hnew x.2 (List.mem_map_of_mem hx)) h1
      have hevents (s' : BankMem n) (hs : s'.hist.accepted = s.hist.accepted ++ [q]) :
          BankMem.newEvents p s s' = [.accept p q] := by
        unfold BankMem.newEvents
        rw [hs, List.drop_left]
        rfl
      refine ⟨t.push (p, q.bank) q, ?_, ?_, rfl⟩
      · rw [hevents _ rfl]
        exact .single hstep
      · refine ⟨hinv, h.ok.next hstep, ?_, ?_, h.xfers, h.mem, hsorted⟩
        · change (t.accepted ++ [((p, q.bank), q)]).map Prod.snd = s.hist.accepted ++ [q]
          rw [List.map_append, h.accepted]
          rfl
        · intro p' k
          by_cases hp : p' = p
          · subst hp
            dsimp only
            rw [BankMem.port_setPort_self, BankPort.pending_push]
            by_cases hk : q.bank = k
            · subst hk
              rw [if_pos rfl]
              exact (Function.update_self _ _ _).trans (congrArg (· ++ [q]) (h.que p' q.bank))
            · rw [if_neg hk, List.append_nil]
              have hne : (p', k) ≠ (p', q.bank) := fun heq => hk (congrArg Prod.snd heq).symm
              exact (Function.update_of_ne hne _ _).trans (h.que p' k)
          · dsimp only
            rw [BankMem.port_setPort_of_ne hp]
            have hne : (p', k) ≠ (p, q.bank) := fun heq => hp (congrArg Prod.fst heq)
            exact (Function.update_of_ne hne _ _).trans (h.que p' k)
    · rw [if_neg hc] at he
      cases he
      refine ⟨t, ?_, ?_, rfl⟩
      · unfold BankMem.newEvents
        change Runs _ t ((s.hist.accepted.drop s.hist.accepted.length).map _) t
        rw [List.drop_length]
        exact .init
      · have hport : ∀ p', ((s.setPort p { s.port p with newReq := some q, wrDataIdx := w }).port p').hostReqQue =
            (s.port p').hostReqQue ∧ ((s.setPort p { s.port p with newReq := some q, wrDataIdx := w }).port p').bankReqQue =
            (s.port p').bankReqQue ∧ ((s.setPort p { s.port p with newReq := some q, wrDataIdx := w }).port p').bankBusyQue =
            (s.port p').bankBusyQue := by
          intro p'
          by_cases hp : p' = p
          · subst hp
            rw [BankMem.port_setPort_self]
            exact ⟨rfl, rfl, rfl⟩
          · rw [BankMem.port_setPort_of_ne hp]
            exact ⟨rfl, rfl, rfl⟩
        refine h.silent hinv rfl ?_ rfl rfl hsorted
        intro p' k
        obtain ⟨h1, h2, h3⟩ := hport p'
        unfold BankPort.pending
        dsimp only
        rw [← h1, ← h2, ← h3]
        rfl

/-- A request at the front of a FIFO is scheduled; `c` is the port without it. -/
theorem schedule_serves (h : Serves cfg mem s t) {c : BankPort} {r : MemRdWrReqTime} {busy : ℚ} (hbusy : 0 < busy)
    (hinv : BankInv ((s.setPort p c).schedule p busy r)) (hc : c.bankBusyQue = (s.port p).bankBusyQue)
    (hsorted : ((s.setPort p c).schedule p busy r).Sorted) (hfifo : ∀ k, (if k = bankCnt then (s.port p).hostReqQue else (s.port p).bankReqQue).filter
      (fun q => q.bank = k) = (if r.bank = k then [r] else []) ++
        (if k = bankCnt then c.hostReqQue else c.bankReqQue).filter fun q => q.bank = k) :
    Serves cfg mem ((s.setPort p c).schedule p busy r) t := by
  have hport : ((s.setPort p c).schedule p busy r).port =
      Function.update (s.setPort p c).port p { c with bankBusyQue := insertBusy ⟨r, s.avlTime busy r⟩ c.bankBusyQue } := by
    unfold BankMem.schedule
    dsimp only
    rw [BankMem.port_setPort_self]
    rfl
  refine h.silent hinv rfl ?_ rfl rfl hsorted
  intro p' k
  rw [hport]
  by_cases hp : p' = p
  · subst hp
    rw [Function.update_self]
    have hlt : ∀ a ∈ (s.port p').bankBusyQue, a.r.bank = r.bank → a.bankAvlTime < s.avlTime busy r := by
      intro a ha hbank
      have hque := (h.inv.back.busy p' a ha).2.2
      rw [hbank] at hque
      exact (BankInv.lt_avlTime h.inv.back hbusy r).2 a hque
    exact @BankPort.pending_schedule (s.port p') { c with bankBusyQue := insertBusy ⟨r, s.avlTime busy r⟩ c.bankBusyQue }
      ⟨r, s.avlTime busy r⟩ hlt (congrArg (insertBusy _) hc) hfifo k
  · rw [Function.update_of_ne hp, BankMem.port_setPort_of_ne hp]

/-- Scheduling is not seen. -/
theorem scheduleReq_serves (h : Serves cfg mem s t) : Serves cfg mem (s.scheduleReq p) t := by
  have hinv := h.inv.scheduleReq (p := p)
  have hsorted := h.sorted.scheduleReq (p := p)
  unfold BankMem.scheduleReq at hinv hsorted ⊢
  dsimp only at hinv hsorted ⊢
  split
  next r hr =>
    rw [hr] at hinv hsorted
    obtain ⟨l, hl⟩ := List.head?_eq_some_iff.1 (Option.filter_eq_some_iff.1 hr).1
    have hhost := (h.sorted p).1 r (by rw [hl]; exact List.mem_cons_self)
    have hbank := bank_eq_bankCnt.2 hhost
    refine schedule_serves h (BankInv.bankBusyTime_pos _ _) hinv rfl hsorted ?_
    intro k
    rw [hl, hbank]
    by_cases hk : k = bankCnt
    · simp [hk, hbank]
    · simp [hk, Ne.symm hk]
  next hno =>
    rw [hno] at hinv hsorted
    split
    next r hr =>
      rw [hr] at hinv hsorted
      obtain ⟨l, hl⟩ := List.head?_eq_some_iff.1 (Option.filter_eq_some_iff.1 hr).1
      have hhost := (h.sorted p).2 r (by rw [hl]; exact List.mem_cons_self)
      have hbank : r.bank ≠ bankCnt := fun heq => by
        rw [bank_eq_bankCnt.1 heq] at hhost
        cases hhost
      refine schedule_serves h (BankInv.bankBusyTime_pos _ _) hinv rfl hsorted ?_
      intro k
      rw [hl]
      by_cases hk : k = bankCnt
      · rw [if_pos hk, if_pos hk, if_neg (hk ▸ hbank)]
        rfl
      · rw [if_neg hk, if_neg hk]
        by_cases hr : r.bank = k
        · simp [hr]
        · simp [hr]
    next => exact h

/-- A quadword of the port's earliest request is transferred. -/
theorem transfer_serves (h : Serves cfg mem s t) {b : BankReq} (hlast : (s.port p).bankBusyQue.getLast? = some b)
    (hfront : (s.bankQue b.r.bank).head? = some b) (hnow : b.bankAvlTime ≤ s.now) (rsp : MemRsp) :
    ∃ rest, t.que (p, b.r.bank) = b.r :: rest ∧ t.part (p, b.r.bank) = (s.port p).qwIdx b.r.req.type.dir ∧
      Serves cfg mem (s.transfer p b b.r.req.type.dir
        (b.r.apply cfg id s.mem ((s.port p).qwIdx b.r.req.type.dir)) rsp) (t.serve cfg id (p, b.r.bank) b.r rest) := by
  obtain ⟨rest, hrest⟩ : ∃ rest, rest = BankPort.pending
      { s.port p with bankBusyQue := (s.port p).bankBusyQue.dropLast } b.r.bank := ⟨_, rfl⟩
  have hque : t.que (p, b.r.bank) = b.r :: rest := by
    rw [h.que p b.r.bank, BankPort.pending_last hlast b.r.bank, if_pos rfl, hrest]
    rfl
  have hpart : t.part (p, b.r.bank) = (s.port p).qwIdx b.r.req.type.dir := by
    have hqws := h.ok.parts_front hque
    rw [h.xfers] at hqws
    have hrange := hqws.symm.trans (h.inv.qws_last hlast)
    simpa using congrArg List.length hrange
  refine ⟨rest, hque, hpart, ?_⟩
  have hinv := h.inv.transfer hlast hfront hnow
    (b.r.apply cfg id s.mem ((s.port p).qwIdx b.r.req.type.dir)) rsp
  have hstep : SerialMem.Next cfg (bankDiscipline n) t _ _ := .serve t (p, b.r.bank) b.r rest hque
  obtain ⟨hacc, hmem, -⟩ := SerialMem.serve_rest cfg id t (p, b.r.bank) b.r rest
  have hxfers := SerialMem.xfers_serve cfg id t (p, b.r.bank) b.r rest
  rw [hpart] at hmem hxfers
  refine ⟨hinv, h.ok.next hstep, ?_, ?_, ?_, ?_, h.sorted.transfer _ _ _ _⟩
  · rw [hacc, BankMem.accepted_transfer]
    exact h.accepted
  · intro p' k
    unfold SerialMem.serve BankMem.transfer
    dsimp only
    rw [hpart]
    by_cases hcnt : (s.port p).qwIdx b.r.req.type.dir + 1 = b.r.reqQwCnt
    · rw [if_pos hcnt, if_pos hcnt]
      dsimp only
      by_cases hp : p' = p
      · subst hp
        rw [BankMem.port_setPort_self]
        have hlastk := BankPort.pending_last hlast k
        by_cases hk : b.r.bank = k
        · subst hk
          rw [Function.update_self, hrest]
          rfl
        · have hne : (p', k) ≠ (p', b.r.bank) := fun heq => hk (congrArg Prod.snd heq).symm
          rw [if_neg hk, List.nil_append] at hlastk
          rw [Function.update_of_ne hne, h.que p' k]
          exact hlastk
      · have hne : (p', k) ≠ (p, b.r.bank) := fun heq => hp (congrArg Prod.fst heq)
        rw [BankMem.port_setPort_of_ne hp, Function.update_of_ne hne]
        exact h.que p' k
    · rw [if_neg hcnt, if_neg hcnt]
      dsimp only
      by_cases hp : p' = p
      · subst hp
        rw [BankMem.port_setPort_self]
        exact h.que p' k
      · rw [BankMem.port_setPort_of_ne hp]
        exact h.que p' k
  · rw [hxfers, h.xfers]
    unfold BankMem.transfer
    dsimp only
    split
    · rfl
    · rfl
  · rw [hmem, h.mem]
    unfold BankMem.transfer
    dsimp only
    split
    · rfl
    · rfl

theorem rsp_transfer (b : BankReq) (d : MemDir) (mem : Mem ℕ) (rsp : MemRsp) : (s.transfer p b d mem rsp).rsp = rsp := by
  unfold BankMem.transfer
  dsimp only
  split
  · rfl
  · rfl

/-- What a port's call serves: nothing, or the next quadword of its earliest request. -/
theorem serve_cases (hrsp : s.rsp = ⟨none, none⟩) (b : BankReq) : s.serve cfg p i b = s ∨
    ∃ rsp : MemRsp, s.serve cfg p i b = s.transfer p b b.r.req.type.dir
      (b.r.apply cfg id s.mem ((s.port p).qwIdx b.r.req.type.dir)) rsp ∧
      rsp.events p = b.r.events cfg p s.mem ((s.port p).qwIdx b.r.req.type.dir) := by
  unfold BankMem.serve MemRdWrReqTime.events
  dsimp only
  cases hdir : b.r.req.type.dir with
  | wr =>
    dsimp only
    split
    · exact .inl rfl
    · refine .inr ⟨_, by rw [MemRdWrReqTime.apply_wr hdir], ?_⟩
      rw [hrsp]
      split
      · rfl
      · rfl
  | rd =>
    dsimp only
    split
    · exact .inl rfl
    · refine .inr ⟨_, by rw [MemRdWrReqTime.apply_rd hdir]; rfl, ?_⟩
      rw [hrsp]
      rfl

/-- The completion of requests. -/
theorem complete_serves (h : Serves cfg mem s t) (hrsp : s.rsp = ⟨none, none⟩) (he : s.complete cfg p i = .ok s') :
    ∃ t', Runs (SerialMem.Next cfg (bankDiscipline n)) t (s'.rsp.events p) t' ∧ Serves cfg mem s' t' := by
  have hquiet : ∃ t', Runs (SerialMem.Next cfg (bankDiscipline n)) t (s.rsp.events p) t' ∧ Serves cfg mem s t' := by
    rw [hrsp]
    exact ⟨t, .init, h⟩
  unfold BankMem.complete at he
  split at he
  next =>
    cases he
    exact hquiet
  next b hlast =>
    split at he
    next => cases he
    next f l hque =>
      split at he
      next hc =>
        simp only [bind_ok] at he
        obtain ⟨_, _, he⟩ := he
        cases he
        have hfront : (s.bankQue b.r.bank).head? = some f := by
          rw [hque]
          rfl
        obtain rfl := h.inv.front_eq hlast hfront hc.1
        have hserve := @serve_cases n cfg p i s hrsp f
        rcases hserve with hsame | ⟨rsp, hserve, hevents⟩
        · rw [hsame]
          exact hquiet
        · obtain ⟨rest, hq, hpart, hs⟩ := transfer_serves h hlast hfront hc.2 rsp
          rw [hserve, rsp_transfer, hevents, ← hpart, ← h.mem]
          rw [← hpart, ← h.mem] at hs
          exact ⟨_, .single (.serve t (p, f.r.bank) f.r rest hq), hs⟩
      next =>
        cases he
        exact hquiet

/-- **A call of a port** is one or no step of the interface, and one or no transfer. -/
theorem call_forward (cfg : MemCfg) (mem : Mem ℕ) :
    Forward (BankMem.Next cfg) (SerialMem.Next cfg (bankDiscipline n)) (Serves cfg mem) := by
  rintro s t _ s' h ⟨p, i, hnow, he, rfl⟩
  unfold BankMem.call at he
  simp only [bind_ok] at he
  obtain ⟨s₁, htake, he⟩ := he
  have h₀ : Serves cfg mem { s with rsp := ⟨none, none⟩, now := i.now } t :=
    h.silent (h.inv.setNow hnow _) rfl (fun _ _ => rfl) rfl rfl h.sorted
  obtain ⟨t₁, hr₁, h₁, hrsp⟩ := takeIn_serves h₀ htake
  have h₂ := scheduleReq_serves (p := p) h₁
  have hrsp₂ : (s₁.scheduleReq p).rsp = ⟨none, none⟩ := by
    have hsame : (s₁.scheduleReq p).rsp = s₁.rsp := by
      unfold BankMem.scheduleReq
      dsimp only
      split
      · rfl
      · split
        · rfl
        · rfl
    rw [hsame, hrsp]
  obtain ⟨t₂, hr₂, h₃⟩ := complete_serves h₂ hrsp₂ he
  have hacc : s'.hist.accepted = s₁.hist.accepted :=
    (BankMem.behind_complete h₂.inv he).accepted.trans (BankMem.behind_scheduleReq p s₁).accepted
  refine ⟨t₂, ?_, h₃⟩
  have hnew : BankMem.newEvents p s s' = BankMem.newEvents p { s with rsp := ⟨none, none⟩, now := i.now } s₁ := by
    unfold BankMem.newEvents
    rw [hacc]
  rw [hnew]
  exact hr₁.trans hr₂

end Steps

/-! ## Runs -/

section Runs

variable {cfg : MemCfg} {mem : Mem ℕ} {s : BankMem n} {es : List (MemEvent (Fin n))}

theorem Serves.start (cfg : MemCfg) (mem : Mem ℕ) : Serves cfg mem (BankMem.construct mem : BankMem n) (.start mem) := by
  have hinit : Lts.Reach (BankMem.step cfg) BankMem.Timely (.construct mem) (BankMem.construct mem : BankMem n) := .init
  refine ⟨.construct mem, .start mem, rfl, fun _ _ => ?_, rfl, rfl, .of_reach hinit⟩
  unfold BankPort.pending
  split
  · rfl
  · rfl

theorem bank_serves (h : Runs (BankMem.Next cfg) (.construct mem) es s) :
    ∃ t, Runs (SerialMem.Next cfg (bankDiscipline n)) (.start mem) es t ∧ Serves cfg mem s t :=
  (call_forward cfg mem).runs (.start cfg mem) h

/-- **The bank model is a serial memory.** Whatever the ports see in a run, they can see of a memory that transfers one
quadword at a time, in the order of one queue for each port and bank; and that memory has the same contents. -/
theorem bank_mem_serial (h : Runs (BankMem.Next cfg) (.construct mem) es s) :
    ∃ t, Runs (SerialMem.Next cfg (bankDiscipline n)) (.start mem) es t ∧ t.mem = s.mem := by
  obtain ⟨t, ht, hs⟩ := bank_serves h
  exact ⟨t, ht, hs.mem⟩

/-- A read at the first of two ports: it is accepted, whatever the response of the call is. -/
theorem exists_read_call : ∃ (s : BankMem 2) (q : MemRdWrReqTime) (rsp : MemRsp), q.bank = 8 ∧
    BankMem.Next ⟨false, false, false, 0⟩ (.construct fun _ => 0) ([.accept 0 q] ++ rsp.events 0) s := by
  let i : BankIn := ⟨0, some read64, false, false, fun _ => (true, true)⟩
  obtain ⟨s₁, q, htake, hacc₁, hbank⟩ : ∃ (s₁ : BankMem 2) (q : MemRdWrReqTime),
      BankMem.takeIn ⟨false, false, false, 0⟩ 0 i (.construct fun _ => 0) = .ok s₁ ∧ s₁.hist.accepted = [q] ∧
        q.bank = 8 := ⟨_, _, rfl, rfl, by decide⟩
  have h₁ : BankInv s₁ := (BankInv.construct fun _ => 0).takeIn htake
  obtain ⟨s, he⟩ := BankMem.complete_ok ⟨false, false, false, 0⟩ (i := i) 0 (h₁.scheduleReq (p := 0)) fun _ => rfl
  have hacc : s.hist.accepted = [q] := by
    rw [(BankMem.behind_complete h₁.scheduleReq he).accepted, (BankMem.behind_scheduleReq 0 s₁).accepted, hacc₁]
  refine ⟨s, q, s.rsp, hbank, 0, i, le_refl _, ?_, ?_⟩
  · unfold BankMem.call
    exact bind_ok.2 ⟨s₁, htake, he⟩
  · unfold BankMem.newEvents
    rw [hacc]
    rfl

theorem bank_mem_serial_read : ∃ (s : BankMem 2) (es : List (MemEvent (Fin 2))) (t : SerialMem (Fin 2 × ℕ)), es ≠ [] ∧
    Runs (SerialMem.Next ⟨false, false, false, 0⟩ (bankDiscipline 2)) (.start fun _ => 0) es t ∧ t.mem = s.mem := by
  obtain ⟨s, q, rsp, -, hcall⟩ := exists_read_call
  obtain ⟨t, ht, hmem⟩ := bank_mem_serial (.single hcall)
  exact ⟨s, _, t, List.cons_ne_nil _ _, ht, hmem⟩

/-- The requests accepted at port `p` for bank `k`, in order. -/
def acceptedAt (es : List (MemEvent (Fin n))) (p : Fin n) (k : ℕ) : List MemRdWrReqTime :=
  ((SerialMem.seen (bankDiscipline n) es).filter fun x => x.1 = (p, k)).map Prod.snd

end Runs

end OpenHT.Sysc
