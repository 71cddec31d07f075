import Mathlib.Algebra.Order.BigOperators.Group.Finset
import OpenHT.Sysc.BankStep

/-!
# The bank model never stalls and never reorders

* `BankInv.exists_served`: no circular wait between ports and banks.
* `exists_ahead`: a call without request and back pressure that gets ahead.
* `bank_mem_no_stall`: all runs, for any number of ports.
-/

namespace OpenHT.Sysc

open Lts

variable {n : ℕ}

namespace BankMem

variable {cfg : MemCfg} {p : Fin n} {i : BankIn} {s s' : BankMem n}

/-! ## What the parts of a call leave alone -/

/-- A part of a call behind the interface: nothing is accepted. -/
structure Behind (s s' : BankMem n) : Prop where
  accepted : s'.hist.accepted = s.hist.accepted
  fifo : ∀ p, (s'.port p).fifo.length ≤ (s.port p).fifo.length
  left : s'.hist.left ≤ s.hist.left

theorem Behind.refl (s : BankMem n) : Behind s s := ⟨rfl, fun _ => Nat.le_refl _, Nat.le_refl _⟩

theorem port_schedule (busy : ℚ) (r : MemRdWrReqTime) (p' : Fin n) :
    ((s.schedule p busy r).port p').fifo = (s.port p').fifo := by
  unfold schedule
  dsimp only
  by_cases hp : p' = p
  · subst hp
    rw [port_setPort_self]
    rfl
  · rw [port_setPort_of_ne hp]

theorem fifo_setPort {c : BankPort} (hc : c.fifo.length ≤ (s.port p).fifo.length) (p' : Fin n) :
    ((s.setPort p c).port p').fifo.length ≤ (s.port p').fifo.length := by
  by_cases hp : p' = p
  · subst hp
    rw [port_setPort_self]
    exact hc
  · rw [port_setPort_of_ne hp]

theorem behind_scheduleReq (p : Fin n) (s : BankMem n) : Behind s (s.scheduleReq p) := by
  unfold scheduleReq
  dsimp only
  split
  · refine ⟨rfl, ?_, Nat.le_refl _⟩
    intro p'
    rw [port_schedule]
    refine fifo_setPort ?_ p'
    simp [BankPort.fifo]
  · split
    · refine ⟨rfl, ?_, Nat.le_refl _⟩
      intro p'
      rw [port_schedule]
      refine fifo_setPort ?_ p'
      simp [BankPort.fifo]
    · exact .refl s

theorem fifo_transfer (b : BankReq) (d : MemDir) (mem : Mem ℕ) (rsp : MemRsp) (p' : Fin n) :
    ((s.transfer p b d mem rsp).port p').fifo = (s.port p').fifo := by
  have hset (c : BankPort) (hc : c.fifo = (s.port p).fifo) : ((s.setPort p c).port p').fifo = (s.port p').fifo := by
    by_cases hp : p' = p
    · subst hp
      rw [port_setPort_self, hc]
    · rw [port_setPort_of_ne hp]
  unfold transfer
  dsimp only
  split
  · exact hset _ rfl
  · exact hset _ rfl

theorem accepted_transfer (b : BankReq) (d : MemDir) (mem : Mem ℕ) (rsp : MemRsp) :
    (s.transfer p b d mem rsp).hist.accepted = s.hist.accepted := by
  unfold transfer
  dsimp only
  split
  · rfl
  · rfl

/-- A transfer lowers what is left. -/
theorem left_transfer (h : BankInv s) {b : BankReq} (hlast : (s.port p).bankBusyQue.getLast? = some b)
    (mem : Mem ℕ) (rsp : MemRsp) : (s.transfer p b b.r.req.type.dir mem rsp).hist.left < s.hist.left := by
  have hacc := (h.back.busy p b (List.mem_of_getLast? hlast)).1
  have hlt : (s.hist.qws b.r.id).length < b.r.reqQwCnt := by
    rw [h.qws_last hlast, List.length_range]
    exact h.qwIdx_lt hlast
  have hmem : (b.r.id, b.r.reqQwCnt) ∈ s.hist.accepted.map fun q => (q.id, q.reqQwCnt) :=
    List.mem_map.2 ⟨_, hacc, rfl⟩
  have hleft := Ledger.left_append_lt (n := (s.port p).qwIdx b.r.req.type.dir) hmem hlt
  unfold transfer
  dsimp only
  split
  · exact hleft
  · exact hleft

theorem behind_serve (h : BankInv s) {b : BankReq} (hlast : (s.port p).bankBusyQue.getLast? = some b) :
    Behind s (s.serve cfg p i b) := by
  have htransfer (mem : Mem ℕ) (rsp : MemRsp) : Behind s (s.transfer p b b.r.req.type.dir mem rsp) :=
    ⟨accepted_transfer _ _ _ _, fun p' => Nat.le_of_eq (congrArg _ (fifo_transfer _ _ _ _ p')),
      Nat.le_of_lt (left_transfer h hlast _ _)⟩
  unfold serve
  dsimp only
  cases hd : b.r.req.type.dir with
  | rd =>
    dsimp only
    split
    · exact .refl s
    · exact hd ▸ htransfer _ _
  | wr =>
    dsimp only
    split
    · exact .refl s
    · exact hd ▸ htransfer _ _

theorem behind_complete (h : BankInv s) (he : s.complete cfg p i = .ok s') : Behind s s' := by
  unfold complete at he
  split at he
  · cases he
    exact .refl s
  · rename_i b hlast
    split at he
    · cases he
    · split at he
      · simp only [bind_ok] at he
        obtain ⟨_, _, he⟩ := he
        cases he
        exact behind_serve h hlast
      · cases he
        exact .refl s

/-! ## Progress -/

/-- A call without request and back pressure, with all addresses valid. -/
def Quiet (i : BankIn) : Prop :=
  i.req = none ∧ i.rdRspFull = false ∧ i.wrRspFull = false ∧ ∀ a, (i.ranges a).1 = true

/-- Every accepted request has made its transfers, in order and once. -/
def AllDone (s : BankMem n) : Prop := ∀ q ∈ s.hist.accepted, s.hist.qws q.id = List.range q.reqQwCnt

/-- What is left to do: quadwords to transfer and requests to schedule. -/
def work (s : BankMem n) : ℕ := s.hist.left + ∑ p, (s.port p).fifo.length

theorem Behind.work_le (hb : Behind s s') : work s' ≤ work s :=
  Nat.add_le_add hb.left (Finset.sum_le_sum fun p _ => hb.fifo p)

theorem complete_ok (cfg : MemCfg) (p : Fin n) (h : BankInv s) (hi : ∀ a, (i.ranges a).1 = true) : ∃ s', s.complete cfg p i = .ok s' := by
  cases he : s.complete cfg p i with
  | ok s' => exact ⟨s', rfl⟩
  | error e =>
    exfalso
    have hcheck (a : ℕ) : checkAddr cfg i.ranges a = .ok () := by
      unfold checkAddr
      simp [hi a]
    unfold complete at he
    split at he
    · cases he
    · rename_i b hlast
      have hmem := (h.back.busy p b (List.mem_of_getLast? hlast)).2.2
      split at he
      · rename_i hnil
        rw [hnil] at hmem
        cases hmem
      · split at he
        · rw [hcheck] at he
          cases he
        · cases he

/-- The served port transfers a quadword. -/
theorem complete_lt (h : BankInv s) (hi : Quiet i) {b : BankReq}
    (hlast : (s.port p).bankBusyQue.getLast? = some b) (hfront : (s.bankQue b.r.bank).head? = some b)
    (hnow : b.bankAvlTime ≤ s.now) (he : s.complete cfg p i = .ok s') : work s' < work s := by
  obtain ⟨l, hl⟩ := List.head?_eq_some_iff.1 hfront
  have hb : Behind s s' := behind_complete h he
  unfold complete at he
  rw [hlast] at he
  dsimp only at he
  rw [hl] at he
  dsimp only at he
  rw [if_pos ⟨rfl, hnow⟩] at he
  simp only [bind_ok] at he
  obtain ⟨_, _, he⟩ := he
  have hlt : s'.hist.left < s.hist.left := by
    cases he
    unfold serve
    dsimp only
    cases hd : b.r.req.type.dir with
    | rd =>
      dsimp only
      rw [if_neg (by simp [hi.2.1])]
      exact hd ▸ left_transfer h hlast _ _
    | wr =>
      dsimp only
      rw [if_neg (by simp [hi.2.2.1])]
      exact hd ▸ left_transfer h hlast _ _
  exact Nat.add_lt_add_of_lt_of_le hlt (Finset.sum_le_sum fun p _ => hb.fifo p)

/-- Late enough, a port with requests in its FIFOs schedules one. -/
theorem scheduleReq_lt (hne : (s.port p).fifo ≠ [])
    (hnow : ∀ q ∈ (s.port p).fifo, q.time + 1515 ≤ s.now) : work (s.scheduleReq p) < work s := by
  have hb := behind_scheduleReq p s
  refine Nat.add_lt_add_of_le_of_lt hb.left (Finset.sum_lt_sum (fun p' _ => hb.fifo p') ⟨p, Finset.mem_univ _, ?_⟩)
  unfold scheduleReq
  dsimp only
  cases hh : (s.port p).hostReqQue with
  | cons r l =>
    have htime : r.time + delay true ≤ s.now := hnow r (by simp [BankPort.fifo, hh])
    have hsome : (r :: l).head?.filter (fun r => decide (r.time + delay true ≤ s.now)) = some r := by
      simp [htime]
    rw [hsome]
    dsimp only
    rw [port_schedule, port_setPort_self]
    simp [BankPort.fifo, hh]
  | nil =>
    have hnone : ([] : List MemRdWrReqTime).head?.filter (fun r => decide (r.time + delay true ≤ s.now)) = none := rfl
    rw [hnone]
    dsimp only
    cases hq : (s.port p).bankReqQue with
    | nil => exact absurd (by simp [BankPort.fifo, hh, hq]) hne
    | cons r l =>
      have htime : r.time + delay false ≤ s.now := by
        have := hnow r (by simp [BankPort.fifo, hq])
        refine le_trans (add_le_add_right ?_ _) this
        norm_num [delay]
      have hsome : (r :: l).head?.filter (fun r => decide (r.time + delay false ≤ s.now)) = some r := by
        simp [htime]
      rw [hsome]
      dsimp only
      rw [port_schedule, port_setPort_self]
      simp [BankPort.fifo, hh, hq]

theorem scheduleReq_of_nil (hnil : (s.port p).fifo = []) : s.scheduleReq p = s := by
  obtain ⟨hh, hq⟩ := List.append_eq_nil_iff.1 hnil
  unfold scheduleReq
  dsimp only
  rw [hh, hq]
  rfl

end BankMem

/-- **No circular wait.** While requests are scheduled, the earliest request of some port is the
front of its bank. -/
theorem BankInv.exists_served {s : BankMem n} (h : BankInv s) (hne : ∃ p, (s.port p).bankBusyQue ≠ []) :
    ∃ p b, (s.port p).bankBusyQue.getLast? = some b ∧ (s.bankQue b.r.bank).head? = some b := by
  refine Wait.exists_served BankReq.bankAvlTime ?_ h.back.bankOrder ?_ ?_ hne
  · intro p
    exact (h.back.busyOrder p).imp BankReq.le_of_before_false
  · intro p b hb
    exact (h.back.busy p b hb).2.2
  · intro k b hb
    exact (h.back.bank k b hb).2

namespace BankMem

variable {s s' : BankMem n}

/-- A time at which all requests of a FIFO may leave it. -/
theorem exists_late (l : List MemRdWrReqTime) : ∃ t : ℚ, ∀ q ∈ l, q.time + 1515 ≤ t := by
  induction l with
  | nil => exact ⟨0, by simp⟩
  | cons a l ih =>
    obtain ⟨t, ht⟩ := ih
    refine ⟨max (a.time + 1515) t, ?_⟩
    intro q hq
    rcases List.mem_cons.1 hq with rfl | hq
    · exact le_max_left _ _
    · exact le_trans (ht q hq) (le_max_right _ _)

/-- With empty FIFOs a request that is not done is scheduled. -/
theorem exists_busy (h : BankInv s) (hnil : ∀ p, (s.port p).fifo = []) (hnot : ¬ AllDone s) :
    ∃ p, (s.port p).bankBusyQue ≠ [] := by
  by_contra hnone
  apply hnot
  intro q hq
  have hat := h.at_loc q hq
  cases hl : s.hist.loc q.id with
  | fifo p =>
    rw [hl] at hat
    have hmem := hat.1
    rw [hnil p] at hmem
    cases hmem
  | busy p =>
    rw [hl] at hat
    obtain ⟨b, hb, _⟩ := hat
    exact absurd ⟨p, List.ne_nil_of_mem hb⟩ hnone
  | done =>
    rw [hl] at hat
    exact hat

/-- **A call gets ahead** at some port and time, unless all is done. -/
theorem exists_ahead (cfg : MemCfg) (h : BankInv s) (hnot : ¬ AllDone s) :
    ∃ p i s', Quiet i ∧ s.now ≤ i.now ∧ s.call cfg p i = .ok s' ∧
      (BankInv s' ∧ s'.hist.accepted = s.hist.accepted) ∧ work s' < work s := by
  by_cases hf : ∃ p, (s.port p).fifo ≠ []
  · obtain ⟨p, hp⟩ := hf
    obtain ⟨t, ht⟩ := exists_late (s.port p).fifo
    let i : BankIn := ⟨max s.now t, none, false, false, fun _ => (true, true)⟩
    have hi : Quiet i := ⟨rfl, rfl, rfl, fun _ => rfl⟩
    have hle : s.now ≤ i.now := le_max_left _ _
    have h₁ := h.setNow hle ⟨none, none⟩
    have hsched : work (scheduleReq p { s with rsp := ⟨none, none⟩, now := i.now }) < work s :=
      scheduleReq_lt (s := { s with rsp := ⟨none, none⟩, now := i.now }) hp
        fun q hq => le_trans (ht q hq) (le_max_right _ _)
    have h₂ : BankInv (scheduleReq p { s with rsp := ⟨none, none⟩, now := i.now }) := h₁.scheduleReq
    obtain ⟨s', he⟩ := complete_ok cfg p h₂ hi.2.2.2
    have hb₁ := behind_scheduleReq p { s with rsp := ⟨none, none⟩, now := i.now }
    have hb₂ := behind_complete h₂ he
    exact ⟨p, i, s', hi, hle, he, ⟨h₂.complete he, hb₂.accepted.trans hb₁.accepted⟩,
      Nat.lt_of_le_of_lt hb₂.work_le hsched⟩
  · have hnil (p : Fin n) : (s.port p).fifo = [] := by
      by_contra hp
      exact hf ⟨p, hp⟩
    obtain ⟨p, b, hlast, hfront⟩ := h.exists_served (exists_busy h hnil hnot)
    let i : BankIn := ⟨max s.now b.bankAvlTime, none, false, false, fun _ => (true, true)⟩
    have hi : Quiet i := ⟨rfl, rfl, rfl, fun _ => rfl⟩
    have hle : s.now ≤ i.now := le_max_left _ _
    have h₁ := h.setNow hle ⟨none, none⟩
    obtain ⟨s', he⟩ := complete_ok cfg p h₁ hi.2.2.2
    have hcall : s.call cfg p i = .ok s' := by
      have hsame : scheduleReq p { s with rsp := ⟨none, none⟩, now := i.now } =
          { s with rsp := ⟨none, none⟩, now := i.now } := scheduleReq_of_nil (hnil p)
      show complete cfg p i (scheduleReq p { s with rsp := ⟨none, none⟩, now := i.now }) = .ok s'
      rw [hsame]
      exact he
    have hlt := complete_lt h₁ hi hlast hfront (le_max_right _ _) he
    exact ⟨p, i, s', hi, hle, hcall, ⟨h₁.complete he, (behind_complete h₁ he).accepted⟩, hlt⟩

end BankMem

/-! ## Runs -/

/-- The calls of the ports, in any order. -/
def BankMem.step (cfg : MemCfg) (s : BankMem n) (a : Fin n × BankIn) : Except MemStop (BankMem n) :=
  s.call cfg a.1 a.2

/-- Time does not go back. -/
def BankMem.Timely (s : BankMem n) (a : Fin n × BankIn) : Prop := s.now ≤ a.2.now

variable {cfg : MemCfg} {mem : Mem ℕ} {s : BankMem n}

theorem BankInv.of_reach (hr : Reach (BankMem.step cfg) BankMem.Timely (.construct mem) s) : BankInv s :=
  hr.invariant (.construct mem) (fun _ _ _ _ hs hnow he => BankInv.call hs hnow he) s

/-- **Quiet calls finish everything**, in the right order of ports. -/
theorem BankInv.drain (cfg : MemCfg) (h : BankInv s) :
    ∃ s', Reach (BankMem.step cfg) (fun s a => BankMem.Quiet a.2 ∧ s.Timely a) s s' ∧
      s'.hist.accepted = s.hist.accepted ∧ s'.AllDone := by
  have hprogress (t : BankMem n) (ht : BankInv t ∧ t.hist.accepted = s.hist.accepted) (hnot : ¬ t.AllDone) :
      ∃ a t', (BankMem.Quiet a.2 ∧ t.Timely a) ∧ BankMem.step cfg t a = .ok t' ∧
        (BankInv t' ∧ t'.hist.accepted = s.hist.accepted) ∧ t'.work < t.work := by
    obtain ⟨p, i, t', hq, hle, he, ⟨hinv, hacc⟩, hlt⟩ := BankMem.exists_ahead cfg ht.1 hnot
    exact ⟨(p, i), t', ⟨hq, hle⟩, he, ⟨hinv, hacc.trans ht.2⟩, hlt⟩
  obtain ⟨s', hr, hI, hdone⟩ := Reach.drain (fun t => BankInv t ∧ t.hist.accepted = s.hist.accepted)
    BankMem.AllDone BankMem.work hprogress s ⟨h, rfl⟩
  exact ⟨s', hr, hI.2, hdone⟩

/-- A request that has made some but not all of its transfers. -/
theorem BankInv.partly (h : BankInv s) {q : MemRdWrReqTime} (hq : q ∈ s.hist.accepted)
    (hsome : s.hist.qws q.id ≠ []) (hnot : (s.hist.qws q.id).length < q.reqQwCnt) :
    ∃ p b, b.r = q ∧ (s.port p).bankBusyQue.getLast? = some b ∧ (s.bankQue b.r.bank).head? = some b := by
  have hat := h.at_loc q hq
  cases hl : s.hist.loc q.id with
  | fifo p =>
    rw [hl] at hat
    exact absurd hat.2 hsome
  | done =>
    rw [hl] at hat
    rw [hat, List.length_range] at hnot
    omega
  | busy p =>
    rw [hl] at hat
    obtain ⟨b, hb, hbq, hqws⟩ := hat
    have hprog : (s.port p).progress b ≠ 0 := by
      intro h0
      rw [h0] at hqws
      exact hsome hqws
    unfold BankPort.progress at hprog
    split at hprog
    · rename_i hlast
      obtain ⟨y, h1, _, h3, _⟩ := h.back.burst p _ hprog
      rw [h1] at hlast
      have hid : y.r.id = b.r.id := Option.some.inj hlast
      obtain rfl := List.inj_on_of_nodup_map (h.back.busyNodup p) (List.mem_of_getLast? h1) hb hid
      exact ⟨p, y, hbq, h1, h3⟩
    · exact absurd rfl hprog

end OpenHT.Sysc
