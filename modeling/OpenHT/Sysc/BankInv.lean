import OpenHT.Sysc.BankMem

/-!
# The invariant of the bank model

* `BankFront`, `BankBack`: the requests before and after they are scheduled.
* `BankInv`: both, and where every accepted request is.
* `BankInv.takeIn`: the request interface of a port keeps it.
-/

namespace OpenHT.Sysc

variable {n : ℕ}

/-- The requests of a port that are not scheduled. -/
def BankPort.fifo (c : BankPort) : List MemRdWrReqTime := c.hostReqQue ++ c.bankReqQue

/-- The quadwords of a scheduled request that were transferred. -/
def BankPort.progress (c : BankPort) (b : BankReq) : ℕ :=
  if c.bankBusyQue.getLast?.map (fun x => x.r.id) = some b.r.id then c.qwIdx b.r.req.type.dir else 0

/-- A request is at `l`, and what was transferred for it fits. -/
def BankMem.At (s : BankMem n) (q : MemRdWrReqTime) : BankLoc n → Prop
  | .fifo p => q ∈ (s.port p).fifo ∧ s.hist.qws q.id = []
  | .busy p => ∃ b ∈ (s.port p).bankBusyQue, b.r = q ∧ s.hist.qws q.id = List.range ((s.port p).progress b)
  | .done => s.hist.qws q.id = List.range q.reqQwCnt

/-- A half-finished burst of direction `d`: its request is at the back of the port's list, at the
front of its bank queue, and its time has come. -/
def BankMem.Burst (s : BankMem n) (p : Fin n) (d : MemDir) (b : BankReq) : Prop :=
  (s.port p).bankBusyQue.getLast? = some b ∧ b.r.req.type.dir = d ∧
    (s.bankQue b.r.bank).head? = some b ∧ (s.port p).qwIdx d < b.r.reqQwCnt ∧ b.bankAvlTime ≤ s.now

/-- The requests under assembly and in the FIFOs. -/
structure BankFront (s : BankMem n) : Prop where
  asm : ∀ p, Assembling s.hist.seqNum (s.port p).newReq (s.port p).wrDataIdx
  asmNew : ∀ p, ∀ x ∈ (s.port p).newReq, ∀ q ∈ s.hist.accepted, q.id ≠ x.id
  asmApart : ∀ p p', p ≠ p' → ∀ x ∈ (s.port p).newReq, ∀ y ∈ (s.port p').newReq, x.id ≠ y.id
  fifo : ∀ p, ∀ q ∈ (s.port p).fifo, q ∈ s.hist.accepted ∧ s.hist.loc q.id = .fifo p
  fifoNodup : ∀ p, ((s.port p).fifo.map MemRdWrReqTime.id).Nodup

/-- The scheduled requests. -/
structure BankBack (s : BankMem n) : Prop where
  busy : ∀ p, ∀ b ∈ (s.port p).bankBusyQue,
    b.r ∈ s.hist.accepted ∧ s.hist.loc b.r.id = .busy p ∧ b ∈ s.bankQue b.r.bank
  busyNodup : ∀ p, ((s.port p).bankBusyQue.map fun b => b.r.id).Nodup
  bank : ∀ k, ∀ b ∈ s.bankQue k, b.r.bank = k ∧ ∃ p, b ∈ (s.port p).bankBusyQue
  bankOrder : ∀ k, (s.bankQue k).Pairwise fun x y => x.bankAvlTime < y.bankAvlTime
  busyOrder : ∀ p, (s.port p).bankBusyQue.Pairwise fun x y => x.before y = false
  burst : ∀ p d, (s.port p).qwIdx d ≠ 0 → ∃ b, s.Burst p d b

structure BankInv (s : BankMem n) : Prop where
  front : BankFront s
  back : BankBack s
  at_loc : ∀ q ∈ s.hist.accepted, s.At q (s.hist.loc q.id)
  hist : s.hist.Ok

namespace BankMem

variable {s s' : BankMem n}

@[simp] theorem port_setPort_self (p : Fin n) (c : BankPort) : (s.setPort p c).port p = c :=
  Function.update_self _ _ _

@[simp] theorem port_setPort_of_ne {p p' : Fin n} (h : p' ≠ p) (c : BankPort) :
    (s.setPort p c).port p' = s.port p' := Function.update_of_ne h _ _

/-- A step that leaves a request where it is. -/
theorem At.congr {q : MemRdWrReqTime} {l : BankLoc n} (h : s.At q l)
    (hqws : s'.hist.qws q.id = s.hist.qws q.id)
    (hfifo : ∀ p, l = .fifo p → q ∈ (s.port p).fifo → q ∈ (s'.port p).fifo)
    (hbusy : ∀ p b, l = .busy p → b ∈ (s.port p).bankBusyQue → b.r = q →
      b ∈ (s'.port p).bankBusyQue ∧ (s'.port p).progress b = (s.port p).progress b) : s'.At q l := by
  cases l with
  | fifo p => exact ⟨hfifo p rfl h.1, hqws.trans h.2⟩
  | busy p =>
    obtain ⟨b, hb, hbq, hp⟩ := h
    obtain ⟨hb', hp'⟩ := hbusy p b rfl hb hbq
    exact ⟨b, hb', hbq, by rw [hqws, hp, hp']⟩
  | done => exact hqws.trans h

end BankMem

theorem BankPort.fifo_push (c : BankPort) (q : MemRdWrReqTime) : (c.push q).fifo.Perm (q :: c.fifo) := by
  unfold BankPort.push BankPort.fifo
  split
  · rw [List.append_assoc]
    exact List.perm_middle
  · rw [← List.append_assoc]
    exact List.perm_append_singleton _ _

theorem BankPort.push_rest (c : BankPort) (q : MemRdWrReqTime) :
    (c.push q).newReq = c.newReq ∧ (c.push q).wrDataIdx = c.wrDataIdx ∧
      (c.push q).bankBusyQue = c.bankBusyQue ∧ (c.push q).qwIdx = c.qwIdx := by
  unfold BankPort.push
  split
  · exact ⟨rfl, rfl, rfl, rfl⟩
  · exact ⟨rfl, rfl, rfl, rfl⟩

/-- The scheduled requests of a state in which only the rest changes. -/
theorem BankBack.congr {s s' : BankMem n} (h : BankBack s)
    (hport : ∀ p, (s'.port p).bankBusyQue = (s.port p).bankBusyQue ∧ (s'.port p).qwIdx = (s.port p).qwIdx)
    (hbank : s'.bankQue = s.bankQue) (hnow : s.now ≤ s'.now)
    (hacc : ∀ q ∈ s.hist.accepted, q ∈ s'.hist.accepted ∧ s'.hist.loc q.id = s.hist.loc q.id) :
    BankBack s' := by
  refine ⟨?_, ?_, ?_, ?_, ?_, ?_⟩
  · intro p b hb
    rw [(hport p).1] at hb
    obtain ⟨h1, h2, h3⟩ := h.busy p b hb
    obtain ⟨h1', h2'⟩ := hacc _ h1
    rw [hbank]
    exact ⟨h1', h2'.trans h2, h3⟩
  · intro p
    rw [(hport p).1]
    exact h.busyNodup p
  · intro k b hb
    rw [hbank] at hb
    obtain ⟨hk, p, hp⟩ := h.bank k b hb
    refine ⟨hk, p, ?_⟩
    rw [(hport p).1]
    exact hp
  · intro k
    rw [hbank]
    exact h.bankOrder k
  · intro p
    rw [(hport p).1]
    exact h.busyOrder p
  · intro p d hd
    rw [(hport p).2] at hd
    obtain ⟨b, h1, h2, h3, h4, h5⟩ := h.burst p d hd
    refine ⟨b, ?_, h2, ?_, ?_, le_trans h5 hnow⟩
    · rw [(hport p).1]
      exact h1
    · rw [hbank]
      exact h3
    · rw [(hport p).2]
      exact h4

/-- The requests that are not scheduled, in a state in which only the rest changes. -/
theorem BankFront.congr {s s' : BankMem n} (h : BankFront s)
    (hport : ∀ p, (s'.port p).newReq = (s.port p).newReq ∧ (s'.port p).wrDataIdx = (s.port p).wrDataIdx ∧
      (s'.port p).fifo = (s.port p).fifo)
    (hseq : s'.hist.seqNum = s.hist.seqNum) (hacc : s'.hist.accepted = s.hist.accepted)
    (hloc : ∀ p, ∀ q ∈ (s.port p).fifo, s'.hist.loc q.id = s.hist.loc q.id) : BankFront s' := by
  refine ⟨?_, ?_, ?_, ?_, ?_⟩
  · intro p
    rw [hseq, (hport p).1, (hport p).2.1]
    exact h.asm p
  · intro p x hx
    rw [(hport p).1] at hx
    rw [hacc]
    exact h.asmNew p x hx
  · intro p₁ p₂ hne x hx y hy
    rw [(hport p₁).1] at hx
    rw [(hport p₂).1] at hy
    exact h.asmApart p₁ p₂ hne x hx y hy
  · intro p q hq
    rw [(hport p).2.2] at hq
    rw [hacc, hloc p q hq]
    exact h.fifo p q hq
  · intro p
    rw [(hport p).2.2]
    exact h.fifoNodup p

/-- A request that keeps its id is still under assembly when more ids are taken. -/
theorem Assembling.mono {m m' w : ℕ} {x : Option MemRdWrReqTime} (h : Assembling m x w) (hm : m ≤ m') :
    Assembling m' x w := by
  cases x with
  | none => exact h
  | some x => exact ⟨h.1, h.2.1, h.2.2.1, Nat.lt_of_lt_of_le h.2.2.2 hm⟩

namespace BankInv

variable {cfg : MemCfg} {p : Fin n} {i : BankIn} {s s' : BankMem n}

/-- Later calls. -/
theorem setNow (h : BankInv s) {now : ℚ} (hnow : s.now ≤ now) (rsp : MemRsp) :
    BankInv { s with rsp := rsp, now := now } :=
  { h with
    front := { h.front with }
    back := h.back.congr (fun _ => ⟨rfl, rfl⟩) rfl hnow fun _ hq => ⟨hq, rfl⟩ }

/-- The id of the request a quadword of port `p` belongs to is not an accepted one, and not that
of a request under assembly at another port. -/
theorem takenId_new (h : BankInv s) (p : Fin n) :
    (∀ q ∈ s.hist.accepted, q.id ≠ takenId s.hist.seqNum (s.port p).newReq) ∧
      ∀ p', p' ≠ p → ∀ x ∈ (s.port p').newReq, x.id ≠ takenId s.hist.seqNum (s.port p).newReq := by
  cases hp : (s.port p).newReq with
  | none =>
    refine ⟨?_, ?_⟩
    · intro q hq
      exact Nat.ne_of_lt (h.hist.idLt q hq)
    · intro p' _ x hx
      have hasm := h.front.asm p'
      rw [show (s.port p').newReq = some x from hx] at hasm
      exact Nat.ne_of_lt hasm.2.2.2
  | some y => exact ⟨h.front.asmNew p y hp, fun p' hne x hx => h.front.asmApart p' p hne x hx y hp⟩

/-- A complete request is accepted at the end of a FIFO. -/
theorem accept (h : BankInv s) {q : MemRdWrReqTime}
    (hnew : ∀ q' ∈ s.hist.accepted, q'.id ≠ q.id)
    (hapart : ∀ p', p' ≠ p → ∀ x ∈ (s.port p').newReq, x.id ≠ q.id)
    (hlt : q.id < s.hist.seqNum + if (s.port p).newReq.isNone then 1 else 0)
    (hcnt : 1 ≤ q.reqQwCnt ∧ q.reqQwCnt ≤ 8) :
    BankInv { s.setPort p (BankPort.push { s.port p with newReq := none, wrDataIdx := 0 } q) with
      hist := (s.hist.take (s.port p).newReq).accept q (.fifo p) } := by
  have hseq (p' : Fin n) := (h.front.asm p').mono
    (Nat.le_add_right s.hist.seqNum (if (s.port p).newReq.isNone then 1 else 0))
  obtain ⟨c, hcdef⟩ : ∃ c, c = BankPort.push { s.port p with newReq := none, wrDataIdx := 0 } q := ⟨_, rfl⟩
  obtain ⟨hc1, hc2, hc3, hc4⟩ := BankPort.push_rest { s.port p with newReq := none, wrDataIdx := 0 } q
  have hperm : c.fifo.Perm (q :: (s.port p).fifo) :=
    hcdef ▸ BankPort.fifo_push { s.port p with newReq := none, wrDataIdx := 0 } q
  rw [← hcdef] at hc1 hc2 hc3 hc4 ⊢
  have hloc (q' : MemRdWrReqTime) (hq' : q' ∈ s.hist.accepted) :
      Function.update s.hist.loc q.id (.fifo p) q'.id = s.hist.loc q'.id :=
    Function.update_of_ne (hnew q' hq') _ _
  exact {
    front := {
      asm := by
        intro p'
        by_cases hp : p' = p
        · subst hp
          dsimp only
          rw [BankMem.port_setPort_self, hc1, hc2]
          rfl
        · dsimp only
          rw [BankMem.port_setPort_of_ne hp]
          exact hseq p'
      asmNew := by
        intro p' x hx q' hq'
        dsimp only at hx
        by_cases hp : p' = p
        · subst hp
          rw [BankMem.port_setPort_self, hc1] at hx
          cases hx
        · rw [BankMem.port_setPort_of_ne hp] at hx
          rcases List.mem_append.1 hq' with hq' | hq'
          · exact h.front.asmNew p' x hx q' hq'
          · obtain rfl : q' = q := by simpa using hq'
            exact (hapart p' hp x hx).symm
      asmApart := by
        intro p₁ p₂ hne x hx y hy
        dsimp only at hx hy
        by_cases hp₁ : p₁ = p
        · subst hp₁
          rw [BankMem.port_setPort_self, hc1] at hx
          cases hx
        · by_cases hp₂ : p₂ = p
          · subst hp₂
            rw [BankMem.port_setPort_self, hc1] at hy
            cases hy
          · rw [BankMem.port_setPort_of_ne hp₁] at hx
            rw [BankMem.port_setPort_of_ne hp₂] at hy
            exact h.front.asmApart p₁ p₂ hne x hx y hy
      fifo := by
        intro p' q' hq'
        dsimp only at hq' ⊢
        by_cases hp : p' = p
        · subst hp
          rw [BankMem.port_setPort_self, hperm.mem_iff] at hq'
          rcases List.mem_cons.1 hq' with rfl | hq'
          · exact ⟨List.mem_append_right _ List.mem_cons_self, Function.update_self _ _ _⟩
          · obtain ⟨hacc, hl⟩ := h.front.fifo p' q' hq'
            exact ⟨List.mem_append_left _ hacc, (hloc q' hacc).trans hl⟩
        · rw [BankMem.port_setPort_of_ne hp] at hq'
          obtain ⟨hacc, hl⟩ := h.front.fifo p' q' hq'
          exact ⟨List.mem_append_left _ hacc, (hloc q' hacc).trans hl⟩
      fifoNodup := by
        intro p'
        dsimp only
        by_cases hp : p' = p
        · subst hp
          rw [BankMem.port_setPort_self, (hperm.map _).nodup_iff, List.map_cons, List.nodup_cons]
          refine ⟨?_, h.front.fifoNodup p'⟩
          intro hmem
          obtain ⟨q', hq', he⟩ := List.mem_map.1 hmem
          exact hnew q' (h.front.fifo p' q' hq').1 he
        · rw [BankMem.port_setPort_of_ne hp]
          exact h.front.fifoNodup p' }
    back := by
      refine h.back.congr ?_ rfl (le_refl _) ?_
      · intro p'
        dsimp only
        by_cases hp : p' = p
        · subst hp
          rw [BankMem.port_setPort_self]
          exact ⟨hc3, hc4⟩
        · rw [BankMem.port_setPort_of_ne hp]
          exact ⟨rfl, rfl⟩
      · intro q' hq'
        exact ⟨List.mem_append_left _ hq', hloc q' hq'⟩
    at_loc := by
      intro q' hq'
      show BankMem.At _ q' (Function.update s.hist.loc q.id (.fifo p) q'.id)
      rcases List.mem_append.1 hq' with hacc | hq'
      · rw [hloc q' hacc]
        refine (h.at_loc q' hacc).congr rfl ?_ ?_
        · intro p' _ hmem
          dsimp only
          by_cases hp : p' = p
          · subst hp
            rw [BankMem.port_setPort_self, hperm.mem_iff]
            exact List.mem_cons_of_mem _ hmem
          · rw [BankMem.port_setPort_of_ne hp]
            exact hmem
        · intro p' b _ hb _
          dsimp only
          by_cases hp : p' = p
          · subst hp
            rw [BankMem.port_setPort_self]
            unfold BankPort.progress
            rw [hc3, hc4]
            exact ⟨hb, rfl⟩
          · rw [BankMem.port_setPort_of_ne hp]
            exact ⟨hb, rfl⟩
      · obtain rfl : q' = q := by simpa using hq'
        rw [Function.update_self]
        refine ⟨?_, h.hist.unseen _ hnew⟩
        dsimp only
        rw [BankMem.port_setPort_self, hperm.mem_iff]
        exact List.mem_cons_self
    hist := (h.hist.take _).accept hnew hlt hcnt _ }

/-- A write lacks more quadwords. -/
theorem assemble (h : BankInv s) {q : MemRdWrReqTime} {w : ℕ}
    (hasm : Assembling (s.hist.seqNum + if (s.port p).newReq.isNone then 1 else 0) (some q) w)
    (hnew : ∀ q' ∈ s.hist.accepted, q'.id ≠ q.id)
    (hapart : ∀ p', p' ≠ p → ∀ x ∈ (s.port p').newReq, x.id ≠ q.id) :
    BankInv { s.setPort p { s.port p with newReq := some q, wrDataIdx := w } with
      hist := s.hist.take (s.port p).newReq } := by
  have hseq (p' : Fin n) := (h.front.asm p').mono
    (Nat.le_add_right s.hist.seqNum (if (s.port p).newReq.isNone then 1 else 0))
  have hport (p' : Fin n) :
      ((s.setPort p { s.port p with newReq := some q, wrDataIdx := w }).port p').fifo = (s.port p').fifo ∧
      ((s.setPort p { s.port p with newReq := some q, wrDataIdx := w }).port p').bankBusyQue =
        (s.port p').bankBusyQue ∧
      ((s.setPort p { s.port p with newReq := some q, wrDataIdx := w }).port p').qwIdx = (s.port p').qwIdx := by
    by_cases hp : p' = p
    · subst hp
      rw [BankMem.port_setPort_self]
      exact ⟨rfl, rfl, rfl⟩
    · rw [BankMem.port_setPort_of_ne hp]
      exact ⟨rfl, rfl, rfl⟩
  exact {
    front := {
      asm := by
        intro p'
        dsimp only
        by_cases hp : p' = p
        · subst hp
          rw [BankMem.port_setPort_self]
          exact hasm
        · rw [BankMem.port_setPort_of_ne hp]
          exact hseq p'
      asmNew := by
        intro p' x hx
        dsimp only at hx
        by_cases hp : p' = p
        · subst hp
          rw [BankMem.port_setPort_self] at hx
          obtain rfl : q = x := by simpa using hx
          exact hnew
        · rw [BankMem.port_setPort_of_ne hp] at hx
          exact h.front.asmNew p' x hx
      asmApart := by
        intro p₁ p₂ hne x hx y hy
        dsimp only at hx hy
        by_cases hp₁ : p₁ = p
        · subst hp₁
          rw [BankMem.port_setPort_self] at hx
          obtain rfl : q = x := by simpa using hx
          rw [BankMem.port_setPort_of_ne hne.symm] at hy
          exact (hapart p₂ hne.symm y hy).symm
        · rw [BankMem.port_setPort_of_ne hp₁] at hx
          by_cases hp₂ : p₂ = p
          · subst hp₂
            rw [BankMem.port_setPort_self] at hy
            obtain rfl : q = y := by simpa using hy
            exact hapart p₁ hp₁ x hx
          · rw [BankMem.port_setPort_of_ne hp₂] at hy
            exact h.front.asmApart p₁ p₂ hne x hx y hy
      fifo := by
        intro p' q' hq'
        dsimp only at hq'
        rw [(hport p').1] at hq'
        exact h.front.fifo p' q' hq'
      fifoNodup := by
        intro p'
        dsimp only
        rw [(hport p').1]
        exact h.front.fifoNodup p' }
    back := h.back.congr (fun p' => (hport p').2) rfl (le_refl _) fun _ hq => ⟨hq, rfl⟩
    at_loc := by
      intro q' hq'
      refine (h.at_loc q' hq').congr rfl ?_ ?_
      · intro p' _ hmem
        dsimp only
        rw [(hport p').1]
        exact hmem
      · intro p' b _ hb _
        dsimp only
        unfold BankPort.progress
        rw [(hport p').2.1, (hport p').2.2]
        exact ⟨hb, rfl⟩
    hist := h.hist.take _ }

/-- **The request interface** of a port. -/
theorem takeIn (h : BankInv s) (he : s.takeIn cfg p i = .ok s') : BankInv s' := by
  unfold BankMem.takeIn at he
  cases hr : i.req with
  | none =>
    rw [hr] at he
    cases he
    exact h
  | some r =>
    rw [hr] at he
    simp only [bind_ok] at he
    obtain ⟨⟨q, w⟩, htake, he⟩ := he
    obtain ⟨hid, hlt, h1, h8, hasm⟩ := takeReq_ok (h.front.asm p) htake
    obtain ⟨hnew, hapart⟩ := h.takenId_new p
    rw [← hid] at hnew hapart
    by_cases hc : q.complete w = true
    · rw [if_pos hc] at he
      cases he
      exact h.accept hnew hapart hlt ⟨h1, h8⟩
    · rw [if_neg hc] at he
      cases he
      exact h.assemble (hasm (by simpa using hc)) hnew hapart

end BankInv

end OpenHT.Sysc
