import OpenHT.Sysc.RndMem

/-!
# The random order model serves every request once

* `QueOk`: what holds of the FIFO and the request under assembly, also before a reset.
* `clk_list`: no slot is overwritten while it is valid.
* `exists_quiet`: a clock without a request and back pressure that gets ahead.
* `rnd_mem_serves_once`: the runs from a reset.
-/

namespace OpenHT.Sysc

open Lts

/-! ## Before the reset -/

/-- The FIFO and the request under assembly, whatever the other registers are. -/
structure RndMem.QueOk (s : RndMem) : Prop where
  asm : Assembling s.hist.seqNum s.pReqTime s.wrDataIdx
  asmId : ∀ p ∈ s.pReqTime, ∀ q ∈ s.memReqQue, q.id ≠ p.id
  hist : s.fresh.hist.Ok

/-- Behind the interface requests only leave the FIFO. -/
structure RndMem.Behind (s s' : RndMem) : Prop where
  que : s'.memReqQue.Sublist s.memReqQue
  pReqTime : s'.pReqTime = s.pReqTime
  wrDataIdx : s'.wrDataIdx = s.wrDataIdx
  seqNum : s'.hist.seqNum = s.hist.seqNum
  accepted : s'.hist.accepted = s.hist.accepted

namespace RndMem

variable {cfg : RndCfg} {i : RndIn} {s s' s'' : RndMem}

theorem Behind.refl (s : RndMem) : Behind s s := ⟨List.Sublist.refl _, rfl, rfl, rfl, rfl⟩

theorem Behind.trans (h : Behind s s') (h' : Behind s' s'') : Behind s s'' :=
  ⟨h'.que.trans h.que, h'.pReqTime.trans h.pReqTime, h'.wrDataIdx.trans h.wrDataIdx,
    h'.seqNum.trans h.seqNum, h'.accepted.trans h.accepted⟩

theorem behind_insert (cfg : RndCfg) (i : RndIn) (s : RndMem) : Behind s (s.insert cfg i) := by
  unfold RndMem.insert
  cases hq : s.memReqQue with
  | nil => exact .refl s
  | cons q rest =>
    dsimp only
    split
    · split
      · refine ⟨?_, rfl, rfl, rfl, rfl⟩
        rw [hq]
        exact List.sublist_cons_self q rest
      · exact ⟨hq ▸ List.Sublist.refl _, rfl, rfl, rfl, rfl⟩
    · exact .refl s

theorem behind_chooseIdx (i : RndIn) (s : RndMem) : Behind s (s.chooseIdx i) := by
  unfold RndMem.chooseIdx
  split
  · exact .refl s
  · exact ⟨List.Sublist.refl _, rfl, rfl, rfl, rfl⟩

theorem behind_transfer (d : MemDir) (mem : Mem ℕ) (rsp : MemRsp) : Behind s (s.transfer d mem rsp) := by
  unfold RndMem.transfer
  dsimp only
  split
  · exact ⟨List.Sublist.refl _, rfl, rfl, rfl, rfl⟩
  · exact ⟨List.Sublist.refl _, rfl, rfl, rfl, rfl⟩

theorem behind_serveRd (cfg : RndCfg) (i : RndIn) (s : RndMem) : Behind s (s.serveRd cfg i) := by
  unfold RndMem.serveRd
  dsimp only
  split
  · exact behind_transfer _ _ _
  · exact .refl s

theorem behind_serveWr (cfg : RndCfg) (i : RndIn) (s : RndMem) : Behind s (s.serveWr cfg i) := by
  unfold RndMem.serveWr
  dsimp only
  split
  · exact behind_transfer _ _ _
  · exact .refl s

/-- What a clock does behind the FIFO. -/
theorem behind_serve (cfg : RndCfg) (i : RndIn) (s : RndMem) :
    Behind s (((s.chooseIdx i).serveRd cfg i).serveWr cfg i) :=
  ((behind_chooseIdx i s).trans (behind_serveRd cfg i _)).trans (behind_serveWr cfg i _)

theorem QueOk.construct (bRd bWr : Bool) (prev : ℕ) (list : MemDir → ℕ → MemRdWrReqTime) (mem : Mem ℕ) :
    QueOk (construct bRd bWr prev list mem) := by
  refine ⟨rfl, by simp [RndMem.construct], ?_⟩
  exact ⟨by simp [RndMem.construct, fresh], by simp [RndMem.construct, fresh],
    by simp [RndMem.construct, fresh], fun _ _ => rfl⟩

theorem QueOk.behind (h : QueOk s) (hb : Behind s s') : QueOk s' := by
  refine ⟨?_, ?_, ?_, ?_, ?_, fun _ _ => rfl⟩
  · rw [hb.seqNum, hb.pReqTime, hb.wrDataIdx]
    exact h.asm
  · intro p hp q hq
    rw [hb.pReqTime] at hp
    exact h.asmId p hp q (hb.que.subset hq)
  · intro q hq
    exact h.hist.cnt q (hb.que.subset hq)
  · intro q hq
    have := h.hist.idLt q (hb.que.subset hq)
    exact hb.seqNum.symm ▸ this
  · exact h.hist.nodup.sublist (hb.que.map _)

theorem QueOk.takeIn (h : QueOk s) (he : s.takeIn cfg i = .ok s') : QueOk s' := by
  unfold RndMem.takeIn at he
  cases hr : i.req with
  | none =>
    rw [hr] at he
    cases he
    exact h
  | some r =>
    rw [hr] at he
    simp only [bind_ok] at he
    obtain ⟨⟨q, w⟩, htake, he⟩ := he
    obtain ⟨hid, hlt, h1, h8, hasm⟩ := takeReq_ok h.asm htake
    have hnew : ∀ q' ∈ s.memReqQue, q'.id ≠ q.id := by
      intro q' hq'
      rw [hid]
      cases hp : s.pReqTime with
      | none =>
        have : q'.id < s.hist.seqNum := h.hist.idLt q' hq'
        exact Nat.ne_of_lt this
      | some p => exact h.asmId p hp q' hq'
    by_cases hc : q.complete w = true
    · rw [if_pos hc] at he
      cases he
      have hacc := (h.hist.take s.pReqTime).accept hnew hlt ⟨h1, h8⟩ .que
      exact ⟨rfl, by simp, ⟨hacc.cnt, hacc.idLt, hacc.nodup, fun _ _ => rfl⟩⟩
    · rw [if_neg hc] at he
      cases he
      refine ⟨hasm (by simpa using hc), ?_, ?_⟩
      · intro p hp q' hq'
        obtain rfl : q = p := by simpa using hp
        exact hnew q' hq'
      · have htaken := h.hist.take s.pReqTime
        exact ⟨htaken.cnt, htaken.idLt, htaken.nodup, fun _ _ => rfl⟩

/-- Any clock. -/
theorem QueOk.clk (h : QueOk s) (he : s.clk cfg i = .ok s') : QueOk s' := by
  unfold RndMem.clk at he
  simp only [bind_ok] at he
  obtain ⟨s₁, htake, he⟩ := he
  have h₁ : QueOk s₁ := takeIn (s := { s with rsp := ⟨none, none⟩ }) ⟨h.asm, h.asmId, h.hist⟩ htake
  have h₂ := h₁.behind ((behind_insert cfg i s₁).trans (behind_serve cfg i _))
  cases he
  split
  · exact ⟨h₂.asm, h₂.asmId, h₂.hist⟩
  · exact h₂

/-- **A reset** starts a history. -/
theorem QueOk.reset (h : QueOk s) (hreset : i.reset = true) (he : s.clk cfg i = .ok s') : RndInv s'.fresh := by
  have h' := h.clk he
  have hregs : ∃ t : RndMem, s' = t.reset := by
    unfold RndMem.clk at he
    simp only [bind_ok] at he
    obtain ⟨s₁, _, he⟩ := he
    rw [hreset] at he
    cases he
    exact ⟨_, rfl⟩
  obtain ⟨t, rfl⟩ := hregs
  exact {
    asm := h'.asm
    asmId := h'.asmId
    side := fun d => .reset _
    prev := Nat.zero_lt_succ 31
    queNodup := h'.hist.nodup
    que := fun q hq => ⟨hq, rfl⟩
    slot := by
      intro d j hj
      have hzero : ((t.reset.fresh).req d).valid = 0 := rfl
      rw [hzero] at hj
      simp at hj
    at_loc := fun q hq => ⟨hq, rfl⟩
    hist := h'.hist }

/-! ## Slots -/

theorem req_takeIn (he : s.takeIn cfg i = .ok s') : s'.req = s.req := by
  unfold RndMem.takeIn at he
  cases hr : i.req with
  | none =>
    rw [hr] at he
    cases he
    rfl
  | some r =>
    rw [hr] at he
    simp only [bind_ok] at he
    obtain ⟨_, _, he⟩ := he
    split at he
    · cases he
      rfl
    · cases he
      rfl

theorem req_chooseIdx : (s.chooseIdx i).req = s.req := by
  unfold RndMem.chooseIdx
  split
  · rfl
  · rfl

theorem list_transfer (d d' : MemDir) (mem : Mem ℕ) (rsp : MemRsp) :
    ((s.transfer d mem rsp).req d').list = (s.req d').list := by
  unfold RndMem.transfer
  dsimp only
  by_cases hd : d' = d
  · subst hd
    rw [Function.update_self]
    unfold ReqList.advance
    split
    · rfl
    · rfl
  · rw [Function.update_of_ne hd]

theorem list_serveRd (d : MemDir) : ((s.serveRd cfg i).req d).list = (s.req d).list := by
  unfold RndMem.serveRd
  dsimp only
  split
  · exact list_transfer _ _ _ _
  · rfl

theorem list_serveWr (d : MemDir) : ((s.serveWr cfg i).req d).list = (s.req d).list := by
  unfold RndMem.serveWr
  dsimp only
  split
  · exact list_transfer _ _ _ _
  · rfl

theorem list_insert (h : RndInv s) {d : MemDir} {j : ℕ} (hv : (s.req d).valid.getLsbD j = true) :
    ((s.insert cfg i).req d).list j = (s.req d).list j := by
  unfold RndMem.insert
  cases hq : s.memReqQue with
  | nil => rfl
  | cons q rest =>
    dsimp only
    split
    · generalize q.req.type.dir = d'
      have hspec := ReqList.findSlot_spec memReqMax (s.req d').valid (h.side d').rr
      by_cases hd : d = d'
      · subst hd
        split
        · rename_i hfound
          have hne : j ≠ (ReqList.findSlot memReqMax (s.req d).valid (s.req d).rr).1 := by
            intro he
            have := hspec.2 hfound
            rw [← he, hv] at this
            cases this
          simp [ReqList.put, hne]
        · simp
      · split
        · simp [Function.update_of_ne hd]
        · simp [Function.update_of_ne hd]
    · rfl

/-- **No slot is overwritten** while it is valid, not even in the clock that frees it. -/
theorem list_clk (h : RndInv s) (he : s.clk cfg i = .ok s') {d : MemDir} {j : ℕ}
    (hv : (s.req d).valid.getLsbD j = true) : (s'.req d).list j = (s.req d).list j := by
  unfold RndMem.clk at he
  simp only [bind_ok] at he
  obtain ⟨s₁, htake, he⟩ := he
  have h₁ : RndInv s₁ := RndInv.takeIn (s := { s with rsp := ⟨none, none⟩ }) { h with } htake
  have hreq : s₁.req = s.req := (req_takeIn htake).trans rfl
  have hserve : ((serveWr cfg i (serveRd cfg i (chooseIdx i (RndMem.insert cfg i s₁)))).req d).list j =
      (s.req d).list j := by
    rw [list_serveWr, list_serveRd, req_chooseIdx, list_insert h₁ (by rw [hreq]; exact hv), hreq]
  cases he
  split
  · exact hserve
  · exact hserve

/-! ## Progress -/

/-- What is left to do: quadwords to transfer and requests to take from the FIFO. -/
def work (s : RndMem) : ℕ := s.hist.left + s.memReqQue.length

theorem left_transfer (h : RndInv s) {d : MemDir} (hv : (s.req d).valid.getLsbD s.prevReqIdx = true)
    (mem : Mem ℕ) (rsp : MemRsp) : (s.transfer d mem rsp).hist.left < s.hist.left := by
  obtain ⟨hacc, hloc⟩ := h.slot d _ hv
  have hat := h.at_loc _ hacc
  rw [hloc] at hat
  have hlt : (s.hist.qws ((s.req d).list s.prevReqIdx).id).length < ((s.req d).list s.prevReqIdx).reqQwCnt := by
    rw [hat.2.2, List.length_range, ReqList.progress, if_pos rfl]
    by_cases hb : (s.req d).bHold = true
    · exact ((h.side d).held hb).2
    · rw [(h.side d).qwIdx_eq (by simpa using hb)]
      exact (h.hist.cnt _ hacc).1
  have hmem : (((s.req d).list s.prevReqIdx).id, ((s.req d).list s.prevReqIdx).reqQwCnt) ∈
      s.hist.accepted.map fun q => (q.id, q.reqQwCnt) := List.mem_map.2 ⟨_, hacc, rfl⟩
  have hleft := Ledger.left_append_lt (n := (s.req d).qwIdx) hmem hlt
  unfold RndMem.transfer
  dsimp only
  split
  · exact hleft
  · exact hleft

theorem left_serveRd_le (cfg : RndCfg) (i : RndIn) (h : RndInv s) : (s.serveRd cfg i).hist.left ≤ s.hist.left := by
  unfold RndMem.serveRd
  dsimp only
  split
  · rename_i hc
    simp only [Bool.and_eq_true] at hc
    exact Nat.le_of_lt (left_transfer h hc.2 _ _)
  · exact Nat.le_refl _

theorem left_serveWr_le (cfg : RndCfg) (i : RndIn) (h : RndInv s) : (s.serveWr cfg i).hist.left ≤ s.hist.left := by
  unfold RndMem.serveWr
  dsimp only
  split
  · rename_i hc
    simp only [Bool.and_eq_true] at hc
    exact Nat.le_of_lt (left_transfer h hc.2 _ _)
  · exact Nat.le_refl _

/-- A valid slot counts. -/
theorem cnt_ne_zero (h : RndInv s) {d : MemDir} {j : ℕ} (hv : (s.req d).valid.getLsbD j = true) :
    (s.req d).cnt ≠ 0 := by
  rw [(h.side d).cnt]
  exact Nat.ne_of_gt (popcount_pos hv)

theorem left_serveWr_lt (cfg : RndCfg) (h : RndInv s) (hfull : i.wrRspFull = false)
    (hv : (s.req .wr).valid.getLsbD s.prevReqIdx = true) : (s.serveWr cfg i).hist.left < s.hist.left := by
  have hcnt := cnt_ne_zero h hv
  unfold RndMem.serveWr
  dsimp only
  rw [if_pos (by simp [hfull, hcnt, hv])]
  exact left_transfer h hv _ _

theorem left_serveRd_lt (cfg : RndCfg) (h : RndInv s) (hfull : i.rdRspFull = false)
    (hv : (s.req .rd).valid.getLsbD s.prevReqIdx = true) (hwr : (s.req .wr).cnt ≠ memReqMax) :
    (s.serveRd cfg i).hist.left < s.hist.left := by
  have hcnt := cnt_ne_zero h hv
  unfold RndMem.serveRd
  dsimp only
  rw [if_pos (by simp [hfull, hcnt, hv, hwr])]
  exact left_transfer h hv _ _

theorem transfer_other {d d' : MemDir} (hd : d' ≠ d) (mem : Mem ℕ) (rsp : MemRsp) :
    (s.transfer d mem rsp).req d' = s.req d' := Function.update_of_ne hd _ _

theorem wr_serveRd (cfg : RndCfg) (i : RndIn) (s : RndMem) : (s.serveRd cfg i).req .wr = s.req .wr ∧ (s.serveRd cfg i).prevReqIdx = s.prevReqIdx := by
  unfold RndMem.serveRd
  dsimp only
  split
  · exact ⟨transfer_other (by simp) _ _, rfl⟩
  · exact ⟨rfl, rfl⟩

/-- An index at which something can be done. -/
def Ready (s : RndMem) (idx : ℕ) : Prop :=
  (s.req .wr).valid.getLsbD idx = true ∨
    (s.req .rd).valid.getLsbD idx = true ∧ (s.req .wr).cnt ≠ memReqMax

theorem left_serve_lt (cfg : RndCfg) (h : RndInv s) (hrd : i.rdRspFull = false) (hwr : i.wrRspFull = false)
    (hready : Ready s s.prevReqIdx) : ((s.serveRd cfg i).serveWr cfg i).hist.left < s.hist.left := by
  have h₁ : RndInv (s.serveRd cfg i) := h.serveRd
  rcases hready with hv | ⟨hv, hcnt⟩
  · obtain ⟨hreq, hprev⟩ := wr_serveRd cfg i s
    have hlt := left_serveWr_lt cfg h₁ hwr (by rw [hreq, hprev]; exact hv)
    exact Nat.lt_of_lt_of_le hlt (left_serveRd_le cfg i h)
  · exact Nat.lt_of_le_of_lt (left_serveWr_le cfg i h₁) (left_serveRd_lt cfg h hrd hv hcnt)

/-- All bits are set. -/
theorem getLsbD_of_popcount {v : BitVec 32} (h : popcount v = 32) {j : ℕ} (hj : j < 32) : v.getLsbD j = true := by
  have hcard : ((Finset.range 32).filter fun i => v.getLsbD i = true) = Finset.range 32 :=
    Finset.eq_of_subset_of_card_le (Finset.filter_subset _ _) (by rw [Finset.card_range]; exact Nat.le_of_eq h.symm)
  have hmem : j ∈ (Finset.range 32).filter fun i => v.getLsbD i = true := by
    rw [hcard]
    exact Finset.mem_range.2 hj
  exact (Finset.mem_filter.1 hmem).2

/-- **No deadlock.** While a slot is valid there is a random index with which the next clock
transfers a quadword: a held read is kept from its slot only by a full list of writes, and then
the write in the same slot is served. -/
theorem exists_ready (h : RndInv s) {d : MemDir} {j : ℕ} (hv : (s.req d).valid.getLsbD j = true) :
    ∃ rnd, ∀ i : RndIn, i.rnd = rnd → Ready s (s.chooseIdx i).prevReqIdx := by
  by_cases hb : ((s.req .rd).bHold || (s.req .wr).bHold) = true
  · refine ⟨0, fun i _ => ?_⟩
    have hprev : (s.chooseIdx i).prevReqIdx = s.prevReqIdx := by
      unfold RndMem.chooseIdx
      rw [if_pos hb]
    rw [hprev]
    by_cases hwr : (s.req .wr).bHold = true
    · exact .inl ((h.side .wr).held hwr).1
    · have hrd : (s.req .rd).bHold = true := by simpa [hwr] using hb
      by_cases hfull : (s.req .wr).cnt = memReqMax
      · have hpop : popcount (s.req .wr).valid = 32 := (h.side .wr).cnt.symm.trans hfull
        exact .inl (getLsbD_of_popcount hpop h.prev)
      · exact .inr ⟨((h.side .rd).held hrd).1, hfull⟩
  · have hprev (idx : ℕ) (hidx : idx < 32) (i : RndIn) (hi : i.rnd = idx) :
        (s.chooseIdx i).prevReqIdx = idx := by
      unfold RndMem.chooseIdx
      rw [if_neg hb]
      show i.rnd % 32 = idx
      rw [hi, Nat.mod_eq_of_lt hidx]
    by_cases hwr : ∃ k, (s.req .wr).valid.getLsbD k = true
    · obtain ⟨k, hk⟩ := hwr
      refine ⟨k, fun i hi => ?_⟩
      rw [hprev k (lt_of_getLsbD hk) i hi]
      exact .inl hk
    · have hd : d = .rd := by
        cases d with
        | rd => rfl
        | wr => exact absurd ⟨j, hv⟩ hwr
      subst hd
      refine ⟨j, fun i hi => ?_⟩
      rw [hprev j (lt_of_getLsbD hv) i hi]
      refine .inr ⟨hv, ?_⟩
      intro hfull
      have hpop : popcount (s.req .wr).valid = 32 := (h.side .wr).cnt.symm.trans hfull
      exact hwr ⟨0, getLsbD_of_popcount hpop (by decide)⟩

/-- A clock without reset, request and back pressure. -/
def Quiet (i : RndIn) : Prop :=
  i.reset = false ∧ i.req = none ∧ i.rdRspFull = false ∧ i.wrRspFull = false

/-- Every accepted request has made its transfers, in order and once. -/
def AllDone (s : RndMem) : Prop := ∀ q ∈ s.hist.accepted, s.hist.qws q.id = List.range q.reqQwCnt

theorem findSlot_none {n : ℕ} {v : BitVec 32} {rr : ℕ} (h : (ReqList.findSlot (n + 1) v rr).2 = false) :
    v.getLsbD rr = true := by
  unfold ReqList.findSlot at h
  by_cases hv : v.getLsbD rr = true
  · exact hv
  · rw [if_neg hv] at h
    cases h

theorem left_chooseIdx (i : RndIn) (s : RndMem) : (s.chooseIdx i).hist.left = s.hist.left := by
  unfold RndMem.chooseIdx
  split
  · rfl
  · rfl

theorem left_insert (cfg : RndCfg) (i : RndIn) (s : RndMem) : (s.insert cfg i).hist.left = s.hist.left := by
  unfold RndMem.insert
  cases s.memReqQue with
  | nil => rfl
  | cons q rest =>
    dsimp only
    split
    · split
      · rfl
      · rfl
    · rfl

/-- Late enough, the front of the FIFO is inserted unless its list has no empty slot. -/
theorem insert_or_valid {q : MemRdWrReqTime} {rest : List MemRdWrReqTime} (hq : s.memReqQue = q :: rest)
    (hnow : q.time + lat cfg q.req.host < i.now) :
    (s.insert cfg i).memReqQue.length < s.memReqQue.length ∨
      ∃ d j, ((s.insert cfg i).req d).valid.getLsbD j = true := by
  unfold RndMem.insert
  rw [hq]
  dsimp only
  rw [if_pos hnow]
  split
  · left
    simp
  · rename_i hfound
    right
    refine ⟨q.req.type.dir, (s.req q.req.type.dir).rr, ?_⟩
    dsimp only
    rw [Function.update_self]
    have hnone : (ReqList.findSlot (31 + 1) (s.req q.req.type.dir).valid (s.req q.req.type.dir).rr).2 = false :=
      Bool.eq_false_iff.2 hfound
    exact findSlot_none hnone

/-- A request that is not done is in the FIFO or in a slot. -/
theorem exists_valid (h : RndInv s) (hq : s.memReqQue = []) (hnot : ¬ AllDone s) :
    ∃ d j, (s.req d).valid.getLsbD j = true := by
  by_contra hnone
  apply hnot
  intro q hacc
  have hat := h.at_loc q hacc
  cases hl : s.hist.loc q.id with
  | que =>
    rw [hl] at hat
    have hmem := hat.1
    rw [hq] at hmem
    cases hmem
  | slot d j =>
    rw [hl] at hat
    exact absurd ⟨d, j, hat.1⟩ hnone
  | done =>
    rw [hl] at hat
    exact hat

/-- The part of a clock behind the FIFO never adds work. -/
theorem work_serve_le (cfg : RndCfg) (i : RndIn) (h : RndInv s) :
    work (((s.chooseIdx i).serveRd cfg i).serveWr cfg i) ≤ work s := by
  have hch : RndInv (s.chooseIdx i) := h.chooseIdx
  have hserved : RndInv ((s.chooseIdx i).serveRd cfg i) := hch.serveRd
  have hrd := left_serveRd_le cfg i hch
  have hwr := left_serveWr_le cfg i hserved
  have hlen := (behind_serve cfg i s).que.length_le
  rw [left_chooseIdx] at hrd
  unfold work
  omega

theorem work_serve_lt (cfg : RndCfg) (h : RndInv s) (hrd : i.rdRspFull = false) (hwr : i.wrRspFull = false)
    (hready : Ready s (s.chooseIdx i).prevReqIdx) :
    work (((s.chooseIdx i).serveRd cfg i).serveWr cfg i) < work s := by
  have hch : RndInv (s.chooseIdx i) := h.chooseIdx
  have hready' : Ready (s.chooseIdx i) (s.chooseIdx i).prevReqIdx := by
    unfold Ready at hready ⊢
    rwa [req_chooseIdx]
  have hlt := left_serve_lt cfg hch hrd hwr hready'
  have hlen := (behind_serve cfg i s).que.length_le
  rw [left_chooseIdx] at hlt
  unfold work
  omega

/-- The insertion looks at the time only. -/
theorem insert_congr (cfg : RndCfg) (s : RndMem) {i i' : RndIn} (hnow : i.now = i'.now) : s.insert cfg i = s.insert cfg i' := by
  unfold RndMem.insert
  rw [hnow]

/-- **A clock gets ahead** at some time and with some random index, unless all is done. -/
theorem exists_ahead (cfg : RndCfg) (h : RndInv s) (hnot : ¬ AllDone s) :
    ∃ now rnd, ∀ i : RndIn, i.now = now → i.rnd = rnd → i.rdRspFull = false → i.wrRspFull = false →
      work ((((s.insert cfg i).chooseIdx i).serveRd cfg i).serveWr cfg i) < work s := by
  -- A time at which the front of the FIFO may leave it.
  obtain ⟨now, hnow⟩ : ∃ now : ℚ, ∀ q rest, s.memReqQue = q :: rest → q.time + lat cfg q.req.host < now := by
    cases hq : s.memReqQue with
    | nil => exact ⟨0, fun q rest he => by cases he⟩
    | cons q rest =>
      refine ⟨q.time + lat cfg q.req.host + 1, fun q' rest' he => ?_⟩
      cases he
      exact lt_add_one _
  let i₀ : RndIn := ⟨now, false, none, false, false, 0, fun _ => (true, true)⟩
  have h₀ : RndInv (s.insert cfg i₀) := h.insert
  have hleft : (s.insert cfg i₀).hist.left = s.hist.left := left_insert cfg i₀ s
  have hlen := (behind_insert cfg i₀ s).que.length_le
  have hcases : (s.insert cfg i₀).memReqQue.length < s.memReqQue.length ∨
      ∃ d j, ((s.insert cfg i₀).req d).valid.getLsbD j = true := by
    cases hq : s.memReqQue with
    | nil =>
      have hsame : s.insert cfg i₀ = s := by
        unfold RndMem.insert
        rw [hq]
      rw [hsame]
      exact .inr (exists_valid h hq hnot)
    | cons q rest =>
      rw [← hq]
      exact insert_or_valid hq (hnow q rest hq)
  rcases hcases with hshort | ⟨d, j, hv⟩
  · refine ⟨now, 0, fun i hi _ _ _ => ?_⟩
    have hsame : s.insert cfg i = s.insert cfg i₀ := insert_congr cfg s hi
    rw [hsame]
    have hle := work_serve_le cfg i h₀
    refine Nat.lt_of_le_of_lt hle ?_
    unfold work
    omega
  · obtain ⟨rnd, hrnd⟩ := exists_ready h₀ hv
    refine ⟨now, rnd, fun i hi hr hrd hwr => ?_⟩
    have hsame : s.insert cfg i = s.insert cfg i₀ := insert_congr cfg s hi
    rw [hsame]
    have hlt := work_serve_lt cfg h₀ hrd hwr (hrnd i hr)
    refine Nat.lt_of_lt_of_le hlt ?_
    unfold work
    omega

theorem exists_quiet (cfg : RndCfg) (h : RndInv s) (hnot : ¬ AllDone s) :
    ∃ i s', Quiet i ∧ s.clk cfg i = .ok s' ∧
      (RndInv s' ∧ s'.hist.accepted = s.hist.accepted) ∧ work s' < work s := by
  have ht : RndInv { s with rsp := ⟨none, none⟩ } := { h with }
  obtain ⟨now, rnd, hahead⟩ := exists_ahead cfg ht hnot
  let i : RndIn := ⟨now, false, none, false, false, rnd, fun _ => (true, true)⟩
  obtain ⟨s', hs'⟩ : ∃ s', s' = serveWr cfg i (serveRd cfg i (chooseIdx i
    (RndMem.insert cfg i { s with rsp := ⟨none, none⟩ }))) := ⟨_, rfl⟩
  have he : s.clk cfg i = .ok s' := congrArg Except.ok hs'.symm
  have hb := (behind_insert cfg i { s with rsp := ⟨none, none⟩ }).trans (behind_serve cfg i _)
  have hacc : s'.hist.accepted = s.hist.accepted := by
    rw [hs']
    exact hb.accepted
  have hlt : work s' < work s := by
    rw [hs']
    exact hahead i rfl rfl rfl rfl
  exact ⟨i, s', ⟨rfl, rfl, rfl, rfl⟩, he, ⟨h.clk rfl he, hacc⟩, hlt⟩

end RndMem

/-! ## Runs -/

/-- The clocks of a model. -/
def RndMem.step (cfg : RndCfg) (s : RndMem) (i : RndIn) : Except MemStop RndMem := s.clk cfg i

/-- The states of runs from a reset clock on, without another reset. -/
def AfterReset (cfg : RndCfg) (s : RndMem) : Prop :=
  ∃ bRd bWr prev list mem s₁ i₀ s₂,
    Reach (RndMem.step cfg) (fun _ _ => True) (RndMem.construct bRd bWr prev list mem) s₁ ∧
    i₀.reset = true ∧ s₁.clk cfg i₀ = .ok s₂ ∧
    Reach (RndMem.step cfg) (fun _ i => i.reset = false) s₂.fresh s

variable {cfg : RndCfg} {s : RndMem}

theorem RndInv.of_afterReset (h : AfterReset cfg s) : RndInv s := by
  obtain ⟨bRd, bWr, prev, list, mem, s₁, i₀, s₂, hpre, hreset, hclk, hr⟩ := h
  have hque : s₁.QueOk := hpre.invariant (.construct bRd bWr prev list mem)
    (fun s s' i _ hs _ he => RndMem.QueOk.clk hs he) s₁
  exact hr.invariant (hque.reset hreset hclk) (fun s s' i _ hs hi he => RndInv.clk hs hi he) s

/-- **Quiet clocks finish everything**, with the right random indices. -/
theorem RndInv.drain (h : RndInv s) :
    ∃ s', Reach (RndMem.step cfg) (fun _ i => RndMem.Quiet i) s s' ∧
      s'.hist.accepted = s.hist.accepted ∧ s'.AllDone := by
  have hprogress (t : RndMem) (ht : RndInv t ∧ t.hist.accepted = s.hist.accepted) (hnot : ¬ t.AllDone) :
      ∃ i t', RndMem.Quiet i ∧ RndMem.step cfg t i = .ok t' ∧
        (RndInv t' ∧ t'.hist.accepted = s.hist.accepted) ∧ t'.work < t.work := by
    obtain ⟨i, t', hq, he, ⟨hinv, hacc⟩, hlt⟩ := RndMem.exists_quiet cfg ht.1 hnot
    exact ⟨i, t', hq, he, ⟨hinv, hacc.trans ht.2⟩, hlt⟩
  obtain ⟨s', hr, hI, hdone⟩ := Reach.drain (fun t => RndInv t ∧ t.hist.accepted = s.hist.accepted)
    RndMem.AllDone RndMem.work hprogress s ⟨h, rfl⟩
  exact ⟨s', hr, hI.2, hdone⟩

end OpenHT.Sysc
