import OpenHT.Sysc.MemOrder
import OpenHT.Sysc.SerialMem

/-!
# The random order model is a serial memory

Every request waits in a queue of its own. The slots and the random indices only decide which request is next.

* `waiting`: the request with an id, until it is served.
* `RndServes`: a state of the model and one of `SerialMem`.
* `insert_serves`, `transfer_serves`: the parts of a clock.
* `rnd_mem_serial`: every run from a reset is one of `SerialMem`.
-/

namespace OpenHT.Sysc

open Refine Lts

/-- The queues of the random order model: one for each request. -/
def rndDiscipline : Discipline Unit ℕ where
  place _ q := q.id
  port _ := ()
  bit63Qw _ := 0

/-- The serial memory that holds the requests that wait at a reset. -/
def SerialMem.holding (l : List MemRdWrReqTime) (mem : Mem ℕ) : SerialMem ℕ where
  accepted := l.map fun q => (q.id, q)
  que id := l.filter fun q => q.id = id
  part _ := 0
  log := []
  mem := mem

namespace RndMem

/-- The request with an id, until its last quadword is transferred. -/
def waiting (s : RndMem) (id : ℕ) : List MemRdWrReqTime :=
  s.hist.accepted.filter fun q => q.id = id ∧ (s.hist.qws id).length < q.reqQwCnt

def newEvents (s s' : RndMem) : List (MemEvent Unit) :=
  (s'.hist.accepted.drop s.hist.accepted.length).map (.accept ())

/-- A clock without reset, and what is seen of it. -/
def Next (cfg : RndCfg) (s : RndMem) (es : List (MemEvent Unit)) (s' : RndMem) : Prop :=
  ∃ i, i.reset = false ∧ s.clk cfg i = .ok s' ∧ es = newEvents s s' ++ s'.rsp.events ()

end RndMem

/-- A state of the random order model and one of the serial memory that started with memory `mem`. -/
structure RndServes (cfg : RndCfg) (mem : Mem ℕ) (s : RndMem) (t : SerialMem ℕ) : Prop where
  inv : RndInv s
  ok : t.Ok cfg.toMemCfg rndDiscipline.bit63Qw mem
  accepted : t.accepted = s.hist.accepted.map fun q => (q.id, q)
  que : ∀ id, t.que id = s.waiting id
  xfers : t.xfers = s.hist.xfers
  mem : t.mem = s.mem
  sorted : s.Sorted

/-- There is one request with an id. -/
theorem filter_eq_singleton {l : List MemRdWrReqTime} (hnodup : (l.map MemRdWrReqTime.id).Nodup) {q : MemRdWrReqTime}
    (hq : q ∈ l) : l.filter (fun x => x.id = q.id) = [q] := by
  induction l with
  | nil => cases hq
  | cons a l ih =>
    rw [List.map_cons, List.nodup_cons] at hnodup
    rcases List.mem_cons.1 hq with rfl | hq
    · have hnone : l.filter (fun x => x.id = q.id) = [] := by
        rw [List.filter_eq_nil_iff]
        intro x hx hid
        exact hnodup.1 (of_decide_eq_true hid ▸ List.mem_map_of_mem hx)
      rw [List.filter_cons, hnone]
      simp
    · have hne : a.id ≠ q.id := fun heq => hnodup.1 (heq ▸ List.mem_map_of_mem hq)
      rw [List.filter_cons]
      simp only [hne, decide_false, Bool.false_eq_true, if_false]
      exact ih hnodup.2 hq

section Steps

variable {cfg : RndCfg} {mem : Mem ℕ} {i : RndIn} {s s' : RndMem} {t : SerialMem ℕ}

theorem waiting_of_mem (h : RndInv s) {q : MemRdWrReqTime} (hq : q ∈ s.hist.accepted) :
    s.waiting q.id = if (s.hist.qws q.id).length < q.reqQwCnt then [q] else [] := by
  have hfilter : s.waiting q.id =
      (s.hist.accepted.filter fun x => x.id = q.id).filter fun x => (s.hist.qws q.id).length < x.reqQwCnt := by
    unfold RndMem.waiting
    rw [List.filter_filter]
    apply List.filter_congr
    intro x _
    rw [Bool.and_comm]
    exact Bool.decide_and _ _
  rw [hfilter, filter_eq_singleton h.hist.nodup hq]
  by_cases hlt : (s.hist.qws q.id).length < q.reqQwCnt
  · simp [hlt]
  · simp [hlt]

/-- A part of a clock that leaves memory and history alone, but for the places of requests. -/
theorem RndServes.silent (h : RndServes cfg mem s t) (hinv : RndInv s') (hacc : s'.hist.accepted = s.hist.accepted)
    (hxfers : s'.hist.xfers = s.hist.xfers) (hmem : s'.mem = s.mem) (hsorted : s'.Sorted) : RndServes cfg mem s' t where
  inv := hinv
  ok := h.ok
  accepted := h.accepted.trans (congrArg _ hacc.symm)
  que id := by
    rw [h.que id]
    unfold RndMem.waiting MemHist.qws
    rw [hacc, hxfers]
  xfers := h.xfers.trans hxfers.symm
  mem := h.mem.trans hmem.symm
  sorted := hsorted

theorem rnd_takeIn_serves (h : RndServes cfg mem s t) (he : s.takeIn cfg i = .ok s') :
    ∃ t', Runs (SerialMem.Next cfg.toMemCfg rndDiscipline) t (RndMem.newEvents s s') t' ∧ RndServes cfg mem s' t' ∧
      s'.rsp = s.rsp := by
  have hinv := h.inv.takeIn he
  unfold RndMem.takeIn at he
  cases hr : i.req with
  | none =>
    rw [hr] at he
    cases he
    refine ⟨t, ?_, h, rfl⟩
    unfold RndMem.newEvents
    rw [List.drop_length]
    exact .init
  | some r =>
    rw [hr] at he
    simp only [bind_ok] at he
    obtain ⟨⟨q, w⟩, htake, he⟩ := he
    obtain ⟨hid, -, h1, -, -⟩ := takeReq_ok h.inv.asm htake
    have hnew := h.inv.takenId_new
    rw [← hid] at hnew
    by_cases hc : q.complete w = true
    · rw [if_pos hc] at he
      cases he
      have hfresh : ∀ x ∈ t.accepted, x.2.id ≠ q.id := by
        intro x hx
        rw [h.accepted] at hx
        obtain ⟨q', hq', rfl⟩ := List.mem_map.1 hx
        exact hnew q' hq'
      have hstep : SerialMem.Next cfg.toMemCfg rndDiscipline t [.accept () q] (t.push q.id q) := .accept t () q hfresh h1
      have hevents (s' : RndMem) (hs : s'.hist.accepted = s.hist.accepted ++ [q]) :
          RndMem.newEvents s s' = [.accept () q] := by
        unfold RndMem.newEvents
        rw [hs, List.drop_left]
        rfl
      refine ⟨t.push q.id q, ?_, ?_, rfl⟩
      · rw [hevents _ rfl]
        exact .single hstep
      · refine ⟨hinv, h.ok.next hstep, ?_, ?_, h.xfers, h.mem, h.sorted⟩
        · change t.accepted ++ [(q.id, q)] = (s.hist.accepted ++ [q]).map _
          rw [h.accepted, List.map_append]
          rfl
        · intro id
          have hwait : RndMem.waiting { s with
              memReqQue := s.memReqQue ++ [q], pReqTime := none, wrDataIdx := 0
              hist := (s.hist.take s.pReqTime).accept q .que } id = s.waiting id ++ if q.id = id then [q] else [] := by
            change (s.hist.accepted ++ [q]).filter _ = _
            rw [List.filter_append]
            congr 1
            by_cases hq : q.id = id
            · have hqws : s.hist.qws id = [] := by
                rw [← hq]
                exact h.inv.hist.unseen _ hnew
              simp [hq, hqws, Nat.lt_of_lt_of_le Nat.zero_lt_one h1]
            · simp [hq]
          rw [hwait]
          by_cases hq : q.id = id
          · subst hq
            rw [if_pos rfl, ← h.que q.id]
            exact Function.update_self _ _ _
          · rw [if_neg hq, List.append_nil, ← h.que id]
            exact Function.update_of_ne (Ne.symm hq) _ _
    · rw [if_neg hc] at he
      cases he
      refine ⟨t, ?_, h.silent hinv rfl rfl rfl h.sorted, rfl⟩
      unfold RndMem.newEvents
      change Runs _ t ((s.hist.accepted.drop s.hist.accepted.length).map _) t
      rw [List.drop_length]
      exact .init

/-- A request moves to a slot. -/
theorem insert_serves (h : RndServes cfg mem s t) : RndServes cfg mem (s.insert cfg i) t := by
  have hinv : RndInv (s.insert cfg i) := h.inv.insert
  have hsorted : (s.insert cfg i).Sorted := h.sorted.insert h.inv
  unfold RndMem.insert at hinv hsorted ⊢
  cases hque : s.memReqQue with
  | nil => exact h
  | cons q rest =>
    rw [hque] at hinv hsorted
    dsimp only at hinv hsorted ⊢
    split
    next hlat =>
      rw [if_pos hlat] at hinv hsorted
      split
      next hfound =>
        rw [if_pos hfound] at hinv hsorted
        exact h.silent hinv rfl rfl rfl hsorted
      next hfull =>
        rw [if_neg hfull] at hinv hsorted
        exact h.silent hinv rfl rfl rfl hsorted
    next => exact h

theorem chooseIdx_serves (h : RndServes cfg mem s t) : RndServes cfg mem (s.chooseIdx i) t := by
  have hinv := h.inv.chooseIdx (i := i)
  unfold RndMem.chooseIdx at hinv ⊢
  split
  next => exact h
  next hfree =>
    rw [if_neg hfree] at hinv
    exact h.silent hinv rfl rfl rfl h.sorted

/-- A quadword of the slot at the index is transferred. -/
theorem rnd_transfer_serves (h : RndServes cfg mem s t) {d : MemDir} {q : MemRdWrReqTime}
    (hv : (s.req d).valid.getLsbD s.prevReqIdx = true) (hq : (s.req d).list s.prevReqIdx = q) (rsp : MemRsp) :
    ∃ t', SerialMem.Next cfg.toMemCfg rndDiscipline t (q.events cfg.toMemCfg () s.mem (s.req d).qwIdx) t' ∧
      RndServes cfg mem (s.transfer d (q.apply cfg.toMemCfg (fun _ => 0) s.mem (s.req d).qwIdx) rsp) t' := by
  obtain ⟨hacc, hloc⟩ := h.inv.slot d _ hv
  have hat := h.inv.at_loc _ hacc
  rw [hloc] at hat
  have hinv := h.inv.transfer d hv (q.apply cfg.toMemCfg (fun _ => 0) s.mem (s.req d).qwIdx) rsp
  rw [hq] at hacc
  have hqws : s.hist.qws q.id = List.range (s.req d).qwIdx := by
    have hp : (s.req d).progress s.prevReqIdx s.prevReqIdx = (s.req d).qwIdx := if_pos rfl
    rw [← hq]
    exact hat.2.2.trans (congrArg List.range hp)
  have hlt : (s.req d).qwIdx < q.reqQwCnt := by
    by_cases hb : (s.req d).bHold = true
    · exact hq ▸ ((h.inv.side d).held hb).2
    · rw [(h.inv.side d).qwIdx_eq (by simpa using hb)]
      exact (h.inv.hist.cnt q hacc).1
  have hque : t.que q.id = [q] := by
    rw [h.que, waiting_of_mem h.inv hacc, hqws, List.length_range, if_pos hlt]
  have hpart : t.part q.id = (s.req d).qwIdx := by
    have hparts := h.ok.parts_front hque
    rw [h.xfers] at hparts
    simpa using congrArg List.length (hparts.symm.trans hqws)
  have hstep : SerialMem.Next cfg.toMemCfg rndDiscipline t _ _ := .serve t q.id q [] hque
  obtain ⟨hacc', hmem, -⟩ := SerialMem.serve_rest cfg.toMemCfg rndDiscipline.bit63Qw t q.id q []
  have hxfers := SerialMem.xfers_serve cfg.toMemCfg rndDiscipline.bit63Qw t q.id q []
  rw [hpart] at hmem hxfers
  have hok := h.ok.next hstep
  rw [hpart, h.mem] at hstep
  refine ⟨_, hstep, hinv, hok, ?_, ?_, ?_, ?_, h.sorted.transfer d h.inv.prev _ _⟩
  · rw [hacc', h.accepted]
    unfold RndMem.transfer
    dsimp only
    split
    · rfl
    · rfl
  · intro id
    have hsame : (s.transfer d (q.apply cfg.toMemCfg (fun _ => 0) s.mem (s.req d).qwIdx) rsp).hist.accepted =
        s.hist.accepted ∧ (s.transfer d (q.apply cfg.toMemCfg (fun _ => 0) s.mem (s.req d).qwIdx) rsp).hist.qws id =
        (s.hist.xfer q.id (s.req d).qwIdx).qws id := by
      unfold RndMem.transfer
      dsimp only
      rw [hq]
      split
      · exact ⟨rfl, rfl⟩
      · exact ⟨rfl, rfl⟩
    by_cases hid : id = q.id
    · subst hid
      rw [waiting_of_mem hinv (hsame.1.symm ▸ hacc), hsame.2, s.hist.qws_xfer hqws, List.length_range]
      unfold SerialMem.serve
      dsimp only
      rw [hpart]
      by_cases hlast : (s.req d).qwIdx + 1 = q.reqQwCnt
      · rw [if_pos hlast, if_neg (by omega)]
        exact Function.update_self _ _ _
      · rw [if_neg hlast, if_pos (by omega)]
        exact hque
    · have hwait : (s.transfer d (q.apply cfg.toMemCfg (fun _ => 0) s.mem (s.req d).qwIdx) rsp).waiting id =
          s.waiting id := by
        unfold RndMem.waiting
        rw [hsame.1, hsame.2, s.hist.qws_xfer_of_ne (Ne.symm hid)]
      rw [hwait, ← h.que id]
      unfold SerialMem.serve
      dsimp only
      split
      · exact Function.update_of_ne hid _ _
      · rfl
  · rw [hxfers, h.xfers]
    unfold RndMem.transfer
    dsimp only
    rw [hq]
    split
    · rfl
    · rfl
  · rw [hmem, h.mem]
    rfl

/-- The read of a clock. -/
theorem serveRd_serves (h : RndServes cfg mem s t) (hrsp : s.rsp = ⟨none, none⟩) :
    ∃ t', Runs (SerialMem.Next cfg.toMemCfg rndDiscipline) t ((s.serveRd cfg i).rsp.events ()) t' ∧
      RndServes cfg mem (s.serveRd cfg i) t' ∧ (s.serveRd cfg i).rsp.wrRspTid = none := by
  unfold RndMem.serveRd
  dsimp only
  split
  next hc =>
    simp only [Bool.and_eq_true] at hc
    obtain ⟨q, hq⟩ : ∃ q, (s.req .rd).list s.prevReqIdx = q := ⟨_, rfl⟩
    have hdir := h.sorted .rd s.prevReqIdx hc.2
    rw [hq] at hdir ⊢
    obtain ⟨t', hn, hs⟩ := rnd_transfer_serves h hc.2 hq
      { s.rsp with rdRsp := some (q.req.rspTid (s.req .rd).qwIdx, readQw cfg.toMemCfg s.mem q.req (s.req .rd).qwIdx) }
    unfold MemRdWrReqTime.events at hn
    rw [hdir] at hn
    rw [MemRdWrReqTime.apply_rd hdir] at hs
    refine ⟨t', ?_, hs, ?_⟩
    · change Runs _ t (MemRsp.events (P := Unit) { s.rsp with rdRsp := some _ } ()) t'
      rw [hrsp]
      exact .single hn
    · change s.rsp.wrRspTid = none
      rw [hrsp]
  next =>
    rw [hrsp]
    exact ⟨t, .init, h, rfl⟩

/-- The write of a clock. -/
theorem serveWr_serves (h : RndServes cfg mem s t) (hrsp : s.rsp.wrRspTid = none) :
    ∃ es t', Runs (SerialMem.Next cfg.toMemCfg rndDiscipline) t es t' ∧
      (s.serveWr cfg i).rsp.events () = s.rsp.events () ++ es ∧ RndServes cfg mem (s.serveWr cfg i) t' := by
  unfold RndMem.serveWr
  dsimp only
  split
  next hc =>
    simp only [Bool.and_eq_true] at hc
    obtain ⟨q, hq⟩ : ∃ q, (s.req .wr).list s.prevReqIdx = q := ⟨_, rfl⟩
    have hdir := h.sorted .wr s.prevReqIdx hc.2
    rw [hq] at hdir ⊢
    obtain ⟨t', hn, hs⟩ := rnd_transfer_serves h hc.2 hq
      (if (s.req .wr).qwIdx = 0 then { s.rsp with wrRspTid := some (q.req.rspTid (s.req .wr).qwIdx) } else s.rsp)
    unfold MemRdWrReqTime.events at hn
    rw [hdir] at hn
    rw [MemRdWrReqTime.apply_wr hdir] at hs
    refine ⟨_, t', .single hn, ?_, hs⟩
    change MemRsp.events (P := Unit) (if (s.req .wr).qwIdx = 0 then _ else s.rsp) () = _
    unfold MemRsp.events
    split
    · simp [hrsp]
    · simp
  next => exact ⟨[], t, .init, (List.append_nil _).symm, h⟩

/-- **A clock** is one or no step of the interface, one or no read and one or no write. -/
theorem clk_forward (cfg : RndCfg) (mem : Mem ℕ) :
    Forward (RndMem.Next cfg) (SerialMem.Next cfg.toMemCfg rndDiscipline) (RndServes cfg mem) := by
  rintro s t _ s' h ⟨i, hreset, he, rfl⟩
  unfold RndMem.clk at he
  simp only [bind_ok] at he
  obtain ⟨s₁, htake, he⟩ := he
  rw [hreset] at he
  cases he
  have h₀ : RndServes cfg mem { s with rsp := ⟨none, none⟩ } t :=
    h.silent { h.inv with } rfl rfl rfl h.sorted
  obtain ⟨t₁, hr₁, h₁, hrsp₁⟩ := rnd_takeIn_serves h₀ htake
  have h₂ := chooseIdx_serves (i := i) (insert_serves (i := i) h₁)
  have hrsp₂ : ((s₁.insert cfg i).chooseIdx i).rsp = ⟨none, none⟩ := by
    have hinsert : (s₁.insert cfg i).rsp = s₁.rsp := by
      unfold RndMem.insert
      cases s₁.memReqQue with
      | nil => rfl
      | cons q rest =>
        dsimp only
        split
        · split
          · rfl
          · rfl
        · rfl
    have hchoose : ((s₁.insert cfg i).chooseIdx i).rsp = (s₁.insert cfg i).rsp := by
      unfold RndMem.chooseIdx
      split
      · rfl
      · rfl
    rw [hchoose, hinsert, hrsp₁]
  obtain ⟨t₂, hr₂, h₃, hrsp₃⟩ := serveRd_serves (i := i) h₂ hrsp₂
  obtain ⟨es, t₃, hr₃, hevents, h₄⟩ := serveWr_serves (i := i) h₃ hrsp₃
  have hacc := ((RndMem.behind_insert cfg i s₁).trans (RndMem.behind_serve cfg i _)).accepted
  refine ⟨t₃, ?_, h₄⟩
  have hnew : RndMem.newEvents s ((((s₁.insert cfg i).chooseIdx i).serveRd cfg i).serveWr cfg i) =
      RndMem.newEvents { s with rsp := ⟨none, none⟩ } s₁ := by
    unfold RndMem.newEvents
    rw [hacc]
  have hall := (hr₁.trans hr₂).trans hr₃
  rw [List.append_assoc, ← hevents, ← hnew] at hall
  exact hall

end Steps

/-! ## Runs -/

/-- The states after a clock with reset. -/
def FromReset (cfg : RndCfg) (s : RndMem) : Prop :=
  ∃ bRd bWr prev list mem s₁ i₀,
    Reach (RndMem.step cfg) (fun _ _ => True) (RndMem.construct bRd bWr prev list mem) s₁ ∧
      i₀.reset = true ∧ s₁.clk cfg i₀ = .ok s

section Runs

variable {cfg : RndCfg} {s₀ s : RndMem} {es : List (MemEvent Unit)}

/-- The requests in the FIFO wait in queues of their own. -/
theorem holding_ok {l : List MemRdWrReqTime} (hnodup : (l.map MemRdWrReqTime.id).Nodup)
    (hcnt : ∀ q ∈ l, 1 ≤ q.reqQwCnt) (cfg : MemCfg) (bit63Qw : ℕ → ℕ) (mem : Mem ℕ) :
    (SerialMem.holding l mem).Ok cfg bit63Qw mem := by
  refine ⟨?_, ?_, ?_, rfl⟩
  · change ((l.map fun q => (q.id, q)).map fun x => x.2.id).Nodup
    rw [List.map_map]
    exact hnodup
  · intro x hx
    obtain ⟨q, hq, rfl⟩ := List.mem_map.1 hx
    exact hcnt q hq
  · intro id
    refine ⟨[], ?_, ?_, ?_, fun _ => rfl⟩
    · change ((l.map fun q => (q.id, q)).filter fun x => x.1 = id).map Prod.snd = l.filter fun q => q.id = id
      rw [List.filter_map, List.map_map]
      exact List.map_id _
    · change ([] : List (MemRdWrReqTime × ℕ)) = (l.filter fun q => q.id = id).head?.toList.flatMap fun q => q.firstQws 0
      simp [MemRdWrReqTime.firstQws]
    · intro q hq
      exact hcnt q (List.mem_of_mem_filter (List.mem_of_head? hq))

theorem RndServes.start (h : FromReset cfg s₀) :
    RndServes cfg s₀.mem s₀.fresh (SerialMem.holding s₀.memReqQue s₀.mem) := by
  have hafter : AfterReset cfg s₀.fresh := by
    obtain ⟨bRd, bWr, prev, list, mem, s₁, i₀, hpre, hreset, hclk⟩ := h
    exact ⟨bRd, bWr, prev, list, mem, s₁, i₀, s₀, hpre, hreset, hclk, .init⟩
  have hinv := RndInv.of_afterReset hafter
  have hcnt : ∀ q ∈ s₀.memReqQue, 1 ≤ q.reqQwCnt := fun q hq => (hinv.hist.cnt q hq).1
  refine ⟨hinv, holding_ok hinv.hist.nodup hcnt _ _ _, rfl, ?_, rfl, rfl, .of_afterReset hafter⟩
  intro id
  change s₀.memReqQue.filter _ = s₀.memReqQue.filter _
  apply List.filter_congr
  intro q hq
  have hlt : (s₀.fresh.hist.qws id).length < q.reqQwCnt := hcnt q hq
  simp [hlt]

/-- **The random order model is a serial memory.** Whatever is seen in a run from a reset on can be seen of a memory
that transfers one quadword at a time, with a queue for each request, and that memory has the same contents. -/
theorem rnd_mem_serial (h : FromReset cfg s₀) (hr : Runs (RndMem.Next cfg) s₀.fresh es s) :
    ∃ t, Runs (SerialMem.Next cfg.toMemCfg rndDiscipline) (.holding s₀.memReqQue s₀.mem) es t ∧ t.mem = s.mem := by
  obtain ⟨t, ht, hs⟩ := (clk_forward cfg s₀.mem).runs (.start h) hr
  exact ⟨t, ht, hs.mem⟩

/-- A read that is taken in the first clock after a reset. -/
theorem rnd_mem_serial_read : ∃ (cfg : RndCfg) (s₀ s : RndMem) (es : List (MemEvent Unit)) (t : SerialMem ℕ), es ≠ [] ∧
    Runs (SerialMem.Next cfg.toMemCfg rndDiscipline) (.holding s₀.memReqQue s₀.mem) es t ∧ t.mem = s.mem := by
  let cfg : RndCfg := ⟨⟨false, false, false, 0⟩, fun _ => 100⟩
  let s₁ : RndMem := .construct false false 0 (fun _ _ => ⟨0, read64, 0, false, 0, fun _ => 0⟩) (fun _ => 0)
  have h₂ : s₁.clk cfg ⟨0, true, none, false, false, 0, fun _ => (true, true)⟩ = .ok s₁.reset := rfl
  let i : RndIn := ⟨0, false, some read64, false, false, 0, fun _ => (true, true)⟩
  obtain ⟨s, hs, hacc⟩ : ∃ s, s₁.reset.fresh.clk cfg i = .ok s ∧ s.hist.accepted.length = 1 := by
    refine ⟨_, rfl, ?_⟩
    have hb := fun i s => (RndMem.behind_insert cfg i s).trans (RndMem.behind_serve cfg i _)
    exact (congrArg List.length (hb _ _).accepted).trans rfl
  have hfrom : FromReset cfg s₁.reset := ⟨false, false, 0, _, _, s₁, _, .init, rfl, h₂⟩
  have hnext : RndMem.Next cfg s₁.reset.fresh (RndMem.newEvents s₁.reset.fresh s ++ s.rsp.events ()) s :=
    ⟨i, rfl, hs, rfl⟩
  obtain ⟨t, ht, hmem⟩ := rnd_mem_serial hfrom (.single hnext)
  refine ⟨cfg, s₁.reset, s, _, t, ?_, ht, hmem⟩
  intro hnil
  have hnone := (List.append_eq_nil_iff.1 hnil).1
  unfold RndMem.newEvents at hnone
  have hlen : s.hist.accepted = [] := List.map_eq_nil_iff.1 hnone
  rw [hlen] at hacc
  cases hacc

end Runs

end OpenHT.Sysc
