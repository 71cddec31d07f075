import OpenHT.Host.Runs

/-!
# Control traffic never fills a ring

A ring carries the announcements of one direction, the returned blocks of the other and
the constructor's messages. The credits bound the first two, so that without user
messages at most 134 of the 512 slots are in use.

* `live_le`: the bound in every run without user messages.
* `exec_slot`: with room in both rings no action waits in `SendMsgInternal`.
* `slot_always_free`: no action of such a run ever waits there.
-/

namespace OpenHT.Host

open Host.Core Lts

variable {cfg : Cfg} {p : Party} {a : Act} {c c' : Core} {t : Thread} {s : Sys}

/-! ### Where a send can wait -/

/-- The computation does not stop at an occupied slot. -/
def NoSlot {α : Type} (x : Except Stop α) : Prop := x ≠ .error .slot

@[simp] theorem noSlot_ok {α : Type} (x : α) : NoSlot (.ok x) := by simp [NoSlot]

@[simp] theorem noSlot_error {α : Type} {e : Stop} : NoSlot (.error e : Except Stop α) ↔ e ≠ .slot := by
  simp [NoSlot]

theorem NoSlot.bind {α β : Type} {x : Except Stop α} {f : α → Except Stop β} (hx : NoSlot x)
    (hf : ∀ y, x = .ok y → NoSlot (f y)) : NoSlot (x >>= f) := by
  cases x with
  | ok y => exact hf y rfl
  | error e => intro h; exact hx (by cases h; rfl)

/-- Room for one more message in the ring written by `p`. -/
structure Room (p : Party) (c : Core) : Prop where
  rings : c.RingsOk
  live : (c.lane p).live.length < modelHifCtlQueCnt

theorem Room.of_lane (h : Room p c) (hw : c'.RingsOk) (hl : (c'.lane p).live = (c.lane p).live) :
    Room p c' := ⟨hw, by rw [hl]; exact h.live⟩

section Steps

variable (h9 : cfg.params.ctlQueW = 9) (hr : Room p c)
include h9 hr

theorem sendMsgInternal_noSlot (m : CtrlMsg) : NoSlot (sendMsgInternal cfg p m c) :=
  sendMsgInternal_slot (ctlQueCnt_eq h9 _) hr.rings hr.live m

omit h9 hr in
theorem nextTxBlk_noSlot : NoSlot (nextTxBlk p c) := by
  unfold nextTxBlk
  simp only
  split
  · simp
  · split <;> simp

theorem flushTxBlk_noSlot (ctl : ℕ) : NoSlot (flushTxBlk cfg p ctl c) := by
  unfold flushTxBlk
  simp only
  split
  · simp
  refine nextTxBlk_noSlot.bind fun c1 h1 => ?_
  obtain ⟨-, b, -, hw1, hl1, -⟩ := nextTxBlk_lane hr.rings h1
  exact sendMsgInternal_noSlot h9 (hr.of_lane hw1 (by rw [hl1]; rfl)) _

theorem finishBlk_noSlot : NoSlot (finishBlk cfg p c) := by
  have hq : NoSlot (nextMsgQue p c) := by unfold nextMsgQue; simp only; split <;> simp
  refine hq.bind fun c1 h1 => ?_
  obtain ⟨m, ms, -, hw1, hl1, -⟩ := nextMsgQue_lane hr.rings h1
  refine (sendMsgInternal_noSlot h9 (hr.of_lane hw1 (by rw [hl1])) _).bind fun c2 _ => ?_
  simp only
  split <;> simp

theorem flushIfFull_noSlot : NoSlot (flushIfFull cfg p c) := by
  unfold flushIfFull
  simp only
  split
  · simp
  split
  · simp
  split
  · exact flushTxBlk_noSlot h9 hr 0
  · simp

theorem sendChunk_noSlot (host : Bool) (rest : List Qw) : NoSlot (sendChunk cfg p host rest c) := by
  unfold sendChunk
  split
  · simp
  have hcopy : NoSlot (copyToBlk p rest c) := by unfold copyToBlk; simp only; split <;> simp
  refine hcopy.bind fun y h1 => ?_
  obtain ⟨chunk, c1⟩ := y
  obtain ⟨b, -, -, hw1, ha1, -⟩ := copyToBlk_lane hr.rings h1
  have hr1 : Room p c1 := hr.of_lane hw1 (by rw [ha1]; rfl)
  cases host
  · exact (flushIfFull_noSlot h9 hr1).bind fun _ _ => by simp
  · have hr2 : Room p (c1.accept p (chunk.map .qw)) :=
      hr1.of_lane (by simpa [Core.RingsOk, accept] using hw1) (by rw [(accept_lane _).1]; rfl)
    exact (flushIfFull_noSlot h9 hr2).bind fun _ _ => by simp

omit h9 hr in
theorem recvd_halt_noSlot (k : RecvK) : NoSlot (recvd cfg p k .halt c t) := by
  obtain ⟨r, -, he⟩ := recvd_halt cfg p k c t
  simp [he]

omit h9 hr in
theorem enterMsgLoop_noSlot (k : RecvK) : NoSlot (enterMsgLoop cfg p k c t) := by
  unfold enterMsgLoop
  split
  · exact recvd_halt_noSlot k
  · simp

theorem sendCtl_noSlot (x : Ctl) (k : Option RecvK) : NoSlot (sendCtl cfg p x k c t) := by
  refine (flushTxBlk_noSlot h9 hr _).bind fun c1 _ => ?_
  cases k with
  | none => exact noSlot_ok _
  | some k => exact recvd_halt_noSlot k

theorem recvHeader_noSlot (argc : ℕ) : NoSlot (recvHeader cfg p argc c t) := by
  unfold recvHeader
  simp only
  split
  · simp
  split
  · simp
  split
  · simp
  rename_i m ms _ _
  have hr1 : Room p (if p = .host then c.setRx p { c.rx p with recvRtnArgc := m.cnt } else c) := by
    split
    · exact hr.of_lane (setRx_rings (by rfl) hr.rings) (by rw [(setRx_lane (by rfl)).1])
    · exact hr
  refine (finishBlk_noSlot h9 hr1).bind fun c1 _ => ?_
  split <;> simp

theorem recvArgv_noSlot (argc n : ℕ) : NoSlot (recvArgv cfg p argc n c t) := by
  unfold recvArgv
  simp only
  split
  · simp
  split
  · split <;> simp
  split
  · simp
  split
  · simp
  exact (finishBlk_noSlot h9 hr).bind fun _ _ => by simp

theorem recvd_noSlot (k : RecvK) (ty : RecvType) : NoSlot (recvd cfg p k ty c t) := by
  unfold recvd
  cases k with
  | poll => simp
  | hostMsg =>
    simp only
    split
    · simp
    split
    · simp
    have hq : NoSlot (nextMsgQue p c) := by unfold nextMsgQue; simp only; split <;> simp
    exact hq.bind fun _ _ => by simp
  | peek =>
    simp only
    split
    · simp
    split <;> simp
  | marker =>
    simp only
    split
    · simp
    exact (finishBlk_noSlot h9 hr).bind fun _ _ => by simp
  | data =>
    simp only
    split <;> simp
  | args argc =>
    simp only
    split
    · simp
    · exact recvHeader_noSlot h9 hr argc

theorem msgLoop_noSlot (k : RecvK) : NoSlot (msgLoop cfg p k c t) := by
  have hturn := turn_spec (p := p) hr.rings
  unfold msgLoop
  generalize turn p c = tn at hturn
  cases tn with
  | idle => exact recvd_noSlot h9 hr k _
  | next => exact noSlot_ok _
  | fail => simp
  | recv ty c1 =>
    simp only
    split
    · simp
    have hr1 : Room p c1 := by
      cases hturn with
      | data _ _ _ hw1 ha1 => exact hr.of_lane hw1 (by rw [ha1])
      | _ => exact hr
    exact recvd_noSlot h9 hr1 k ty
  | halt =>
    refine (finishBlk_noSlot h9 hr).bind fun c1 _ => ?_
    cases p with
    | host => exact recvd_halt_noSlot k
    | model => exact noSlot_ok _

theorem recvBody_noSlot {n r : ℕ} (hpc : t.pc = .recvBody n r) : NoSlot (run cfg p c t) := by
  simp only [run, hpc]
  obtain ⟨hw1, -, ha1, -⟩ := copyFromBlk_lane (p := p) hr.rings (n - r)
  generalize copyFromBlk p (n - r) c = y at *
  obtain ⟨data, c1⟩ := y
  have hr1 : Room p c1 := hr.of_lane hw1 (by rw [ha1])
  simp only
  split
  · exact (finishBlk_noSlot h9 hr1).bind fun _ _ => by simp
  · exact noSlot_ok _

/-- **A thread with room in its ring does not wait for a slot.** -/
theorem run_noSlot : NoSlot (run cfg p c t) := by
  have hflush : ∀ {x : ℕ} {β : Type} {f : Core → Except Stop β}, (∀ y, NoSlot (f y)) →
      NoSlot (flushTxBlk cfg p x c >>= f) := fun hf => (flushTxBlk_noSlot h9 hr _).bind fun y _ => hf y
  have hsend : ∀ {m : CtrlMsg} {β : Type} {f : Core → Except Stop β}, (∀ y, NoSlot (f y)) →
      NoSlot (sendMsgInternal cfg p m c >>= f) :=
    fun hf => (sendMsgInternal_noSlot h9 hr _).bind fun y _ => hf y
  cases hpc : t.pc with
  | recvBody n r => exact recvBody_noSlot h9 hr hpc
  | ctor ms =>
    cases ms <;> simp only [run, hpc]
    · simp
    · exact hsend fun _ => by simp
  | idle => simp [run, hpc]
  | que k => simp only [run, hpc]; split <;> simp
  | sendData d n =>
    simp only [run, hpc]
    split
    · simp
    split
    · simp
    exact (sendChunk_noSlot h9 hr _ _).bind fun _ _ => by simp
  | sendDataLock d n => simp only [run, hpc]; split <;> simp
  | ctlTest x k =>
    simp only [run, hpc]
    split
    · simp
    · exact sendCtl_noSlot h9 hr x k
  | ctlLock x k =>
    simp only [run, hpc]
    split
    · split <;> simp
    · exact sendCtl_noSlot h9 hr x k
  | haltFlush k => simp only [run, hpc]; exact hflush fun _ => by simp
  | msgSend m => simp only [run, hpc]; exact hsend fun _ => by simp
  | callTest argv =>
    simp only [run, hpc]
    split
    · simp
    · exact nextTxBlk_noSlot.bind fun _ _ => by simp
  | callLock argv =>
    simp only [run, hpc]
    split
    · simp
    · exact nextTxBlk_noSlot.bind fun _ _ => by simp
  | callData argv n =>
    simp only [run, hpc]
    split
    · simp
    split
    · simp
    exact (sendChunk_noSlot h9 hr _ _).bind fun _ _ => by simp
  | callDataLock argv n => simp only [run, hpc]; split <;> simp
  | callPost argv => simp only [run, hpc]; exact hsend fun _ => by simp
  | callFlush argv => simp only [run, hpc]; exact hflush fun _ => by split <;> simp
  | msgLoop k => simp only [run, hpc]; exact msgLoop_noSlot h9 hr k
  | recvData n r =>
    simp only [run, hpc]
    split
    · simp
    split
    · simp
    · exact enterMsgLoop_noSlot _
  | recvArgs argc n => simp only [run, hpc]; exact recvArgv_noSlot h9 hr argc n

theorem call_noSlot (op : Op) : NoSlot (call cfg p op c t) := by
  have hflush : ∀ {β : Type} {f : Core → Except Stop β}, (∀ y, NoSlot (f y)) →
      NoSlot (flushTxBlk cfg p 0 c >>= f) := fun hf => (flushTxBlk_noSlot h9 hr _).bind fun y _ => hf y
  cases op with
  | sendHostData => exact noSlot_ok _
  | flushHostData => exact hflush fun _ => by simp
  | sendHostDataMarker => exact hflush fun _ => by simp
  | sendHostHalt =>
    simp only [call]
    split
    · exact hflush fun _ => by simp
    · simp
  | sendHostMsg => exact hflush fun _ => by simp
  | sendCall =>
    simp only [call]
    split
    · exact hflush fun _ => by simp
    · simp
  | sendReturn =>
    simp only [call]
    split
    · exact hflush fun _ => by simp
    · simp
  | recvPoll => exact enterMsgLoop_noSlot _
  | recvHostMsg => exact enterMsgLoop_noSlot _
  | peekHostData =>
    simp only [call]
    split
    · exact enterMsgLoop_noSlot _
    · simp
  | recvHostDataMarker =>
    simp only [call]
    split
    · simp
    · exact enterMsgLoop_noSlot _
  | recvHostData =>
    simp only [call]
    split <;> simp
  | recvArgs => exact enterMsgLoop_noSlot _
  | setUsingCallback => exact noSlot_ok _

theorem timer_noSlot : NoSlot (timer cfg p c t) := by
  unfold timer
  split
  · simp
  · exact (flushTxBlk_noSlot h9 hr 0).bind fun _ _ => by simp

end Steps

/-- **With room in the actor's ring no action waits for a slot.** -/
theorem exec_noSlot (h9 : cfg.params.ctlQueW = 9) (hr : Room a.party s.core) : NoSlot (exec cfg s a) := by
  refine NoSlot.bind ?_ fun _ _ => noSlot_ok _
  cases a with
  | call p op =>
    simp only [Act.exec]
    split
    · exact call_noSlot h9 hr op
    · simp
  | run p => exact run_noSlot h9 hr
  | timer p => exact timer_noSlot h9 hr
  | callbackEnd p =>
    simp only [Act.exec, callbackEnd]
    split <;> simp

/-! ### The bound -/

/-- Every message in a ring is a block, a returned block or another. -/
theorem live_count (L : Lane) (p : Party) : L.live.length ≤ L.rdys p + L.avls p + L.others p := by
  have key : ∀ l : List CtrlMsg, l.length ≤ l.countP (fun m => m.cmd = p.cmdRdy) +
      l.countP (fun m => m.cmd = p.cmdAvl) +
      l.countP (fun m => m.cmd ≠ p.cmdRdy ∧ m.cmd ≠ p.cmdAvl) := by
    intro l
    induction l with
    | nil => simp
    | cons m l ih =>
      simp only [List.length_cons, List.countP_cons, decide_eq_true_eq]
      split_ifs <;> first | omega | tauto
  have := key L.live
  simp only [Lane.rdys, Lane.avls, Lane.others, List.countP_append]
  omega

/-- The admitted block counts. -/
theorem blkCnt_le (cfg : Cfg) (p : Party) : cfg.blkCnt p ≤ 64 := by
  have h := HifParams.admitted_iff.1 cfg.admitted
  have key : ∀ w, w ≤ 6 → 1 <<< w ≤ 64 := by
    intro w hw
    rw [Nat.shiftLeft_eq, Nat.one_mul]
    exact Nat.pow_le_pow_right (by decide) hw
  cases p
  · exact key _ h.2.2.2.1.2
  · exact key _ h.2.2.2.2.2.2

/-- **At most 134 messages** are in a ring when neither side sends user messages. -/
theorem live_le (h9 : cfg.params.ctlQueW = 9)
    (hr : Reach (exec cfg) (fun s a => NoUser .host s a ∧ NoUser .model s a) (Sys.init cfg) s)
    (p : Party) : (s.core.lane p).live.length ≤ 134 := by
  have hun : ∀ s, Reach (exec cfg) (fun s a => NoUser .host s a ∧ NoUser .model s a)
      (Sys.init cfg) s → ¬ s.Interrupted := fun s hs =>
    reach_uninterrupted h9 (fun _ _ h => h.2) hs
  have hcredit : ∀ q, CreditOk cfg q s := fun q => reach_credit h9 (fun s hs _ => hun s hs) hr
  have hplain := reach_plain (p := p) h9 (fun _ _ h => by cases p; exacts [h.1, h.2]) hr
  have h1 : (s.core.lane p).rdys p ≤ 64 := by
    have h1 := (hcredit p).sum
    have h2 := (hcredit p).nonneg
    have := blkCnt_le cfg p
    omega
  have h2 : (s.core.lane p).avls p ≤ 64 := by
    have h1 := (hcredit p.other).sum
    have h2 := (hcredit p.other).nonneg
    have := blkCnt_le cfg p.other
    simp only [Party.other_other] at h1
    omega
  have h3 : (s.core.lane p).others p ≤ 6 := by
    have := hplain.bound
    split at this <;> omega
  have := live_count (s.core.lane p) p
  omega

/-- Without user messages there is always room for another message. -/
theorem reach_room (h9 : cfg.params.ctlQueW = 9)
    (hr : Reach (exec cfg) (fun s a => NoUser .host s a ∧ NoUser .model s a) (Sys.init cfg) s)
    (p : Party) : Room p s.core := by
  refine ⟨reach_rings h9 hr, ?_⟩
  have hlive := live_le h9 hr p
  have h512 : modelHifCtlQueCnt = 512 := rfl
  omega

/-- **Control traffic alone never fills a ring.** In a run in which neither side sends user
messages the next slot of either ring is always empty, and no action waits for one. -/
theorem slot_always_free (h9 : cfg.params.ctlQueW = 9)
    (hr : Reach (exec cfg) (fun s a => NoUser .host s a ∧ NoUser .model s a) (Sys.init cfg) s) :
    (∀ p, s.core.ring p ((s.core.tx p).ctlWrIdx &&& (cfg.ctlQueCnt p - 1)) = none) ∧
      ∀ a, exec cfg s a ≠ .error .slot := by
  have hroom := reach_room h9 hr
  refine ⟨fun p => ?_, fun a => exec_noSlot h9 (hroom a.party)⟩
  rw [ctlQueCnt_eq h9, slot_eq (ctlQueCnt_eq h9 p)]
  exact ((hroom p).rings p).slot_free (hroom p).live

/-- The state after `demo`. -/
theorem slot_always_free_demo : ∃ s, Lts.run (exec Cfg.default) (Sys.init Cfg.default) demo = .ok s ∧
    (∀ p, s.core.ring p ((s.core.tx p).ctlWrIdx &&& (Cfg.default.ctlQueCnt p - 1)) = none) ∧
      ∀ a, exec Cfg.default s a ≠ .error .slot := by
  obtain ⟨s, hs, hr⟩ := demo_reach
  exact ⟨s, hs, slot_always_free rfl hr⟩

end OpenHT.Host
