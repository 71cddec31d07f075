import OpenHT.Host.RingBound

/-!
# Conservation of block credits

The counts of `Credit` in terms of what is in the slots of the rings and in the queues.

* `credits_conserved`: in every reachable state the free, announced and returned blocks
  of a direction and the one in the hands of a `SendCall` are all its blocks; a block
  being filled is never one the receiver still has to read.
* `sum_one_short`: a `SendCall` whose arguments outlast the credits gives up its lock with
  the call's empty block in hand.
-/

namespace OpenHT.Host

open Host.Core Lts

variable {cfg : Cfg} {p : Party} {s : Sys}

namespace Core

variable (c : Core) (p : Party)

/-- The valid messages in the ring written by `p`. -/
def slots : List CtrlMsg := Ring.held modelHifCtlQueCnt (c.ring p)

/-- The block-ready messages of `p` in the ring or in the receiver's local queue. -/
def rdyCnt : ℕ := ((c.rx p.other).msgQue ++ c.slots p).countP (·.cmd = p.cmdRdy)

/-- The block-available messages on their way back to `p`. -/
def avlCnt : ℕ := (c.slots p.other).countP (·.cmd = p.other.cmdAvl)

end Core

/-- The empty block of a `SendCall` / `SendReturn` whose call message is not sent. -/
def Sys.inHand (s : Sys) (p : Party) : ℕ := (s.thr p).pc.view.held

/-- The initial block-available messages that the constructor has not sent. -/
def Sys.unsentAvls (s : Sys) (p : Party) : ℕ :=
  (s.thr p.other).pc.view.unsent.countP (·.cmd = p.other.cmdAvl)

theorem rdyCnt_eq (hw : s.core.RingsOk) : s.core.rdyCnt p = (s.core.lane p).rdys p := by
  have := ((hw p).perm).countP_eq (fun m => decide (m.cmd = p.cmdRdy))
  simp only [rdyCnt, slots, Lane.rdys, List.countP_append, this]
  rfl

theorem avlCnt_eq (hw : s.core.RingsOk) : s.core.avlCnt p = (s.core.lane p.other).avls p.other := by
  have := ((hw p.other).perm).countP_eq (fun m => decide (m.cmd = p.other.cmdAvl))
  simp only [avlCnt, slots, Lane.avls, this]
  rfl

/-- The lock is free and no call has run out of credits: no block is in hand. -/
theorem inHand_eq_zero (hlock : (s.thr p).pc.locked = false) (hs : (s.thr p).pc.view.stuck = false) :
    s.inHand p = 0 := by
  unfold Sys.inHand
  cases hpc : (s.thr p).pc with
  | que k => cases k <;> simp_all [PcView.held, Pc.view]
  | _ => simp_all [PcView.held, Pc.view, Pc.locked]

/-- **Block credits are conserved** in every reachable state of every run (for the model's
direction: in which the model unit sends no user messages). -/
theorem credits_conserved (h9 : cfg.params.ctlQueW = 9) (p : Party)
    (hr : Reach (exec cfg) (fun s a => p = .model → NoUser .model s a) (Sys.init cfg) s) :
    (s.core.tx p).blkAvailCnt + s.core.rdyCnt p + s.core.avlCnt p + s.inHand p + s.unsentAvls p =
        cfg.blkCnt p ∧
      0 ≤ (s.core.tx p).blkAvailCnt ∧
      (0 < (s.core.tx p).blkWrIdx → 0 < (s.core.tx p).blkAvailCnt) ∧
      (0 < (s.core.tx p).blkAvailCnt → ∀ i < s.core.rdyCnt p,
        (s.core.tx p).blkIdx &&& (cfg.blkCnt p - 1) ≠
          ((s.core.rx p.other).blkIdx + i) &&& (cfg.blkCnt p - 1)) := by
  have hc : CreditOk cfg p s := by
    refine reach_credit h9 (fun s hs hp => ?_) hr
    exact reach_uninterrupted h9 (fun _ _ h => h hp) hs
  have hw := reach_rings h9 hr
  rw [rdyCnt_eq hw, avlCnt_eq hw]
  refine ⟨hc.sum, hc.nonneg, hc.room, fun hpos i hi => ?_⟩
  have hsum := hc.sum
  have hidx := hc.idx
  simp only [lane] at hsum hidx
  simp only [lane] at hi
  rw [mask_eq, mask_eq, hidx]
  intro hmod
  -- both indices lie in the window of `blkCnt` blocks from the receiver's on
  have := Ring.window_inj (show (s.core.rx p.other).blkIdx ≤ _ by omega)
    (show (s.core.rx p.other).blkIdx ≤ _ by omega) (by omega) (by omega) hmod
  omega

/-- The state after `demo`: the block the host has sent is on its way back. -/
theorem credits_conserved_demo :
    ∃ s, Lts.run (exec Cfg.default) (Sys.init Cfg.default) demo = .ok s ∧
      (s.core.tx .host).blkAvailCnt + s.core.rdyCnt .host + s.core.avlCnt .host + s.inHand .host +
        s.unsentAvls .host = 16 := by
  obtain ⟨s, hs, hr⟩ := demo_reach
  exact ⟨s, hs, (credits_conserved rfl .host (hr.mono fun _ _ h _ => h.2)).1⟩

/-! ### A block in hand without the lock -/

section Short

theorem sendMsgInternal_ok (h9 : cfg.params.ctlQueW = 9) {c : Core} (hr : Room p c) (m : CtrlMsg) :
    ∃ c', sendMsgInternal cfg p m c = .ok c' := by
  have hfree := (hr.rings p).slot_free hr.live
  simp [sendMsgInternal, ctlQueCnt_eq h9, slot_eq (ctlQueCnt_eq h9 p), hfree]

theorem nextTxBlk_ok {c : Core} {b : BlkParam} (hpos : 0 < (c.tx p).blkAvailCnt)
    (hb : (c.tx p).param = some b) : ∃ c', nextTxBlk p c = .ok c' := by
  simp [nextTxBlk, Int.not_le.2 hpos, hb]

theorem flushTxBlk_ok (h9 : cfg.params.ctlQueW = 9) {c : Core} {b : BlkParam} (hr : Room p c)
    (hpos : 0 < (c.tx p).blkAvailCnt) (hb : (c.tx p).param = some b) :
    ∃ c', flushTxBlk cfg p 0 c = .ok c' := by
  unfold flushTxBlk
  simp only
  split
  · exact ⟨_, rfl⟩
  obtain ⟨c1, h1⟩ := nextTxBlk_ok hpos hb
  obtain ⟨-, _, -, hw1, hl1, -⟩ := nextTxBlk_lane hr.rings h1
  obtain ⟨c2, h2⟩ := sendMsgInternal_ok h9 (hr.of_lane hw1 (by rw [hl1]; rfl))
    (p.rdyMsg (c.tx p).blkWrIdx 0)
  exact ⟨c2, by rw [h1]; exact h2⟩

/-- Actions without user messages and with calls of at most `N` quadwords. -/
def Quiet (N : ℕ) (_ : Sys) (a : Act) : Prop := a.user = none ∧ ∀ x, a.argv = some x → x.length ≤ N

/-- The host at `pc`: `k` free blocks, nothing in the current one. -/
structure Between (cfg : Cfg) (N k : ℕ) (pc : Pc) (s : Sys) : Prop where
  reach : Reach (exec cfg) (Quiet N) (Sys.init cfg) s
  pc : (s.thr .host).pc = pc
  avail : (s.core.tx .host).blkAvailCnt = k
  wrIdx : (s.core.tx .host).blkWrIdx = 0
  param : (s.core.tx .host).param = some (cfg.blkParam .host)

variable {N k : ℕ}

theorem Quiet.noUser {N : ℕ} {s : Sys} {a : Act} (h : Quiet N s a) (p : Party) : NoUser p s a := fun _ => h.1

theorem Quiet.run {N : ℕ} {s : Sys} {p : Party} : Quiet N s (.run p) := ⟨rfl, by simp [Act.argv]⟩

theorem Between.room {pc : Pc} (h : Between cfg N k pc s) (h9 : cfg.params.ctlQueW = 9) : Room .host s.core :=
  reach_room h9 (h.reach.mono fun _ _ h => ⟨h.noUser .host, h.noUser .model⟩) .host

theorem between_init (cfg : Cfg) : Between cfg N (cfg.blkCnt .host) (.ctor (ctorMsgs cfg)) (Sys.init cfg) :=
  ⟨.init, rfl, rfl, rfl, rfl⟩

theorem Between.next {pc pc' : Pc} {l : ℕ} {a : Act} (h : Between cfg N k pc s) {c : Core} {t : Thread}
    (ha : Quiet N s a) (hp : a.party = .host)
    (he : a.exec cfg s.core (s.thr .host) = .ok (c, t)) (hpc : t.pc = pc')
    (htx : (c.tx .host).blkAvailCnt = l ∧ (c.tx .host).blkWrIdx = 0 ∧
      (c.tx .host).param = some (cfg.blkParam .host)) : ∃ s', Between cfg N l pc' s' := by
  refine ⟨s.set .host (c, t), h.reach.next a ha ?_, ?_, htx.1, htx.2.1, htx.2.2⟩
  · simp only [exec, hp, he]; rfl
  · simp [Sys.set, hpc]

/-- The constructor sends its messages. -/
theorem Between.ctor (h9 : cfg.params.ctlQueW = 9) (ms : List CtrlMsg) :
    ∀ s, Between cfg N k (.ctor ms) s → ∃ s', Between cfg N k .idle s' := by
  induction ms with
  | nil =>
    intro s h
    exact h.next (a := .run .host) (t := (s.thr .host).goto .idle) Quiet.run rfl
      (by simp only [Act.exec, run, h.pc]) rfl ⟨h.avail, h.wrIdx, h.param⟩
  | cons m ms ih =>
    intro s h
    have hr := h.room h9
    obtain ⟨c, hc⟩ := sendMsgInternal_ok h9 hr m
    have htx := congrArg Lane.tx (sendMsgInternal_lane (ctlQueCnt_eq h9 _) hr.rings hc).2.1
    obtain ⟨s', h'⟩ := h.next (a := .run .host) (t := (s.thr .host).goto (.ctor ms)) Quiet.run rfl
      (by simp only [Act.exec, run, h.pc, hc]; rfl) rfl (by
        simp only [lane, Lane.post] at htx
        rw [htx]
        exact ⟨h.avail, h.wrIdx, h.param⟩)
    exact ih s' h'

/-- A full block of arguments takes one credit. -/
theorem Between.chunk (h9 : cfg.params.ctlQueW = 9) {argv : List Qw} {n : ℕ}
    (h : Between cfg N (k + 1) (.callData argv n) s) (hn : n + cfg.blkSize .host ≤ argv.length)
    (hpos : 0 < cfg.blkSize .host) :
    ∃ s', Between cfg N k (.callData argv (n + cfg.blkSize .host)) s' := by
  have hr := h.room h9
  have hav := h.avail
  have hlen : ((argv.drop n).take (cfg.blkSize .host)).length = cfg.blkSize .host := by
    simp only [List.length_take, List.length_drop]; omega
  obtain ⟨c1, h1⟩ : ∃ c1, copyToBlk .host (argv.drop n) s.core =
      .ok ((argv.drop n).take (cfg.blkSize .host), c1) := by
    simp [copyToBlk, h.param, h.wrIdx, Cfg.blkParam]
  obtain ⟨b, -, -, hw1, hl1, -⟩ := copyToBlk_lane hr.rings h1
  have htx1 := congrArg Lane.tx hl1
  simp only [lane, Lane.write, hlen, h.wrIdx, Nat.zero_add] at htx1
  obtain ⟨c2, h2⟩ := flushTxBlk_ok h9 (b := cfg.blkParam .host) (hr.of_lane hw1 (by rw [hl1]; rfl))
    (by rw [htx1]; simp only [hav]; omega) (by rw [htx1]; exact h.param)
  have hfull : flushIfFull cfg .host c1 = .ok c2 := by
    simp only [flushIfFull, htx1, h.param]
    simpa [Cfg.blkParam] using h2
  obtain ⟨-, -, hf⟩ := flushTxBlk_lane (ctlQueCnt_eq h9 _) hw1 h2
  have hflush : ∃ b, c2.lane .host = (c1.lane .host).flush .host b 0 ∧
      (c1.lane .host).tx.param = some b := by
    rcases hf with ⟨h0, -⟩ | ⟨-, -, b, hb, he⟩
    · simp only [lane, htx1] at h0; omega
    · exact ⟨b, he, hb⟩
  obtain ⟨b, he, hb⟩ := hflush
  have htx2 := congrArg Lane.tx he
  simp only [lane, Lane.flush, Lane.next, Lane.post, htx1] at htx2
  refine h.next (a := .run .host) (c := c2)
    (t := (s.thr .host).goto (.callData argv (n + cfg.blkSize .host))) Quiet.run rfl ?_ rfl ?_
  · have hlt : ¬ argv.length ≤ n := by omega
    have hne : ¬ (s.core.tx .host).blkAvailCnt = 0 := by omega
    have hle : ¬ (s.core.tx .host).blkAvailCnt ≤ 0 := by omega
    simp only [Act.exec, run, h.pc, hlt, hne, if_false, sendChunk, hle, h1]
    simp only [bind, Except.bind, Bool.false_eq_true, if_false, hfull, hlen]
  · rw [htx2]
    exact ⟨by simp only [hav]; omega, rfl, h.param⟩

/-- As many full blocks of arguments as there are credits. -/
theorem Between.chunks (h9 : cfg.params.ctlQueW = 9) (hpos : 0 < cfg.blkSize .host) {argv : List Qw}
    (k : ℕ) : ∀ n s, Between cfg N k (.callData argv n) s → n + k * cfg.blkSize .host ≤ argv.length →
      ∃ s', Between cfg N 0 (.callData argv (n + k * cfg.blkSize .host)) s' := by
  induction k with
  | zero => intro n s h _; exact ⟨s, by simpa using h⟩
  | succ k ih =>
    intro n s h hn
    rw [Nat.succ_mul] at hn ⊢
    obtain ⟨s1, h1⟩ := h.chunk h9 (by omega) hpos
    obtain ⟨s2, h2⟩ := ih _ s1 h1 (by omega)
    exact ⟨s2, by rw [show n + (k * cfg.blkSize .host + cfg.blkSize .host) =
      n + cfg.blkSize .host + k * cfg.blkSize .host by omega]; exact h2⟩

/-- `SendCall` takes its empty block. -/
theorem Between.sendCall (h9 : cfg.params.ctlQueW = 9) (h : Between cfg N (k + 2) .idle s)
    (argv : List Qw) (hN : argv.length ≤ N) : ∃ s', Between cfg N (k + 1) (.callData argv 0) s' := by
  have hquiet : ∀ x, Act.argv (.call .host (.sendCall [argv])) = some x → x.length ≤ N := by
    intro x hx
    simp only [Act.argv, List.flatten_cons, List.flatten_nil, List.append_nil, Option.some.injEq] at hx
    exact hx ▸ hN
  obtain ⟨s1, h1⟩ := h.next (a := .call .host (.sendCall [argv])) (c := s.core)
    (t := { s.thr .host with ret := none }.goto (.callTest argv)) (l := k + 2) ⟨rfl, hquiet⟩ rfl
    (by simp [Act.exec, h.pc, call, flushTxBlk, h.wrIdx, bind, Except.bind]) rfl
    ⟨h.avail, h.wrIdx, h.param⟩
  replace h1 : Between cfg N (k + 2) (.callTest argv) s1 := h1
  have hav := h1.avail
  obtain ⟨c, hc⟩ := nextTxBlk_ok (p := .host) (c := s1.core) (by omega) h1.param
  obtain ⟨-, b, hb, -, hl, -⟩ := nextTxBlk_lane (reach_rings h9 h1.reach) hc
  have htx := congrArg Lane.tx hl
  simp only [lane, Lane.next] at htx
  refine h1.next (a := .run .host) (c := c) (t := (s1.thr .host).goto (.callData argv 0)) Quiet.run rfl
    (by simp [Act.exec, run, h1.pc, show ¬ (s1.core.tx .host).blkAvailCnt < 2 by omega, hc, bind,
      Except.bind]) rfl ?_
  rw [htx]
  exact ⟨by simp only [hav]; omega, rfl, h1.param⟩

end Short

/-- **One block short.** The default interface; a call with one quadword more than the
blocks it can get: out of credits, `SendCall` unlocks and looks for returned blocks, and
15 blocks are counted. -/
theorem sum_one_short : ∃ (cfg : Cfg) (s : Sys), cfg.params.ctlQueW = 9 ∧
    Reach (exec cfg) (fun s a => NoUser .host s a ∧ NoUser .model s a) (Sys.init cfg) s ∧
    (s.thr .host).pc.locked = false ∧
    (s.core.tx .host).blkAvailCnt + s.core.rdyCnt .host + s.core.avlCnt .host ≠ cfg.blkCnt .host := by
  have h9 : Cfg.default.params.ctlQueW = 9 := rfl
  have hcnt : Cfg.default.blkCnt .host = 14 + 2 := by decide
  have hsize : Cfg.default.blkSize .host = 8192 := by decide
  obtain ⟨s1, h1⟩ := Between.ctor h9 _ _ (between_init (N := 15 * 8192 + 1) Cfg.default)
  rw [hcnt] at h1
  obtain ⟨s2, h2⟩ := h1.sendCall h9 (List.replicate (15 * 8192 + 1) 0) (List.length_replicate).le
  obtain ⟨s3, h3⟩ := h2.chunks h9 (by rw [hsize]; decide) _ _ _ (by
    rw [hsize, List.length_replicate]; decide)
  rw [hsize] at h3
  have hav : (s3.core.tx .host).blkAvailCnt = 0 := h3.avail
  have hlt : ¬ (List.replicate (15 * 8192 + 1) (0 : Qw)).length ≤ 0 + (14 + 1) * 8192 := by
    rw [List.length_replicate]; decide
  obtain ⟨s4, h4⟩ := h3.next (a := .run .host)
    (t := (s3.thr .host).goto
      (.que (.callData (List.replicate (15 * 8192 + 1) 0) (0 + (14 + 1) * 8192)))) Quiet.run rfl
    (by simp only [Act.exec, run, h3.pc, hlt, hav, if_false, if_true]) rfl
    ⟨hav, h3.wrIdx, h3.param⟩
  refine ⟨Cfg.default, s4, h9, h4.reach.mono (fun _ _ h => ⟨h.noUser .host, h.noUser .model⟩),
    by rw [h4.pc]; rfl, ?_⟩
  have hw := reach_rings h9 h4.reach
  have hsum := (reach_credit (p := .host) h9 (by simp) h4.reach).sum
  rw [rdyCnt_eq hw, avlCnt_eq hw]
  have hheld : (s4.thr .host).pc.view.held = 1 := by rw [h4.pc]; rfl
  simp only [lane] at hsum ⊢
  omega

end OpenHT.Host
