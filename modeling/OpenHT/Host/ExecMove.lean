import OpenHT.Host.Move

/-!
# Every action is a move

* `turn_spec`: what a turn of either unit's `MsgLoop` finds at the front of its queue.
* `recvd_move`, `msgLoop_move`: the receiving operations.
* `flushTo_move`, `sendCtl_move`, `sendChunk_move`: the sending operations.
* `run_move`, `call_move`, `exec_move`: every step of a thread, every action.
-/

namespace OpenHT.Host

open Host.Core

variable {cfg : Cfg} {p : Party} {a : Act} {c c' : Core} {t t' : Thread} {N : ℕ}

/-- The outcome of a step from `c` and `t` is a move of `p`. -/
def Moves (N : ℕ) (p : Party) (a : Act) (c : Core) (t : Thread) (x : Core × Thread) : Prop :=
  x.1.RingsOk N ∧
    Move p a (c.lane p N) (c.lane p.other N) t (x.1.lane p N) (x.1.lane p.other N) x.2

theorem lane_rx (c : Core) (p : Party) (N : ℕ) : (c.lane p.other N).rx = c.rx p := by simp [lane]

theorem lane_tx (c : Core) (p : Party) : (c.lane p N).tx = c.tx p := rfl

/-! ### Threads -/

theorem Keeps.rfl' : Keeps a t t :=
  ⟨rfl, rfl, fun _ h => .inl h, fun _ h => .inl h, id, rfl, fun _ => rfl⟩

/-- Between resting points nothing is sent. -/
theorem Thread.Resting.keeps (hr : t.Resting) (hargs : t'.pc.view.args = none)
    (hunsent : t'.pc.view.unsent = []) (hargv : t'.pc.view.argv = none)
    (huser : t'.pc.view.user = none) (hstuck : t'.pc.view.stuck = false)
    (hprog : t'.pc.view.prog = []) (hdone : t'.done = t.done) (hret : Ret.isArgs t'.ret → t'.ret = t.ret) :
    Keeps a t t' :=
  ⟨by rw [hargs, hr.args], by rw [hunsent, hr.unsent], by simp [hargv],
    by simp [huser], by simp [hstuck],
    by rw [sent, sent, hprog, hr.prog, hdone], hret⟩

theorem Thread.Resting.finish (hr : t.Resting) {r : Ret} (h : ¬ Ret.isArgs (some r)) :
    Keeps a t (t.finish r []) :=
  hr.keeps rfl rfl rfl rfl rfl rfl (by simp [Thread.finish]) (fun h' => absurd h' h)

/-- A thread at rest that only moves on. -/
theorem Thread.Resting.skip (hr : t.Resting) (hw : c.RingsOk N) (hk : Keeps a t t')
    (hclean : t'.pc.view.clean = false) (hflush : t'.pc.view.flushing = none) (hrx : t'.pc.view.rxMode = .none) :
    Moves N p a c t (c, t') :=
  ⟨hw, .skip hk (by simp [hclean]) (by rw [hflush, hr.flushing]) (by rw [hrx, hr.rxMode])⟩

theorem Thread.Resting.finish_moves (hr : t.Resting) (hw : c.RingsOk N) {r : Ret}
    (h : ¬ Ret.isArgs (some r)) : Moves N p a c t (c, t.finish r []) :=
  hr.skip hw (hr.finish h) rfl rfl rfl

/-! ### The message loop -/

/-- What a turn of `MsgLoop` finds at the front of the local queue. -/
inductive TurnSpec (N : ℕ) (p : Party) (c : Core) : Turn → Prop
  | idle : TurnSpec N p c .idle
  | fail : TurnSpec N p c .fail
  | setup {m ms c'} : (c.rx p).msgQue = m :: ms → m.cmd.isSetup →
      (p = .host → m.cmd = .assert ∨ m.cmd = .assertColl) → c'.RingsOk N →
      c'.lane p N = { c.lane p N with tx := (c.lane p N).tx.setup m } →
      c'.lane p.other N =
        { c.lane p.other N with rx := (c.lane p.other N).rx.setup m }.setQue ms →
      TurnSpec N p c (.next c')
  | data {m ms c' ty} : (c.rx p).msgQue = m :: ms → m.cmd = p.other.cmdRdy → m.dq = 0 →
      c'.RingsOk N → c'.lane p N = c.lane p N →
      c'.lane p.other N = { c.lane p.other N with rx := (c.lane p.other N).rx.announce m.cnt } →
      (ty = .hostData ∨ p = .host ∧ 0 < (c.rx p).recvRtnArgc ∧ ty = .return) →
      TurnSpec N p c (.recv ty c')
  | marker {m ms} : (c.rx p).msgQue = m :: ms → m.cmd = p.other.cmdRdy → m.dq = hifDqNull →
      TurnSpec N p c (.recv .hostDataMarker c)
  | call {m ms} : (c.rx p).msgQue = m :: ms → m.cmd = p.other.cmdRdy → m.dq = hifDqCall →
      (m.cnt = 0 ∨ ms ≠ []) → TurnSpec N p c (.recv p.argsType c)
  | msg {m ms ty} : (c.rx p).msgQue = m :: ms → m.cmd = .user ty → TurnSpec N p c (.recv .hostMsg c)
  | halt {m ms} : (c.rx p).msgQue = m :: ms → m.cmd = p.other.cmdRdy → m.dq = hifDqHalt →
      TurnSpec N p c .halt

theorem rdyTurn_spec (hw : c.RingsOk N) {m : CtrlMsg} {ms : List CtrlMsg} {tData : RecvType}
    (hq : (c.rx p).msgQue = m :: ms) (hcmd : m.cmd = p.other.cmdRdy)
    (hty : tData = .hostData ∨ p = .host ∧ 0 < (c.rx p).recvRtnArgc ∧ tData = .return) :
    TurnSpec N p c (rdyTurn p tData p.argsType m c) := by
  unfold rdyTurn
  simp only
  split
  · rename_i hdq
    refine .data hq hcmd hdq (setRx_rings (by rfl) hw) (setRx_lane (by rfl)).1 ?_ hty
    exact (setRx_lane (by rfl)).2.trans (by rw [lane_rx]; rfl)
  · rename_i hdq
    split
    · exact .marker hq hcmd hdq
    · exact .fail
  · rename_i hdq
    split
    · rename_i hlen
      exact .call hq hcmd hdq (hlen.imp id (by rw [hq]; rintro h rfl; simp at h))
    · exact .idle
  · rename_i hdq
    exact .halt hq hcmd hdq
  · exact .fail

/-- Popping the front of the local queue, with new parameters. -/
theorem pop_spec (hw : c.RingsOk N) {m : CtrlMsg} {ms : List CtrlMsg} {t : Tx} {r : Rx}
    (hq : (c.rx p).msgQue = m :: ms) (hcmd : m.cmd.isSetup)
    (hhost : p = .host → m.cmd = .assert ∨ m.cmd = .assertColl)
    (ht : t = (c.tx p).setup m) (hr : r = { (c.rx p).setup m with msgQue := ms }) :
    TurnSpec N p c (.next ((c.setTx p t).setRx p r)) := by
  have htx : t.ctlWrIdx = (c.tx p).ctlWrIdx := by rw [ht, Tx.setup]; split <;> rfl
  have hrx : r.ctlRdIdx = ((c.setTx p t).rx p).ctlRdIdx := by
    rw [hr]; simp only [Rx.setup, setTx]; split <;> rfl
  obtain ⟨h1, h2⟩ := setTx_lane htx
  obtain ⟨h3, h4⟩ := setRx_lane hrx
  refine .setup hq hcmd hhost (setRx_rings hrx (setTx_rings htx hw)) ?_ ?_
  · rw [h3, h1, lane_tx, ht]
  · rw [h4, h2, hr, lane_rx]; rfl

theorem hostTurn_spec (hw : c.RingsOk N) : TurnSpec N .host c (hostTurn c) := by
  unfold hostTurn
  simp only
  split
  · exact .idle
  rename_i m ms hq
  have hpop : m.cmd = .assert ∨ m.cmd = .assertColl →
      TurnSpec N .host c (.next (c.setRx .host { c.rx .host with msgQue := ms })) := by
    intro hcmd
    have := pop_spec (t := c.tx .host) hw hq (by rcases hcmd with h | h <;> rw [h] <;> rfl)
      (fun _ => hcmd) (by rcases hcmd with h | h <;> simp [Tx.setup, h])
      (r := { c.rx .host with msgQue := ms }) (by rcases hcmd with h | h <;> simp [Rx.setup, h])
    simpa [setTx] using this
  split
  · rename_i hcmd
    exact hpop (.inl hcmd)
  · rename_i hcmd
    exact hpop (.inr hcmd)
  · rename_i hcmd
    refine rdyTurn_spec hw hq hcmd ?_
    split
    · rename_i h
      exact .inr ⟨rfl, h, rfl⟩
    · exact .inl rfl
  · rename_i hcmd
    exact .msg hq hcmd
  · exact .fail

theorem modelTurn_spec (hw : c.RingsOk N) : TurnSpec N .model c (modelTurn c) := by
  unfold modelTurn
  simp only
  split
  · exact .idle
  rename_i m ms hq
  have hpop : ∀ {d : Core} {t : Tx} {r : Rx}, m.cmd.isSetup → t = (c.tx .model).setup m →
      r = { (c.rx .model).setup m with msgQue := ms } → d = (c.setTx .model t).setRx .model r →
      TurnSpec N .model c (.next d) := by
    rintro d t r hs ht hr rfl
    exact pop_spec hw hq hs (by simp) ht hr
  split
  case h_7 => rename_i hcmd; exact rdyTurn_spec hw hq hcmd (.inl rfl)
  case h_8 => rename_i hcmd; exact .msg hq hcmd
  case h_9 => exact .fail
  all_goals
    rename_i hcmd
    refine hpop (by rw [hcmd]; rfl) rfl rfl ?_
    simp [Tx.setup, Rx.setup, hcmd, setTx, CtrlMsg.param]

theorem turn_spec (hw : c.RingsOk N) : TurnSpec N p c (turn p c) := by
  cases p
  · exact hostTurn_spec hw
  · exact modelTurn_spec hw

/-! ### Receiving operations -/

theorem recvd_halt (cfg : Cfg) (p : Party) (k : RecvK) (c : Core) (t : Thread) :
    ∃ r, ¬ Ret.isArgs (some r) ∧ recvd cfg p k .halt c t = .ok (c, t.finish r []) := by
  cases k <;> first
    | exact ⟨_, by simp, rfl⟩
    | exact ⟨.args none, by simp, by cases p <;> rfl⟩

theorem recvd_idle (cfg : Cfg) (p : Party) (k : RecvK) (c : Core) (t : Thread) :
    ∃ r, ¬ Ret.isArgs (some r) ∧ recvd cfg p k .idle c t = .ok (c, t.finish r []) := by
  cases k <;> first
    | exact ⟨_, by simp, rfl⟩
    | exact ⟨.args none, by simp, by cases p <;> rfl⟩

theorem enterMsgLoop_ok {k : RecvK} {x : Core × Thread} (h : enterMsgLoop cfg p k c t = .ok x) :
    (∃ r, ¬ Ret.isArgs (some r) ∧ x = (c, t.finish r [])) ∨ x = (c, t.goto (.que (.msgLoop k))) := by
  unfold enterMsgLoop at h
  split at h
  · obtain ⟨r, hret, he⟩ := recvd_halt cfg p k c t
    rw [he] at h
    cases h
    exact .inl ⟨r, hret, rfl⟩
  · cases h
    exact .inr rfl

theorem enterMsgLoop_move {k : RecvK} {x : Core × Thread} (hw : c.RingsOk N) (hr : t.Resting)
    (h : enterMsgLoop cfg p k c t = .ok x) : Moves N p a c t x := by
  rcases enterMsgLoop_ok h with ⟨r, hret, rfl⟩ | rfl
  · exact hr.finish_moves hw hret
  · exact hr.skip hw (hr.keeps rfl rfl rfl rfl rfl rfl rfl (fun _ => rfl)) rfl rfl rfl

/-- The call message is consumed; its arguments, if any, are still announced by the next. -/
theorem recvHeader_move {argc : ℕ} {x : Core × Thread} {m : CtrlMsg} {ms : List CtrlMsg}
    (hN : cfg.ctlQueCnt p = N) (hw : c.RingsOk N) (hr : t.Resting)
    (hq : (c.rx p).msgQue = m :: ms) (hms : m.cnt = 0 ∨ ms ≠ [])
    (h : recvHeader cfg p argc c t = .ok x) : Moves N p a c t x := by
  unfold recvHeader at h
  simp only at h
  split at h
  · rename_i hrtn
    cases h
    refine ⟨hw, ?_⟩
    simp only [← lane_rx c p N]
    exact .again (n := 0) hrtn.1 (by rw [lane_rx]; exact hrtn.2) hr (.inl rfl)
  rename_i hrtn
  split at h
  · cases h
  rename_i m1 ms1 hq1
  obtain ⟨rfl, rfl⟩ : m = m1 ∧ ms = ms1 := by rw [hq] at hq1; cases hq1; exact ⟨rfl, rfl⟩
  split at h
  · cases h
  rename_i hm
  simp only [not_or, not_not, not_lt] at hm
  obtain ⟨hcmd, hdq, hargc⟩ := hm
  obtain ⟨c2, h1, h2⟩ := bind_ok.1 h
  -- the host notes the announced count
  generalize hc1 : (if p = .host then c.setRx p { c.rx p with recvRtnArgc := m.cnt } else c) = c1 at h1
  have hl1 : c1.RingsOk N ∧ c1.lane p N = c.lane p N ∧
      c1.lane p.other N = { c.lane p.other N with rx := (c.lane p.other N).rx.setArgc p m.cnt } := by
    rw [← hc1]
    unfold Rx.setArgc
    split
    · exact ⟨setRx_rings (by rfl) hw, (setRx_lane (by rfl)).1,
        (setRx_lane (by rfl)).2.trans (by rw [lane_rx])⟩
    · exact ⟨hw, rfl, rfl⟩
  obtain ⟨hw1, ha1, hb1⟩ := hl1
  obtain ⟨m', ms', b, hq', hb, hw2, ha2, hb2⟩ := finishBlk_lane hN hw1 h1
  rw [hb1] at hq' hb hb2 ha2
  simp only [Rx.setArgc_msgQue, Rx.setArgc_param, Rx.setArgc_blkIdx, lane_rx] at hq' hb ha2
  obtain ⟨rfl, rfl⟩ : m = m' ∧ ms = ms' := by rw [hq] at hq'; cases hq'; exact ⟨rfl, rfl⟩
  rw [ha1, ← lane_rx _ _ N] at ha2
  rw [← lane_rx _ _ N] at hq hb
  split at h2
  · rename_i hcnt
    cases h2
    have hz : (c.lane p.other N).rx.recvRtnArgc = 0 ∨ p = .model := by
      rw [lane_rx]
      cases p
      · exact .inl (by simpa using hrtn)
      · exact .inr rfl
    rw [hcnt, Rx.setArgc_zero hz] at hb2
    refine ⟨by simpa [Core.RingsOk, deliver] using hw2, ?_⟩
    rw [(deliver_lane _).1, (deliver_lane _).2, ha2, hb2]
    exact .call0 hr hz hq hcmd hdq hcnt hb
  · rename_i hcnt
    cases h2
    refine ⟨hw2, ?_⟩
    rw [ha2, hb2]
    exact .callHdr hr (Nat.pos_of_ne_zero hcnt) hargc hq (hms.resolve_left hcnt) hcmd hdq hb

/-- Popping a block without data. -/
theorem ctlBlk_move {m : CtrlMsg} {ms : List CtrlMsg} {x : Ctl}
    (hN : cfg.ctlQueCnt p = N) (hw : c.RingsOk N) (hr : t.Resting)
    (hq : (c.rx p).msgQue = m :: ms) (hcmd : m.cmd = p.other.cmdRdy) (hdq : m.dq = x.dq)
    (h : finishBlk cfg p c = .ok c') (hk : Keeps a t t') (hrx : t'.pc.view.rxMode = .none)
    (hflush : t'.pc.view.flushing = none) (hclean : t'.pc.view.clean = false) :
    Moves N p a c t (c'.deliver p.other [x.item], t') := by
  obtain ⟨m', ms', b, hq', hb, hw1, ha1, hb1⟩ := finishBlk_lane hN hw h
  obtain ⟨rfl, rfl⟩ : m = m' ∧ ms = ms' := by
    rw [lane_rx, hq] at hq'; cases hq'; exact ⟨rfl, rfl⟩
  refine ⟨by simpa [Core.RingsOk, deliver] using hw1, ?_⟩
  simp only [(deliver_lane _).1, (deliver_lane _).2, ha1, hb1]
  exact .ctlBlk x hr hk hrx hflush hclean hq' hcmd hdq hb

theorem argsType_ne (p : Party) : p.argsType ≠ .hostMsg ∧ p.argsType ≠ .hostData ∧
    p.argsType ≠ .hostDataMarker := by
  cases p <;> decide

/-- The user message at the front is taken. -/
theorem recvd_hostMsg_move {x : Core × Thread} {m : CtrlMsg} {ms : List CtrlMsg} {ty : ℕ}
    (hw : c.RingsOk N) (hr : t.Resting) (hq : (c.rx p).msgQue = m :: ms) (hcmd : m.cmd = .user ty)
    (h : recvd cfg p .hostMsg .hostMsg c t = .ok x) : Moves N p a c t x := by
  simp only [recvd, ne_eq, not_true_eq_false, if_false] at h
  split at h
  · cases h
  rename_i m1 ms1 hq1
  obtain ⟨c1, h1, h2⟩ := bind_ok.1 h
  cases h2
  obtain ⟨m2, ms2, hq2, hw1, ha1, hb1⟩ := nextMsgQue_lane hw h1
  rw [lane_rx, hq] at hq2
  cases hq2
  rw [hq] at hq1
  cases hq1
  refine ⟨by simpa [Core.RingsOk, deliver] using hw1, ?_⟩
  simp only [(deliver_lane _).1, (deliver_lane _).2, ha1, hb1]
  exact .msg hr (by rw [lane_rx]; exact hq) hcmd (by simp)

/-- The type `MsgLoop` returned is taken up by the operation that called it. -/
theorem recvd_move {k : RecvK} {ty : RecvType} {x : Core × Thread}
    (hN : cfg.ctlQueCnt p = N) (hw : c.RingsOk N) (hr : t.Resting)
    (ht : TurnSpec N p c (.recv ty c')) (h : recvd cfg p k ty c' t = .ok x) : Moves N p a c t x := by
  cases ht with
  | @data m ms _ _ hq hcmd hdq hw' ha hb hty =>
    have hann : ∀ {t'}, Keeps a t t' → t'.pc.view.flushing = none → t'.pc.view.clean = false →
        (t'.pc.view.rxMode = .none ∨ t'.pc.view.rxMode = .body) → Moves N p a c t (c', t') := by
      intro t' hk h1 h2 h3
      refine ⟨hw', ?_⟩
      simp only [ha, hb]
      exact .announce hr hk h1 h2 (by rw [lane_rx]; exact hq) hcmd hdq h3
    have hfin : ∀ {r}, ¬ Ret.isArgs (some r) → Moves N p a c t (c', t.finish r []) :=
      fun h1 => hann (hr.finish h1) rfl rfl (.inl rfl)
    cases k with
    | poll => cases h; exact hfin (by simp)
    | hostMsg =>
      simp only [recvd] at h
      split at h
      · cases h; exact hfin (by simp)
      · rename_i hne
        rcases hty with rfl | ⟨-, -, rfl⟩ <;> simp at hne
    | peek =>
      simp only [recvd] at h
      split at h
      · cases h; exact hfin (by simp)
      split at h
      · cases h
      · cases h; exact hfin (by simp)
    | marker =>
      simp only [recvd] at h
      split at h
      · cases h; exact hfin (by simp)
      · rename_i hne
        rcases hty with rfl | ⟨-, -, rfl⟩ <;> simp at hne
    | data =>
      simp only [recvd] at h
      split at h
      · cases h; exact hfin (by simp)
      · cases h
        exact hann (hr.keeps rfl rfl rfl rfl rfl rfl rfl (fun _ => rfl)) rfl rfl (.inr rfl)
    | args argc =>
      simp only [recvd] at h
      split at h
      · cases h; exact hfin (by simp)
      rename_i hne
      rcases hty with rfl | ⟨rfl, hrtn, rfl⟩
      · exact absurd (not_not.1 hne) (argsType_ne p).2.1.symm
      · have hrtn' : 0 < (c'.rx .host).recvRtnArgc := by
          rw [← lane_rx _ _ N, hb, Rx.announce, lane_rx]; exact hrtn
        simp only [recvHeader, hrtn', and_self, if_true] at h
        cases h
        refine ⟨hw', ?_⟩
        simp only [ha, hb, ← lane_rx c' _ N]
        exact .again rfl (by rw [lane_rx]; exact hrtn) hr (.inr rfl)
  | @marker m ms hq hcmd hdq =>
    cases k with
    | marker =>
      simp only [recvd, ne_eq, not_true_eq_false, if_false] at h
      obtain ⟨c1, h1, h2⟩ := bind_ok.1 h
      cases h2
      exact ctlBlk_move (x := .marker) hN hw hr hq hcmd hdq h1 (hr.finish (by simp)) rfl rfl rfl
    | args argc =>
      simp only [recvd, ne_eq, (argsType_ne p).2.2.symm, not_false_eq_true, if_true] at h
      cases h
      exact hr.finish_moves hw (by simp)
    | _ => cases h; exact hr.finish_moves hw (by simp)
  | @call m ms hq hcmd hdq hms =>
    obtain ⟨h1, h2, h3⟩ := argsType_ne p
    cases k with
    | args argc =>
      simp only [recvd, ne_eq, not_true_eq_false, if_false] at h
      exact recvHeader_move hN hw hr hq hms h
    | _ =>
      simp only [recvd, ne_eq, h1, h2, h3, not_false_eq_true, if_true] at h
      cases h
      exact hr.finish_moves hw (by simp)
  | @msg m ms ty hq hcmd =>
    cases k with
    | hostMsg => exact recvd_hostMsg_move hw hr hq hcmd h
    | args argc =>
      simp only [recvd, ne_eq, (argsType_ne p).1.symm, not_false_eq_true, if_true] at h
      cases h
      exact hr.finish_moves hw (by simp)
    | _ => cases h; exact hr.finish_moves hw (by simp)

/-- `MsgLoop` calls back: the application goes on as at rest. -/
theorem callback_move {k : RecvK} {ty : RecvType} (hw : c.RingsOk N) (hr : t.Resting)
    (ht : TurnSpec N p c (.recv ty c')) :
    Moves N p a c t (c', { t with pc := .idle, frames := k :: t.frames }) := by
  have hk : Keeps a t { t with pc := .idle, frames := k :: t.frames } :=
    hr.keeps rfl rfl rfl rfl rfl rfl rfl (fun _ => rfl)
  cases ht with
  | @data m ms _ _ hq hcmd hdq hw' ha hb hty =>
    refine ⟨hw', ?_⟩
    simp only [ha, hb]
    exact .announce hr hk rfl rfl (by rw [lane_rx]; exact hq) hcmd hdq (.inl rfl)
  | _ => exact hr.skip hw hk rfl rfl rfl

theorem msgLoop_move {k : RecvK} {x : Core × Thread} (hN : cfg.ctlQueCnt p = N) (hw : c.RingsOk N)
    (hpc : t.pc = .msgLoop k) (h : msgLoop cfg p k c t = .ok x) : Moves N p a c t x := by
  have hr : t.Resting := ⟨by simp [hpc, Pc.view], by simp [hpc, Pc.view], by simp [hpc, Pc.view], by simp [hpc, Pc.view], by simp [hpc, Pc.view]⟩
  have hturn := turn_spec (p := p) hw
  unfold msgLoop at h
  generalize turn p c = tn at h hturn
  cases tn with
  | idle =>
    obtain ⟨r, hret, he⟩ := recvd_idle cfg p k c t
    simp only [he] at h
    cases h
    exact hr.finish_moves hw hret
  | fail => cases h
  | next c1 =>
    cases h
    cases hturn with
    | setup hq hs hhost hw1 ha hb =>
      refine ⟨hw1, ?_⟩
      simp only [ha, hb]
      exact .setup (by rw [lane_rx]; exact hq) hs hhost
  | recv ty c1 =>
    simp only at h
    split at h
    · cases h
      exact callback_move hw hr hturn
    · exact recvd_move hN hw hr hturn h
  | halt =>
    cases hturn with
    | halt hq hcmd hdq =>
      obtain ⟨c1, h1, h2⟩ := bind_ok.1 h
      cases p with
      | host =>
        obtain ⟨r, hret, he⟩ := recvd_halt cfg .host k (c1.deliver .model [.halt]) t
        simp only [Party.other, he] at h2
        cases h2
        exact ctlBlk_move (x := .halt) hN hw hr hq hcmd hdq h1 (hr.finish hret) rfl rfl rfl
      | model =>
        cases h2
        exact ctlBlk_move (x := .halt) hN hw hr hq hcmd hdq h1
          (hr.keeps rfl rfl rfl rfl rfl rfl rfl (fun _ => rfl)) rfl rfl rfl

/-- The arguments of a call are copied out of their block. -/
theorem recvArgv_move {argc n : ℕ} {x : Core × Thread} (hN : cfg.ctlQueCnt p = N) (hw : c.RingsOk N)
    (hpc : t.pc = .recvArgs argc n) (h : recvArgv cfg p argc n c t = .ok x) : Moves N p a c t x := by
  unfold recvArgv at h
  simp only at h
  split at h
  · cases h
  rename_i m ms hq
  rw [← lane_rx _ _ N] at hq
  split at h
  · rename_i hcmd
    split at h
    · rename_i hp
      cases h
      exact ⟨hw, .abandon hp hpc hq hcmd⟩
    · cases h
  rename_i hcmd
  split at h
  · cases h
  rename_i hdq
  simp only [not_or, not_not] at hcmd hdq
  split at h
  · cases h
  rename_i b hb
  obtain ⟨c1, h1, h2⟩ := bind_ok.1 h
  obtain ⟨m', ms', b', hq', hb', hw1, ha1, hb1⟩ := finishBlk_lane hN hw h1
  rw [hq] at hq'
  cases hq'
  rw [lane_rx, hb] at hb'
  cases hb'
  cases h2
  have hend : ∀ l : List Item, ∀ d : Core, d = (if p = .host then c1.setRx p { c1.rx p with recvRtnArgc := 0 }
      else c1) → (d.deliver p.other l).RingsOk N ∧ (d.deliver p.other l).lane p N = c1.lane p N ∧
        (d.deliver p.other l).lane p.other N =
          { c1.lane p.other N with rx := (c1.lane p.other N).rx.setArgc p 0 }.deliver l := by
    rintro l d rfl
    rw [(deliver_lane _).1, (deliver_lane _).2]
    unfold Rx.setArgc
    split
    · refine ⟨by simpa [Core.RingsOk, deliver] using setRx_rings (by rfl) hw1,
        (setRx_lane (by rfl)).1, ?_⟩
      rw [(setRx_lane (by rfl)).2, lane_rx]
    · exact ⟨by simpa [Core.RingsOk, deliver] using hw1, rfl, rfl⟩
  obtain ⟨hw2, ha2, hb2⟩ := hend _ _ rfl
  refine ⟨hw2, ?_⟩
  simp only
  rw [ha2, hb2, ha1, hb1]
  refine .args hpc hq hcmd hdq.1 hdq.2 (by rw [lane_rx]; exact hb) ?_
  rw [lane_rx]; rfl

/-- The loop body of `RecvHostData`. -/
theorem recvBody_move {n r : ℕ} {x : Core × Thread} (hN : cfg.ctlQueCnt p = N) (hw : c.RingsOk N)
    (hpc : t.pc = .recvBody n r) (h : run cfg p c t = .ok x) : Moves N p a c t x := by
  simp only [run, hpc] at h
  obtain ⟨hw1, hlen, ha1, hb1⟩ := copyFromBlk_lane (p := p) hw (n - r)
  generalize copyFromBlk p (n - r) c = y at *
  obtain ⟨data, c1⟩ := y
  simp only at h hw1 hlen ha1 hb1
  set B := c.lane p.other N with hB
  have hsize : (c1.rx p).blkDataSize = B.rx.blkDataSize - min B.rx.blkDataSize (n - r) := by
    rw [← lane_rx _ _ N, hb1]; rfl
  split at h
  · rename_i h0
    obtain ⟨c2, h1, h2⟩ := bind_ok.1 h
    cases h2
    have hmin : min B.rx.blkDataSize (n - r) = B.rx.blkDataSize := by omega
    obtain ⟨m, ms, b, hq, hb, hw2, ha2, hb2⟩ := finishBlk_lane hN hw1 h1
    rw [hb1, hmin] at hq hb hb2 ha2
    refine ⟨hw2, ?_⟩
    simp only [ha2, hb2, ha1, hlen, hmin]
    exact .whole hpc (by rw [← hB]; omega) hq hb
  · rename_i h0
    cases h
    refine ⟨hw1, ?_⟩
    simp only [ha1, hb1, hlen]
    exact .part hpc rfl (by rw [← hB]; omega)

/-! ### Sending operations -/

theorem flush_moves (hN : cfg.ctlQueCnt p = N) (hw : c.RingsOk N)
    (hk : Keeps a t t') (hflush : t'.pc.view.flushing = none) (hrx : t'.pc.view.rxMode = t.pc.view.rxMode)
    (hargs : t.pc.view.args.isSome → t.pc.view.stuck) (hunsent : t.pc.view.unsent = [])
    (h : flushTxBlk cfg p 0 c = .ok c') :
    Moves N p a c t (c', t') := by
  obtain ⟨hw1, hb1, h1⟩ := flushTxBlk_lane hN hw h
  refine ⟨hw1, ?_⟩
  simp only [hb1]
  apply Move.flush hk hflush hrx hargs hunsent
  rcases h1 with ⟨h0, -, he⟩ | ⟨h0, hpos, hb⟩
  · exact .inl ⟨h0, he⟩
  · exact .inr ⟨h0.resolve_right (by simp), hpos, hb⟩

theorem sendCtl_move {ctl : Ctl} {k : Option RecvK} {x : Core × Thread}
    (hN : cfg.ctlQueCnt p = N) (hw : c.RingsOk N)
    (hpc : t.pc = .ctlTest ctl k ∨ t.pc = .ctlLock ctl k)
    (h : sendCtl cfg p ctl k c t = .ok x) : Moves N p a c t x := by
  obtain ⟨c1, h1, h2⟩ := bind_ok.1 h
  obtain ⟨hw1, hb1, hf⟩ := flushTxBlk_lane hN hw h1
  obtain ⟨hpos, b, hb, ha1⟩ : 0 < (c.lane p N).tx.blkAvailCnt ∧ ∃ b, (c.lane p N).tx.param = some b ∧
      c1.lane p N = (c.lane p N).flush p b ctl.dq := by
    rcases hf with ⟨-, h0, -⟩ | ⟨-, hpos, hb⟩
    · cases ctl <;> cases h0
    · exact ⟨hpos, hb⟩
  have hend : ∀ t', t'.pc = .idle → t'.done = t.done ++ [ctl.item] → ¬ Ret.isArgs t'.ret →
      Moves N p a c t (c1.accept p [ctl.item], t') := by
    intro t' h1 h2 h3
    refine ⟨by simpa [Core.RingsOk, accept] using hw1, ?_⟩
    simp only [(accept_lane _).1, (accept_lane _).2, ha1, hb1]
    exact .ctl ctl hpc h1 hpos hb h2 h3
  cases k with
  | none => cases h2; exact hend _ rfl rfl (by simp [Thread.finish])
  | some k =>
    obtain ⟨r, hret, he⟩ := recvd_halt cfg p k (c1.accept p [ctl.item])
      { t with haltSeen := true, done := t.done ++ [ctl.item] }
    simp only [he] at h2
    cases h2
    exact hend _ rfl (by simp [Thread.finish]) hret

theorem flushIfFull_lane (hN : cfg.ctlQueCnt p = N) (hw : c.RingsOk N) {b : BlkParam}
    (hb : (c.lane p N).tx.param = some b) (h : flushIfFull cfg p c = .ok c') :
    c'.RingsOk N ∧ c'.lane p.other N = c.lane p.other N ∧ (c.lane p N).Filled p b (c'.lane p N) := by
  unfold flushIfFull at h
  simp only [lane_tx] at h hb
  simp only [hb] at h
  split at h
  · cases h
  rename_i hle
  split at h
  · rename_i heq
    obtain ⟨hw1, hb1, hf⟩ := flushTxBlk_lane hN hw h
    refine ⟨hw1, hb1, le_of_eq heq, ?_⟩
    rcases hf with ⟨h0, -, he⟩ | ⟨h0, hpos, b', hb', he⟩
    · exact .inl ⟨he, .inr (by rw [← heq]; exact h0)⟩
    · rw [lane_tx, hb] at hb'
      cases hb'
      exact .inr ⟨heq, by rw [← heq]; exact h0.resolve_right (by simp), hpos, he⟩
  · rename_i hne
    cases h
    have hlt : (c.tx p).blkWrIdx < b.size := by omega
    exact ⟨hw, rfl, hlt.le, .inl ⟨rfl, .inl hlt⟩⟩

theorem sendChunk_lane {host : Bool} {rest : List Qw} {cnt : ℕ} (hN : cfg.ctlQueCnt p = N)
    (hw : c.RingsOk N) (h : sendChunk cfg p host rest c = .ok (cnt, c')) :
    0 < (c.lane p N).tx.blkAvailCnt ∧ ∃ b chunk, (c.lane p N).tx.param = some b ∧
      chunk = rest.take (b.size - (c.lane p N).tx.blkWrIdx) ∧ cnt = chunk.length ∧ c'.RingsOk N ∧
      c'.lane p.other N = c.lane p.other N ∧
      (if host then ((c.lane p N).write chunk).accept (chunk.map .qw)
        else (c.lane p N).write chunk).Filled p b (c'.lane p N) := by
  unfold sendChunk at h
  split at h
  · cases h
  rename_i hpos
  obtain ⟨⟨chunk, c1⟩, h1, h2⟩ := bind_ok.1 h
  obtain ⟨b, hb, hchunk, hw1, ha1, hb1⟩ := copyToBlk_lane hw h1
  obtain ⟨c2, h3, h4⟩ : ∃ c2, flushIfFull cfg p (if host then c1.accept p (chunk.map .qw) else c1) =
      .ok c2 ∧ (chunk.length, c2) = (cnt, c') := by
    cases host <;> obtain ⟨c2, h3, h4⟩ := bind_ok.1 h2 <;> exact ⟨c2, h3, by cases h4; rfl⟩
  cases h4
  obtain ⟨hw2, ha2, hb2⟩ : (if host then c1.accept p (chunk.map .qw) else c1).RingsOk N ∧
      (if host then c1.accept p (chunk.map .qw) else c1).lane p N =
        (if host then ((c.lane p N).write chunk).accept (chunk.map .qw) else (c.lane p N).write chunk) ∧
      (if host then c1.accept p (chunk.map .qw) else c1).lane p.other N = c.lane p.other N := by
    cases host
    · exact ⟨hw1, ha1, hb1⟩
    · exact ⟨by simpa [Core.RingsOk, accept] using hw1, by simp [(accept_lane _).1, ha1],
        by simp [(accept_lane _).2, hb1]⟩
  have hb' : ((if host then c1.accept p (chunk.map .qw) else c1).lane p N).tx.param = some b := by
    rw [ha2]; cases host <;> exact hb
  obtain ⟨hw3, hb3, hf⟩ := flushIfFull_lane hN hw2 hb' h3
  rw [ha2] at hf
  exact ⟨by simpa [lane_tx] using hpos, b, chunk, hb, hchunk, rfl, hw3, hb3.trans hb2, hf⟩

/-- A thread that waits for a credit moves on. -/
theorem wait_moves (hw : c.RingsOk N) {pc : Pc} (hargs : pc.view.args = t.pc.view.args)
    (hunsent : pc.view.unsent = t.pc.view.unsent) (hargv : pc.view.argv = none ∨ pc.view.argv = t.pc.view.argv)
    (huser : pc.view.user = none) (hstuck : pc.view.stuck → t.pc.view.stuck) (hprog : pc.view.prog = t.pc.view.prog) (hclean : pc.view.clean → t.pc.view.clean)
    (hflush : pc.view.flushing = t.pc.view.flushing) (hrx : pc.view.rxMode = t.pc.view.rxMode) :
    Moves N p a c t (c, t.goto pc) := by
  refine ⟨hw, .skip ⟨hargs, hunsent, ?_, ?_, hstuck, ?_, fun _ => rfl⟩ hclean hflush hrx⟩
  · intro x hx
    rcases hargv with h | h
    · simp [Thread.goto, h] at hx
    · exact .inl (by rw [← h]; exact hx)
  · simp [Thread.goto, huser]
  · simp [Thread.sent, Thread.goto, hprog]

/-- A sending operation ends without sending any more. -/
theorem finish_moves (hw : c.RingsOk N) {r : Ret} {l : List Item} (hargs : t.pc.view.args = none)
    (hunsent : t.pc.view.unsent = []) (hprog : t.pc.view.prog = l) (hret : ¬ Ret.isArgs (some r))
    (hflush : t.pc.view.flushing = none) (hrx : t.pc.view.rxMode = .none) :
    Moves N p a c t (c, t.finish r l) := by
  refine ⟨hw, .skip ⟨?_, ?_, ?_, ?_, ?_, ?_, ?_⟩ ?_ ?_ ?_⟩ <;>
    simp_all [Thread.finish, Thread.sent, Pc.view]

/-- **Every step of an application thread is a move.** -/
theorem run_move {x : Core × Thread} (hN : cfg.ctlQueCnt p = N) (hw : c.RingsOk N)
    (h : run cfg p c t = .ok x) : Moves N p a c t x := by
  cases hpc : t.pc with
  | idle => simp [run, hpc] at h
  | ctor ms =>
    cases ms with
    | nil =>
      simp only [run, hpc] at h
      cases h
      apply wait_moves hw <;> simp [hpc, Pc.view]
    | cons m ms =>
      simp only [run, hpc] at h
      obtain ⟨c1, h1, h2⟩ := bind_ok.1 h
      cases h2
      obtain ⟨hw1, ha1, hb1⟩ := sendMsgInternal_lane hN hw h1
      refine ⟨hw1, ?_⟩
      simp only [ha1, hb1]
      exact .ctor hpc
  | que k =>
    simp only [run, hpc] at h
    split at h
    · cases h
      cases k <;> apply wait_moves hw <;> simp [hpc, QueK.pc, Pc.view]
    · rename_i c1 hq
      cases h
      obtain ⟨m, l, hlive, hw1, hm⟩ := queMsg_lane hN hw hq
      refine ⟨hw1, ?_⟩
      rcases hm with ⟨hcmd, ha1, hb1⟩ | ⟨hcmd, ha1, hb1⟩
      · simp only [ha1, hb1]; exact .credit hlive hcmd
      · simp only [ha1, hb1]; exact .que hlive hcmd
  | sendData d n =>
    simp only [run, hpc] at h
    split at h
    · cases h
      apply finish_moves hw <;> simp [hpc, Pc.view]
    rename_i hlt
    split at h
    · cases h
      apply wait_moves hw <;> simp [hpc, Pc.view]
    · obtain ⟨⟨cnt, c1⟩, h1, h2⟩ := bind_ok.1 h
      cases h2
      obtain ⟨hpos, b, chunk, hb, hchunk, rfl, hw1, hb1, hf⟩ := sendChunk_lane hN hw h1
      refine ⟨hw1, ?_⟩
      simp only [hb1]
      exact .data hpc (by omega) hpos hb hchunk hf
  | sendDataLock d n =>
    simp only [run, hpc] at h
    split at h <;> cases h
    · apply finish_moves hw <;> simp [hpc, Pc.view]
    · apply wait_moves hw <;> simp [hpc, Pc.view]
  | ctlTest ctl k =>
    simp only [run, hpc] at h
    split at h
    · cases h
      apply wait_moves hw <;> simp [hpc, Pc.view]
    · exact sendCtl_move hN hw (.inl hpc) h
  | ctlLock ctl k =>
    simp only [run, hpc] at h
    split at h
    · split at h <;> cases h
      · apply finish_moves hw <;> simp [hpc, Pc.view]
      · apply wait_moves hw <;> simp [hpc, Pc.view]
    · exact sendCtl_move hN hw (.inr hpc) h
  | haltFlush k =>
    simp only [run, hpc] at h
    obtain ⟨c1, h1, h2⟩ := bind_ok.1 h
    cases h2
    refine flush_moves hN hw ⟨?_, ?_, ?_, ?_, ?_, ?_, fun _ => rfl⟩ ?_ ?_ ?_ ?_ h1 <;>
      simp [Thread.goto, Thread.sent, hpc, Pc.view]
  | msgSend m =>
    simp only [run, hpc] at h
    obtain ⟨c1, h1, h2⟩ := bind_ok.1 h
    cases h2
    obtain ⟨hw1, ha1, hb1⟩ := sendMsgInternal_lane hN hw h1
    refine ⟨by simpa [Core.RingsOk, accept] using hw1, ?_⟩
    simp only [(accept_lane _).1, (accept_lane _).2, ha1, hb1]
    exact .user m hpc
  | callTest argv =>
    simp only [run, hpc] at h
    split at h
    · cases h
      apply wait_moves hw <;> simp [hpc, Pc.view]
    rename_i htwo
    obtain ⟨c1, h1, h2⟩ := bind_ok.1 h
    cases h2
    obtain ⟨-, b, hb, hw1, ha1, hb1⟩ := nextTxBlk_lane hw h1
    refine ⟨hw1, ?_⟩
    simp only [ha1, hb1]
    exact .take (.inl hpc) (by rw [lane_tx]; omega) hb
  | callLock argv =>
    simp only [run, hpc] at h
    split at h
    · cases h
      apply finish_moves hw <;> simp [hpc, Pc.view]
    rename_i htwo
    obtain ⟨c1, h1, h2⟩ := bind_ok.1 h
    cases h2
    obtain ⟨-, b, hb, hw1, ha1, hb1⟩ := nextTxBlk_lane hw h1
    refine ⟨hw1, ?_⟩
    simp only [ha1, hb1]
    exact .take (.inr hpc) (by rw [lane_tx]; omega) hb
  | callData argv n =>
    simp only [run, hpc] at h
    split at h
    · rename_i hle
      cases h
      apply wait_moves hw <;> simp [hpc, Pc.view, List.take_of_length_le hle]
    rename_i hlt
    split at h
    · rename_i hav
      cases h
      exact ⟨hw, .exhaust hpc (by omega) hav⟩
    · obtain ⟨⟨cnt, c1⟩, h1, h2⟩ := bind_ok.1 h
      cases h2
      obtain ⟨hpos, b, chunk, hb, hchunk, rfl, hw1, hb1, hf⟩ := sendChunk_lane hN hw h1
      refine ⟨hw1, ?_⟩
      simp only [hb1]
      exact .arg hpc (by omega) hpos hb hchunk hf
  | callDataLock argv n =>
    simp only [run, hpc] at h
    split at h
    · cases h
    · cases h
      apply wait_moves hw <;> simp [hpc, Pc.view]
  | callPost argv =>
    simp only [run, hpc] at h
    obtain ⟨c1, h1, h2⟩ := bind_ok.1 h
    cases h2
    obtain ⟨hw1, ha1, hb1⟩ := sendMsgInternal_lane hN hw h1
    refine ⟨by simpa [Core.RingsOk, accept] using hw1, ?_⟩
    simp only [(accept_lane _).1, (accept_lane _).2, ha1, hb1]
    exact .postCall hpc
  | callFlush argv =>
    simp only [run, hpc] at h
    obtain ⟨c1, h1, h2⟩ := bind_ok.1 h
    split at h2
    · cases h2
    cases h2
    refine flush_moves hN hw ⟨?_, ?_, ?_, ?_, ?_, ?_, ?_⟩ ?_ ?_ ?_ ?_ h1 <;>
      simp [Thread.finish, Thread.sent, hpc, Pc.view]
  | msgLoop k => simp only [run, hpc] at h; exact msgLoop_move hN hw hpc h
  | recvData n r =>
    have hr : t.Resting := ⟨by simp [hpc, Pc.view], by simp [hpc, Pc.view], by simp [hpc, Pc.view], by simp [hpc, Pc.view], by simp [hpc, Pc.view]⟩
    simp only [run, hpc] at h
    split at h
    · cases h
      exact hr.finish_moves hw (by simp)
    split at h
    · rename_i hpos
      cases h
      exact ⟨hw, .resume hpc (by rw [lane_rx]; exact hpos)⟩
    · exact enterMsgLoop_move hw hr h
  | recvBody n r => exact recvBody_move hN hw hpc h
  | recvArgs argc n => simp only [run, hpc] at h; exact recvArgv_move hN hw hpc h

/-- **The first step of an operation is a move.** -/
theorem call_move {op : Op} {x : Core × Thread} (hN : cfg.ctlQueCnt p = N) (hw : c.RingsOk N)
    (hpc : t.pc = .idle) (h : call cfg p op c t = .ok x) : Moves N p (.call p op) c t x := by
  have hv : t.pc.view = {} := by simp [hpc, Pc.view]
  have hr : t.Resting := ⟨by simp [hpc, Pc.view], by simp [hpc, Pc.view], by simp [hpc, Pc.view], by simp [hpc, Pc.view], by simp [hpc, Pc.view]⟩
  have hfin : ∀ r, ¬ Ret.isArgs (some r) →
      Moves N p (.call p op) c t (c, { t with ret := none }.finish r []) := fun r hret =>
    hr.skip hw (hr.keeps rfl rfl rfl rfl rfl rfl (by simp [Thread.finish]) (fun h' => absurd h' hret))
      rfl rfl rfl
  have hgo : ∀ pc : Pc, pc.view.args = none → pc.view.unsent = [] → pc.view.argv = none →
      pc.view.user = none → pc.view.stuck = false → pc.view.prog = [] → pc.view.clean = false → pc.view.flushing = none → pc.view.rxMode = .none →
      Moves N p (.call p op) c t (c, { t with ret := none }.goto pc) := by
    intro pc h1 h2 h3 h0 h4 h5 h6 h7 h8
    exact hr.skip hw (hr.keeps h1 h2 h3 h0 h4 h5 rfl (by simp [Thread.goto])) h6 h7 h8
  have henter : ∀ k, enterMsgLoop cfg p k c { t with ret := none } = .ok x →
      Moves N p (.call p op) c t x := by
    intro k hk
    rcases enterMsgLoop_ok hk with ⟨r, hret, rfl⟩ | rfl
    · exact hfin r hret
    · exact hgo _ rfl rfl rfl rfl rfl rfl rfl rfl rfl
  have hflush : ∀ pc : Pc, (flushTxBlk cfg p 0 c >>= fun c =>
      Except.ok (c, { t with ret := none }.goto pc)) = Except.ok x → pc.view.args = none →
      pc.view.unsent = [] → (∀ y, pc.view.argv = some y → (Act.call p op).argv = some y) →
      (∀ m, pc.view.user = some m → (Act.call p op).user = some m) → pc.view.stuck = false →
      pc.view.prog = [] → pc.view.flushing = none → pc.view.rxMode = .none → Moves N p (.call p op) c t x := by
    intro pc hf h1 h2 h3 h0 h4 h5 h6 h7
    obtain ⟨c1, hf1, hf2⟩ := bind_ok.1 hf
    cases hf2
    refine flush_moves hN hw
      ⟨?_, ?_, fun y hy => .inr (h3 y hy), fun m hm => .inr (h0 m hm), ?_, ?_, ?_⟩ ?_ ?_ ?_ ?_ hf1 <;>
      simp [Thread.goto, Thread.sent, hv, h1, h2, h4, h5, h6, h7]
  cases op with
  | sendHostData d => cases h; exact hgo _ rfl rfl rfl rfl rfl rfl rfl rfl rfl
  | flushHostData =>
    obtain ⟨c1, hf1, hf2⟩ := bind_ok.1 h
    cases hf2
    refine flush_moves hN hw ⟨?_, ?_, ?_, ?_, ?_, ?_, ?_⟩ ?_ ?_ ?_ ?_ hf1 <;>
      simp [Thread.finish, Thread.sent, hpc, Pc.view]
  | sendHostDataMarker => exact hflush _ h rfl rfl (by simp [Pc.view]) (by simp [Pc.view]) rfl rfl rfl rfl
  | sendHostHalt =>
    simp only [call] at h
    split at h
    · exact hflush _ h rfl rfl (by simp [Pc.view]) (by simp [Pc.view]) rfl rfl rfl rfl
    · cases h
  | sendHostMsg m => exact hflush _ h rfl rfl (by simp [Pc.view]) (fun m hm => hm) rfl rfl rfl rfl
  | sendCall args =>
    simp only [call] at h
    split at h
    · exact hflush _ h rfl rfl (fun y hy => hy) (by simp [Pc.view]) rfl rfl rfl rfl
    · cases h
  | sendReturn argv =>
    simp only [call] at h
    split at h
    · exact hflush _ h rfl rfl (fun y hy => hy) (by simp [Pc.view]) rfl rfl rfl rfl
    · cases h
  | recvPoll a b d => exact henter _ h
  | recvHostMsg => exact henter _ h
  | peekHostData =>
    simp only [call] at h
    split at h
    · exact henter _ h
    · cases h; exact hfin _ (by simp)
  | recvHostDataMarker =>
    simp only [call] at h
    split at h
    · cases h; exact hfin _ (by simp)
    · exact henter _ h
  | recvHostData n =>
    simp only [call] at h
    split at h
    · cases h; exact hfin _ (by simp)
    · cases h; exact hgo _ rfl rfl rfl rfl rfl rfl rfl rfl rfl
  | recvArgs argc => exact henter _ h
  | setUsingCallback b => cases h; exact hr.skip hw (hr.keeps rfl rfl rfl rfl rfl rfl
      (by simp [Thread.finish]) (by simp [Thread.finish])) rfl rfl rfl

theorem timer_move {x : Core × Thread} (hN : cfg.ctlQueCnt p = N) (hw : c.RingsOk N)
    (h : timer cfg p c t = .ok x) : Moves N p a c t x := by
  unfold timer at h
  split at h
  · cases h
  rename_i hlock
  obtain ⟨c1, h1, h2⟩ := bind_ok.1 h
  cases h2
  have hpc : t.pc.view.flushing = none ∧ (t.pc.view.args.isSome → t.pc.view.stuck) ∧
      t.pc.view.unsent = [] := by
    cases hpc : t.pc with
    | que k => cases k <;> simp [Pc.view]
    | _ => first | simp [Pc.view]; done | simp [hpc, Pc.locked] at hlock
  exact flush_moves hN hw .rfl' hpc.1 rfl hpc.2.1 hpc.2.2 h1

theorem callbackEnd_move {x : Core × Thread} (hw : c.RingsOk N) (h : callbackEnd c t = .ok x) :
    Moves N p a c t x := by
  unfold callbackEnd at h
  split at h
  · rename_i k ks hpc hfr
    cases h
    have hr : t.Resting := ⟨by simp [hpc, Pc.view], by simp [hpc, Pc.view], by simp [hpc, Pc.view], by simp [hpc, Pc.view], by simp [hpc, Pc.view]⟩
    exact hr.skip hw (hr.keeps rfl rfl rfl rfl rfl rfl rfl (by simp)) rfl rfl rfl
  · cases h

/-- **Every action is a move** of its party, and leaves the other thread alone. -/
theorem exec_move {s s' : Sys} (hN : cfg.ctlQueCnt a.party = N) (hw : s.core.RingsOk N)
    (h : exec cfg s a = .ok s') :
    s'.core.RingsOk N ∧ s'.thr a.party.other = s.thr a.party.other ∧
      Move a.party a (s.core.lane a.party N) (s.core.lane a.party.other N) (s.thr a.party)
        (s'.core.lane a.party N) (s'.core.lane a.party.other N) (s'.thr a.party) := by
  obtain ⟨x, h1, h2⟩ := bind_ok.1 h
  cases h2
  have hm : Moves N a.party a s.core (s.thr a.party) x := by
    cases a with
    | call p op =>
      simp only [Act.exec] at h1
      split at h1
      · rename_i hpc
        exact call_move hN hw hpc h1
      · cases h1
    | run p => exact run_move hN hw h1
    | timer p => exact timer_move hN hw h1
    | callbackEnd p => exact callbackEnd_move hw h1
  exact ⟨hm.1, by simp [Sys.set], by simpa [Sys.set] using hm.2⟩

end OpenHT.Host
