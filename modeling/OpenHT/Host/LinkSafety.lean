import OpenHT.Host.Delivery

/-!
# Safety of the link

* `link_delivers`: what either party received is a prefix of what was sent to it, and all of it when nothing is on
  its way.
* `run_undef`, `call_undef`: where a step can read an uninitialised field.
* `undef_before_setup`: only a model unit that sends before it has looked at its set-up messages does.
-/

namespace OpenHT.Host

open Host.Core Lts

variable {cfg : Cfg} {p : Party} {a : Act} {s : Sys} {c c' : Core} {t : Thread} {ok : Sys → Act → Prop}

/-! ## Delivery -/

def Pc.isIdle : Pc → Bool
  | .idle => true
  | _ => false

theorem Pc.eq_idle {pc : Pc} (h : pc.isIdle = true) : pc = .idle := by
  cases pc with
  | idle => rfl
  | _ => cases h

/-- No message of `p` is on its way, and its sender has nothing in the current block and no operation in progress. -/
structure Sys.AtRest (s : Sys) (p : Party) : Prop where
  pend : (s.core.lane p).pend p = []
  empty : (s.core.tx p).blkWrIdx = 0
  idle : (s.thr p).pc.isIdle = true

/-- Everything that was taken over has been received. -/
theorem Stream.all_received {A B : Lane} {u : Thread} (h : Stream cfg p A t u) (hc : Credit cfg p A B t u)
    (hpend : A.pend p = []) (hempty : A.tx.blkWrIdx = 0) (hidle : t.pc = .idle) : A.got = A.acc := by
  obtain ⟨base, hgot, hacc⟩ := h.content
  -- a block that is partly read would still be on its way
  have hsize : A.rx.blkDataSize = 0 := by
    by_contra hne
    obtain ⟨m, l, hm, -⟩ := h.front_data hc (Nat.pos_of_ne_zero hne)
    rw [hpend] at hm
    cases hm
  have htail : A.tail cfg p t.pc.view = [] := by
    rw [hidle]
    exact tail_empty rfl rfl hempty
  rw [hc.rdIdx hsize] at hgot
  rw [hpend, htail] at hacc
  rw [hgot, hacc]
  simp [Lane.blk, Mem.read]

/-- **Both directions of a link deliver** in order and without loss, in every run in which the calls of the sender fit
one block. -/
theorem link_delivers (h9 : cfg.params.ctlQueW = 9) (hr : Reach (exec cfg) (CallsFit cfg p) (Sys.init cfg) s) :
    s.core.got p <+: (s.thr p).sent ∧ (s.AtRest p → s.core.got p = (s.thr p).sent) := by
  have hok : ∀ s a, CallsFit cfg p s a → CallsFit cfg p s a := fun _ _ h => h
  refine ⟨ reach_prefix h9 hok hr, fun hrest => ?_⟩
  have h := reach_link h9 hok hr
  have hacc : s.core.acc p = (s.thr p).sent := (reach_sender h9 hok hr).sent
  rw [← hacc]
  exact h.stream.all_received h.credit hrest.pend hrest.empty (Pc.eq_idle hrest.idle)

/-- Three quadwords of the host, flushed by the timer and read by the model unit. -/
theorem link_delivers_demo : ∃ s, Lts.run (exec Cfg.default) (Sys.init Cfg.default) demo = .ok s ∧ s.AtRest .host ∧
    s.core.got .host = (s.thr .host).sent := by
  have hrest : (Lts.run (exec Cfg.default) (Sys.init Cfg.default) demo).toOption.map (fun s =>
      ((s.core.lane .host).pend .host, (s.core.tx .host).blkWrIdx, (s.thr .host).pc.isIdle)) =
      some ([], 0, true) := by decide +kernel
  have hcalls : ∀ a ∈ demo, ∀ s, CallsFit Cfg.default .host s a := by
    simp [demo, CallsFit, Act.argv]
  cases h : Lts.run (exec Cfg.default) (Sys.init Cfg.default) demo with
  | error e =>
    rw [h] at hrest
    cases hrest
  | ok s =>
    rw [h] at hrest
    have hall := Option.some.inj hrest
    have hs : s.AtRest .host :=
      ⟨congrArg Prod.fst hall, congrArg (fun x => x.2.1) hall, congrArg (fun x => x.2.2) hall⟩
    exact ⟨s, rfl, hs, (link_delivers rfl (Reach.init.run demo hcalls h)).2 hs⟩

/-! ## Uninitialised fields -/

theorem sendMsgInternal_ne (m : CtrlMsg) : sendMsgInternal cfg p m c ≠ .error .undef := by
  unfold sendMsgInternal
  simp only
  split <;> intro h <;> cases h

theorem sendMsgInternal_rx {m : CtrlMsg} (h : sendMsgInternal cfg p m c = .ok c') : c'.rx = c.rx := by
  unfold sendMsgInternal at h
  simp only at h
  split at h
  · cases h
  · cases h
    rfl

theorem nextTxBlk_undef (h : nextTxBlk p c = .error .undef) : (c.tx p).param = none := by
  unfold nextTxBlk at h
  simp only at h
  split at h
  · cases h
  · cases hb : (c.tx p).param with
    | none => rfl
    | some b =>
      rw [hb] at h
      cases h

theorem flushTxBlk_undef {ctl : ℕ} (h : flushTxBlk cfg p ctl c = .error .undef) : (c.tx p).param = none := by
  unfold flushTxBlk at h
  simp only at h
  split at h
  · cases h
  · rcases bind_error.1 h with h | ⟨_, _, h⟩
    · exact nextTxBlk_undef h
    · exact absurd h (sendMsgInternal_ne _)

theorem copyToBlk_undef {rest : List Qw} (h : copyToBlk p rest c = .error .undef) : (c.tx p).param = none := by
  unfold copyToBlk at h
  cases hb : (c.tx p).param with
  | none => rfl
  | some b =>
    simp only [hb] at h
    cases h

/-- The copy keeps the parameters. -/
theorem copyToBlk_param {rest : List Qw} {x : List Qw × Core} (h : copyToBlk p rest c = .ok x) :
    (x.2.tx p).param = (c.tx p).param := by
  unfold copyToBlk at h
  cases hb : (c.tx p).param with
  | none =>
    simp only [hb] at h
    cases h
  | some b =>
    simp only [hb] at h
    cases h
    simp [setTx]

theorem flushIfFull_undef (h : flushIfFull cfg p c = .error .undef) : (c.tx p).param = none := by
  unfold flushIfFull at h
  cases hb : (c.tx p).param with
  | none => rfl
  | some b =>
    simp only [hb] at h
    split at h
    · cases h
    · split at h
      · rw [← hb]
        exact flushTxBlk_undef h
      · cases h

theorem sendChunk_undef {b : Bool} {rest : List Qw} (h : sendChunk cfg p b rest c = .error .undef) :
    (c.tx p).param = none := by
  unfold sendChunk at h
  split at h
  · cases h
  · rcases bind_error.1 h with h | ⟨x, hcopy, h⟩
    · exact copyToBlk_undef h
    · rw [← copyToBlk_param hcopy]
      rcases bind_error.1 h with h | ⟨_, _, h⟩
      · have hnone := flushIfFull_undef h
        cases b <;> exact hnone
      · cases h

/-- Giving back a block needs the receiver's parameters. -/
theorem finishBlk_undef (h : finishBlk cfg p c = .error .undef) : (c.rx p).param = none := by
  rcases bind_error.1 h with h | ⟨c₁, hnext, h⟩
  · unfold nextMsgQue at h
    simp only at h
    split at h <;> cases h
  · have hparam : (c₁.rx p).param = (c.rx p).param := by
      unfold nextMsgQue at hnext
      simp only at hnext
      split at hnext
      · cases hnext
      · cases hnext
        simp [setRx]
    rw [← hparam]
    rcases bind_error.1 h with h | ⟨c₂, hsend, h⟩
    · exact absurd h (sendMsgInternal_ne _)
    · rw [← sendMsgInternal_rx hsend]
      cases hb : (c₂.rx p).param with
      | none => rfl
      | some b =>
        simp only [hb] at h
        cases h

/-- A block is at the front of the receiver's queue, or in the hands of its thread. -/
def AtBlock (p : Party) (c : Core) (t : Thread) : Prop :=
  (∃ m ms, (c.rx p).msgQue = m :: ms ∧ m.cmd = p.other.cmdRdy) ∨ t.pc.view.rxMode = .body

/-- An uninitialised field is read: one of the sending half, or one of the receiving half with a block to look at. -/
def ReadsUnset (p : Party) (c : Core) (t : Thread) : Prop :=
  (c.tx p).param = none ∨ (c.rx p).param = none ∧ AtBlock p c t

theorem recvHeader_undef {argc : ℕ} (h : recvHeader cfg p argc c t = .error .undef) :
    (c.rx p).param = none ∧ ∃ m ms, (c.rx p).msgQue = m :: ms ∧ m.cmd = p.other.cmdRdy := by
  unfold recvHeader at h
  simp only at h
  split at h
  · cases h
  split at h
  · cases h
  rename_i m ms hq
  split at h
  · cases h
  rename_i hm
  simp only [not_or, not_not, not_lt] at hm
  rcases bind_error.1 h with h | ⟨_, _, h⟩
  · refine ⟨?_, m, ms, hq, hm.1⟩
    have hnone := finishBlk_undef h
    split at hnone
    · simpa [setRx] using hnone
    · exact hnone
  · split at h <;> cases h

theorem recvArgv_undef {argc n : ℕ} (h : recvArgv cfg p argc n c t = .error .undef) :
    (c.rx p).param = none ∧ ∃ m ms, (c.rx p).msgQue = m :: ms ∧ m.cmd = p.other.cmdRdy := by
  unfold recvArgv at h
  simp only at h
  split at h
  · cases h
  rename_i m ms hq
  split at h
  · split at h <;> cases h
  rename_i hcmd
  refine ⟨?_, m, ms, hq, not_not.1 hcmd⟩
  split at h
  · cases h
  cases hb : (c.rx p).param with
  | none => rfl
  | some b =>
    simp only [hb] at h
    rcases bind_error.1 h with h | ⟨_, _, h⟩
    · rw [← hb]
      exact finishBlk_undef h
    · cases h

theorem recvd_undef {k : RecvK} {ty : RecvType} (h : recvd cfg p k ty c t = .error .undef) :
    (c.rx p).param = none ∧
      (ty = .hostDataMarker ∨ ∃ m ms, (c.rx p).msgQue = m :: ms ∧ m.cmd = p.other.cmdRdy) := by
  cases k with
  | poll => cases h
  | hostMsg =>
    unfold recvd at h
    simp only at h
    split at h
    · cases h
    split at h
    · cases h
    rename_i m ms hq
    rcases bind_error.1 h with h | ⟨_, _, h⟩
    · unfold nextMsgQue at h
      simp only [hq] at h
      cases h
    · cases h
  | peek =>
    unfold recvd at h
    simp only at h
    split at h
    · cases h
    · split at h <;> cases h
  | marker =>
    unfold recvd at h
    simp only at h
    split at h
    · cases h
    rename_i hty
    rcases bind_error.1 h with h | ⟨_, _, h⟩
    · exact ⟨finishBlk_undef h, Or.inl (not_not.1 hty)⟩
    · cases h
  | data =>
    unfold recvd at h
    simp only at h
    split at h <;> cases h
  | args =>
    unfold recvd at h
    simp only at h
    split at h
    · cases h
    · have hhdr := recvHeader_undef h
      exact ⟨hhdr.1, Or.inr hhdr.2⟩

theorem enterMsgLoop_ne {k : RecvK} : enterMsgLoop cfg p k c t ≠ .error .undef := by
  intro h
  unfold enterMsgLoop at h
  split at h
  · obtain ⟨r, -, hok⟩ := recvd_halt cfg p k c t
    rw [hok] at h
    cases h
  · cases h

/-- A turn that finds something for its caller leaves the queue and the parameters. -/
theorem turn_recv {ty : RecvType} {N : ℕ} (hw : c.RingsOk N) (h : turn p c = .recv ty c') :
    (c'.rx p).msgQue = (c.rx p).msgQue ∧ (c'.rx p).param = (c.rx p).param ∧
      (ty = .hostDataMarker → ∃ m ms, (c.rx p).msgQue = m :: ms ∧ m.cmd = p.other.cmdRdy) := by
  have hspec := turn_spec (p := p) hw
  rw [h] at hspec
  cases hspec with
  | data hq hcmd hdq hw' hl hl' hty =>
    rename_i m ms
    have hrx : c'.rx p = (c.rx p).announce m.cnt := by
      rw [← lane_rx c' p N, ← lane_rx c p N, hl']
    refine ⟨by rw [hrx]; rfl, by rw [hrx]; rfl, ?_⟩
    rintro rfl
    rcases hty with hty | ⟨-, -, hty⟩ <;> cases hty
  | marker hq hcmd hdq => exact ⟨rfl, rfl, fun _ => ⟨_, _, hq, hcmd⟩⟩
  | call hq hcmd hdq hms => exact ⟨rfl, rfl, fun _ => ⟨_, _, hq, hcmd⟩⟩
  | msg hq hcmd =>
    refine ⟨rfl, rfl, ?_⟩
    intro hty
    cases hty

theorem msgLoop_undef {k : RecvK} {N : ℕ} (hw : c.RingsOk N) (h : msgLoop cfg p k c t = .error .undef) :
    (c.rx p).param = none ∧ ∃ m ms, (c.rx p).msgQue = m :: ms ∧ m.cmd = p.other.cmdRdy := by
  unfold msgLoop at h
  cases hturn : turn p c with
  | idle =>
    obtain ⟨r, -, hok⟩ := recvd_idle cfg p k c t
    simp only [hturn, hok] at h
    cases h
  | next c' =>
    simp only [hturn] at h
    cases h
  | recv ty c' =>
    simp only [hturn] at h
    split at h
    · cases h
    · obtain ⟨hq, hparam, hmarker⟩ := turn_recv hw hturn
      obtain ⟨hnone, hfront⟩ := recvd_undef h
      rw [hq] at hfront
      exact ⟨hparam ▸ hnone, hfront.elim hmarker id⟩
  | halt =>
    have hspec := turn_spec (p := p) hw
    rw [hturn] at hspec
    cases hspec with
    | halt hq hcmd hdq =>
      simp only [hturn] at h
      rcases bind_error.1 h with h | ⟨c₁, _, h⟩
      · exact ⟨finishBlk_undef h, _, _, hq, hcmd⟩
      · cases p with
        | host =>
          obtain ⟨r, -, hok⟩ := recvd_halt cfg .host k (c₁.deliver Party.host.other [.halt]) t
          simp only [hok] at h
          cases h
        | model => cases h
  | fail =>
    simp only [hturn] at h
    cases h

theorem sendCtl_undef {ctl : Ctl} {k : Option RecvK} (h : sendCtl cfg p ctl k c t = .error .undef) :
    (c.tx p).param = none := by
  rcases bind_error.1 h with h | ⟨c₁, _, h⟩
  · exact flushTxBlk_undef h
  · cases k with
    | none => cases h
    | some k =>
      obtain ⟨r, -, hok⟩ := recvd_halt cfg p k (c₁.accept p [ctl.item])
        { t with haltSeen := true, done := t.done ++ [ctl.item] }
      simp only [hok] at h
      cases h

/-- **What a step of a thread reads**, by the point it is at. -/
theorem run_undef {N : ℕ} (hw : c.RingsOk N) (h : run cfg p c t = .error .undef) : ReadsUnset p c t := by
  unfold run at h
  cases hpc : t.pc with
  | idle =>
    simp only [hpc] at h
    cases h
  | ctor ms =>
    cases ms with
    | nil =>
      simp only [hpc] at h
      cases h
    | cons m ms =>
      simp only [hpc] at h
      rcases bind_error.1 h with h | ⟨_, _, h⟩
      · exact absurd h (sendMsgInternal_ne _)
      · cases h
  | que k =>
    simp only [hpc] at h
    split at h <;> cases h
  | sendData data n =>
    simp only [hpc] at h
    split at h
    · cases h
    · split at h
      · cases h
      · rcases bind_error.1 h with h | ⟨_, _, h⟩
        · exact Or.inl (sendChunk_undef h)
        · cases h
  | sendDataLock data n =>
    simp only [hpc] at h
    split at h <;> cases h
  | ctlTest ctl k =>
    simp only [hpc] at h
    split at h
    · cases h
    · exact Or.inl (sendCtl_undef h)
  | ctlLock ctl k =>
    simp only [hpc] at h
    split at h
    · cases k <;> cases h
    · exact Or.inl (sendCtl_undef h)
  | haltFlush k =>
    simp only [hpc] at h
    rcases bind_error.1 h with h | ⟨_, _, h⟩
    · exact Or.inl (flushTxBlk_undef h)
    · cases h
  | msgSend m =>
    simp only [hpc] at h
    rcases bind_error.1 h with h | ⟨_, _, h⟩
    · exact absurd h (sendMsgInternal_ne _)
    · cases h
  | callTest argv =>
    simp only [hpc] at h
    split at h
    · cases h
    · rcases bind_error.1 h with h | ⟨_, _, h⟩
      · exact Or.inl (nextTxBlk_undef h)
      · cases h
  | callLock argv =>
    simp only [hpc] at h
    split at h
    · cases h
    · rcases bind_error.1 h with h | ⟨_, _, h⟩
      · exact Or.inl (nextTxBlk_undef h)
      · cases h
  | callData argv n =>
    simp only [hpc] at h
    split at h
    · cases h
    · split at h
      · cases h
      · rcases bind_error.1 h with h | ⟨_, _, h⟩
        · exact Or.inl (sendChunk_undef h)
        · cases h
  | callDataLock argv n =>
    simp only [hpc] at h
    split at h <;> cases h
  | callPost argv =>
    simp only [hpc] at h
    rcases bind_error.1 h with h | ⟨_, _, h⟩
    · exact absurd h (sendMsgInternal_ne _)
    · cases h
  | callFlush argv =>
    simp only [hpc] at h
    rcases bind_error.1 h with h | ⟨_, _, h⟩
    · exact Or.inl (flushTxBlk_undef h)
    · split at h <;> cases h
  | msgLoop k =>
    simp only [hpc] at h
    have hloop := msgLoop_undef hw h
    exact Or.inr ⟨hloop.1, Or.inl hloop.2⟩
  | recvData n r =>
    simp only [hpc] at h
    split at h
    · cases h
    · split at h
      · cases h
      · exact absurd h enterMsgLoop_ne
  | recvBody n r =>
    simp only [hpc] at h
    split at h
    · rcases bind_error.1 h with h | ⟨_, _, h⟩
      · have hnone := finishBlk_undef h
        refine Or.inr ⟨?_, Or.inr (by rw [hpc]; rfl)⟩
        simpa [copyFromBlk, setRx, Core.deliver] using hnone
      · cases h
    · cases h
  | recvArgs argc n =>
    simp only [hpc] at h
    have hargs := recvArgv_undef h
    exact Or.inr ⟨hargs.1, Or.inl hargs.2⟩

/-- The first step of an operation reads at most the block that it flushes. -/
theorem call_undef {op : Op} (h : call cfg p op c t = .error .undef) : (c.tx p).param = none := by
  have hflush {ctl : ℕ} {f : Core → Except Stop (Core × Thread)} (hf : ∀ c, f c ≠ .error .undef)
      (h : (flushTxBlk cfg p ctl c >>= f) = .error .undef) : (c.tx p).param = none := by
    rcases bind_error.1 h with h | ⟨c₁, _, h⟩
    · exact flushTxBlk_undef h
    · exact absurd h (hf c₁)
  unfold call at h
  simp only at h
  cases op with
  | flushHostData => exact hflush (fun c => by simp) h
  | sendHostDataMarker => exact hflush (fun c => by simp) h
  | sendHostMsg m => exact hflush (fun c => by simp) h
  | sendHostHalt =>
    simp only at h
    split at h
    · exact hflush (fun c => by simp) h
    · cases h
  | sendCall args =>
    simp only at h
    split at h
    · exact hflush (fun c => by simp) h
    · cases h
  | sendReturn argv =>
    simp only at h
    split at h
    · exact hflush (fun c => by simp) h
    · cases h
  | peekHostData =>
    simp only at h
    split at h
    · exact absurd h enterMsgLoop_ne
    · cases h
  | recvHostDataMarker =>
    simp only at h
    split at h
    · cases h
    · exact absurd h enterMsgLoop_ne
  | recvHostData n =>
    simp only at h
    split at h <;> cases h
  | recvPoll => exact absurd h enterMsgLoop_ne
  | recvHostMsg => exact absurd h enterMsgLoop_ne
  | recvArgs argc => exact absurd h enterMsgLoop_ne
  | _ => cases h

theorem exec_undef {N : ℕ} (hw : s.core.RingsOk N) (h : exec cfg s a = .error .undef) :
    ReadsUnset a.party s.core (s.thr a.party) := by
  rcases bind_error.1 h with h | ⟨_, _, h⟩
  swap
  · cases h
  cases a with
  | call p op =>
    unfold Act.exec at h
    simp only at h
    split at h
    · exact Or.inl (call_undef h)
    · cases h
  | run p => exact run_undef hw h
  | timer p =>
    unfold Act.exec timer at h
    simp only at h
    split at h
    · cases h
    · rcases bind_error.1 h with h | ⟨_, _, h⟩
      · exact Or.inl (flushTxBlk_undef h)
      · cases h
  | callbackEnd p =>
    unfold Act.exec callbackEnd at h
    simp only at h
    split at h <;> cases h

/-- **Only a model unit that has not looked at its set-up messages reads an uninitialised field**, and only one of its
sending half. -/
theorem undef_before_setup (h9 : cfg.params.ctlQueW = 9) (hr : Reach (exec cfg) ok (Sys.init cfg) s)
    (h : exec cfg s a = .error .undef) : a.party = .model ∧ (s.core.tx .model).param = none := by
  obtain ⟨k, hset⟩ := reach_setup h9 hr
  have hreads := exec_undef (reach_rings h9 hr) h
  cases hp : a.party with
  | host =>
    -- the constructor sets all parameters of the host unit
    rw [hp] at hreads
    rcases hreads with hnone | ⟨hnone, -⟩
    · have := hset.hostTx.param.symm.trans hnone
      cases this
    · have := hset.hostRx.param.symm.trans hnone
      cases this
  | model =>
    rw [hp] at hreads
    refine ⟨rfl, ?_⟩
    rcases hreads with hnone | ⟨hnone, hblock⟩
    · exact hnone
    · have hfront : ∃ m ms, (s.core.rx .model).msgQue = m :: ms ∧ m.cmd = Party.host.cmdRdy := by
        rcases hblock with hfront | hbody
        · exact hfront
        · have hc : CreditOk cfg .host s := reach_credit h9 (by simp) hr
          obtain ⟨m, ms, hq, hcmd, -⟩ := hc.body hbody
          exact ⟨m, ms, hq, hcmd⟩
      obtain ⟨m, ms, hq, hcmd⟩ := hfront
      have hknown := ((reach_rxKnown h9 hr .host).known m ms hq hcmd).1
      have := hknown.symm.trans hnone
      cases this

def stopOf {α : Type} : Except Stop α → Option Stop
  | .ok _ => none
  | .error e => some e

/-- The model unit sends a quadword first. The credits have come in with the set-up messages, which only `MsgLoop`
looks at. -/
def unsetDemo : List Act :=
  List.replicate 22 (.run .host) ++ [.call .model (.sendHostData [1])] ++ List.replicate 24 (.run .model)

theorem undef_before_setup_demo : ∃ s, Lts.run (exec Cfg.default) (Sys.init Cfg.default) unsetDemo = .ok s ∧
    exec Cfg.default s (.run .model) = .error .undef ∧ (s.core.tx .model).param = none := by
  have hstop : (Lts.run (exec Cfg.default) (Sys.init Cfg.default) unsetDemo).toOption.map (fun s =>
      stopOf (exec Cfg.default s (.run .model))) = some (some .undef) := by decide +kernel
  cases h : Lts.run (exec Cfg.default) (Sys.init Cfg.default) unsetDemo with
  | error e =>
    rw [h] at hstop
    cases hstop
  | ok s =>
    rw [h] at hstop
    have hstop := Option.some.inj hstop
    cases he : exec Cfg.default s (.run .model) with
    | ok s' =>
      simp only [he] at hstop
      cases hstop
    | error e =>
      simp only [he] at hstop
      obtain rfl : e = .undef := Option.some.inj hstop
      have hr : Reach (exec Cfg.default) (fun _ _ => True) (Sys.init Cfg.default) s :=
        Reach.init.run unsetDemo (fun _ _ _ => trivial) h
      exact ⟨s, rfl, he, (undef_before_setup rfl hr he).2⟩

end OpenHT.Host
