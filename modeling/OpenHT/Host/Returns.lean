import OpenHT.Host.Coproc

/-!
# Returns and what they leave behind

`RecvReturn` takes a return in two halves, its call message and the block of its arguments.
`MsgLoop` notes the size of any data block at the front, that of the arguments included.

* `ReturnsOk`: when `RecvReturn` returns true nothing is left over, one block went back for
  each block message, and data is only delivered out of the block at the front.
* `returns_leave_no_residue`: so it is in every run in which the message behind a consumed
  call message is always the one of its arguments.
* `interrupted_return`: an assert message in between leaves the size of the arguments behind.
-/

namespace OpenHT.Host

open Host.Core Lts

variable {cfg : Cfg} {p : Party} {a : Act} {A A' B B' : Lane} {t t' : Thread} {c c' : Core} {s s' : Sys}

/-- `m_outBlkDataSize` is what is left of the data block at the front of `m_outMsgQue`. -/
def Sys.Announced (s : Sys) : Prop :=
  ∃ m ms, (s.core.rx .host).msgQue = m :: ms ∧ m.cmd = .oblkRdy ∧ m.dq = 0 ∧
    (s.core.rx .host).blkRdIdx + (s.core.rx .host).blkDataSize = m.cnt

/-- The next unread quadword. -/
def Core.unread (c : Core) (p : Party) : ℕ := (c.rx p).blk + (c.rx p).blkRdIdx

/-! ### Moves -/

/-- A completed call or return leaves nothing over. -/
theorem Move.args_clean (hm : Move p a A B t A' B' t') (hr : Recv p.other B t) {buf : List Qw}
    (h : t'.ret = some (.args (some buf))) (hne : t.ret ≠ t'.ret) :
    (p = .host → B'.rx.recvRtnArgc = 0) ∧ B'.rx.blkDataSize = 0 := by
  have hkeeps : Keeps a t t' → (p = .host → B'.rx.recvRtnArgc = 0) ∧ B'.rx.blkDataSize = 0 := by
    intro hk
    exact absurd (hk.ret (by rw [h]; trivial)).symm hne
  have hno : ¬ Ret.isArgs t'.ret → (p = .host → B'.rx.recvRtnArgc = 0) ∧ B'.rx.blkDataSize = 0 := by
    intro hno
    exact absurd (by rw [h]; trivial) hno
  have hsame : t'.ret = t.ret → (p = .host → B'.rx.recvRtnArgc = 0) ∧ B'.rx.blkDataSize = 0 :=
    fun he => absurd he.symm hne
  cases hm with
  | skip hk => exact hkeeps hk
  | flush hk => exact hkeeps hk
  | ctl _ _ _ _ _ _ hret => exact hno hret
  | user => exact hno (by simp [Thread.finish])
  | announce _ hk => exact hkeeps hk
  | msg _ _ _ hret => exact hno hret
  | ctlBlk _ _ hk => exact hkeeps hk
  | call0 hrest hz hq hcmd hdq =>
    exact ⟨fun _ => hr.rtn_zero hrest, hr.size_zero hq (.inr (by rw [hdq]; decide))⟩
  | abandon => exact hno (by simp [Thread.finish])
  | args hpc hq hcmd hdq hn hb hargv =>
    rename_i argc n m ms b argv
    have h0 := hr.args argc n (by simp [hpc, Pc.view])
    refine ⟨?_, by simpa [Lane.deliver, Lane.nextRx, Lane.setQue] using h0⟩
    rintro rfl
    simp [Lane.deliver, Rx.setArgc]
  | _ => exact hsame rfl

/-- Data is delivered out of the block at the front. -/
theorem Move.got_data (hm : Move p a A B t A' B' t') (hr : Recv p.other B t) :
    ∃ l, B'.got = B.got ++ l ∧ ((∀ x, Item.qw x ∉ l) ∨ (B.Announced p.other ∧
      ∃ n, n ≤ B.rx.blkDataSize ∧ l = (B.mem.read (B.rx.blk + B.rx.blkRdIdx) n).map .qw)) := by
  have hnone : B'.got = B.got → ∃ l, B'.got = B.got ++ l ∧ ((∀ x, Item.qw x ∉ l) ∨
      (B.Announced p.other ∧ ∃ n, n ≤ B.rx.blkDataSize ∧
        l = (B.mem.read (B.rx.blk + B.rx.blkRdIdx) n).map .qw)) :=
    fun h => ⟨[], by simp [h], .inl (by simp)⟩
  cases hm with
  | msg => exact ⟨_, rfl, .inl (by simp)⟩
  | ctlBlk x => exact ⟨_, rfl, .inl (by cases x <;> simp [Ctl.item])⟩
  | call0 => exact ⟨_, rfl, .inl (by simp)⟩
  | args => exact ⟨_, rfl, .inl (by simp)⟩
  | part hpc hcnt hlt => exact ⟨_, rfl, .inr ⟨hr.front (by omega), _, hlt.le, rfl⟩⟩
  | whole hpc hle hq hb =>
    by_cases h0 : B.rx.blkDataSize = 0
    · exact ⟨_, rfl, .inl (by simp [h0])⟩
    · exact ⟨_, rfl, .inr ⟨hr.front (Nat.pos_of_ne_zero h0), _, le_rfl, rfl⟩⟩
  | _ => exact hnone rfl

/-! ### Peeking -/

/-- A step that returns a quadword peeked at returns the next unread one of a block. -/
def PeekOk (p : Party) (t : Thread) (x : Except Stop (Core × Thread)) : Prop :=
  ∀ c' t' v, x = .ok (c', t') → t'.ret = some (.peek (some v)) → t'.ret ≠ t.ret →
    0 < (c'.rx p).blkDataSize ∧ v = c'.mem p.other (c'.unread p)

namespace PeekOk

theorem error {e : Stop} : PeekOk p t (.error e) := by
  intro c' t' v h
  cases h

/-- The return value is the old one. -/
theorem same (h : t'.ret = t.ret) : PeekOk p t (.ok (c, t')) := by
  intro c' t1 v he _ hne
  cases he
  exact absurd h hne

/-- The return value is another one. -/
theorem other (h : ∀ v, t'.ret ≠ some (.peek (some v))) : PeekOk p t (.ok (c, t')) := by
  intro c' t1 v he hret _
  cases he
  exact absurd hret (h v)

theorem bind {α : Type} {x : Except Stop α} {f : α → Except Stop (Core × Thread)}
    (h : ∀ y, PeekOk p t (f y)) : PeekOk p t (x >>= f) := by
  intro c' t' v he
  obtain ⟨y, -, hy⟩ := bind_ok.1 he
  exact h y c' t' v hy

theorem fin {r : Ret} {l : List Item} (h : ∀ v, r ≠ .peek (some v)) : PeekOk p t (.ok (c, t'.finish r l)) :=
  other fun v hv => h v (Option.some.inj hv)

theorem recvHeader {argc : ℕ} : PeekOk p t (recvHeader cfg p argc c t) := by
  unfold Host.recvHeader
  simp only
  split
  · exact same rfl
  split
  · exact error
  split
  · exact error
  refine bind fun c => ?_
  split
  · exact fin (by simp)
  · exact same rfl

theorem recvArgv {argc n : ℕ} : PeekOk p t (recvArgv cfg p argc n c t) := by
  unfold Host.recvArgv
  simp only
  split
  · exact error
  split
  · split
    · exact fin (by simp)
    · exact error
  split
  · exact error
  split
  · exact error
  · exact bind fun c => fin (by simp)

theorem recvd {k : RecvK} {ty : RecvType} (ht : t'.ret = t.ret) : PeekOk p t (recvd cfg p k ty c t') := by
  have hother : ∀ {x : Except Stop (Core × Thread)}, PeekOk p t' x → PeekOk p t x := by
    intro x hx c' t1 v he hret hne
    exact hx c' t1 v he hret (by rw [ht]; exact hne)
  unfold Host.recvd
  cases k with
  | poll => exact fin (by simp)
  | hostMsg =>
    simp only
    split
    · exact fin (by simp)
    split
    · exact error
    · exact bind fun c => fin (by simp)
  | peek =>
    simp only
    split
    · exact fin (by simp)
    split
    · exact error
    · -- the quadword is the next of a block with some left
      rename_i h0
      intro c' t1 v he hret _
      cases he
      have hv : c.mem p.other (c.unread p) = v := by
        simpa [Thread.finish, Core.unread] using hret
      exact ⟨Nat.pos_of_ne_zero h0, hv.symm⟩
  | marker =>
    simp only
    split
    · exact fin (by simp)
    · exact bind fun c => fin (by simp)
  | data =>
    simp only
    split
    · exact fin (by simp)
    · exact same ht
  | args argc =>
    simp only
    split
    · exact fin (by simp)
    · exact hother recvHeader

theorem enterMsgLoop {k : RecvK} (ht : t'.ret = t.ret) : PeekOk p t (enterMsgLoop cfg p k c t') := by
  unfold Host.enterMsgLoop
  split
  · exact recvd ht
  · exact same ht

theorem msgLoop {k : RecvK} : PeekOk p t (msgLoop cfg p k c t) := by
  unfold Host.msgLoop
  split
  · exact recvd rfl
  · exact same rfl
  · split
    · exact same rfl
    · exact recvd rfl
  · refine bind fun c => ?_
    cases p
    · exact recvd rfl
    · exact same rfl
  · exact error

theorem sendCtl {x : Ctl} {k : Option RecvK} : PeekOk p t (sendCtl cfg p x k c t) := by
  unfold Host.sendCtl
  refine bind fun c => ?_
  cases k
  · exact fin (by simp)
  · exact recvd rfl

theorem run : PeekOk p t (run cfg p c t) := by
  cases hpc : t.pc with
  | idle =>
    simp only [Host.run, hpc]
    exact error
  | ctor ms =>
    cases ms with
    | nil =>
      simp only [Host.run, hpc]
      exact same rfl
    | cons m ms =>
      simp only [Host.run, hpc]
      exact bind fun c => same rfl
  | que k =>
    simp only [Host.run, hpc]
    split
    · exact same rfl
    · exact same rfl
  | sendData d n =>
    simp only [Host.run, hpc]
    split
    · exact fin (by simp)
    split
    · exact same rfl
    · exact bind fun c => same rfl
  | sendDataLock d n =>
    simp only [Host.run, hpc]
    split
    · exact fin (by simp)
    · exact same rfl
  | ctlTest x k =>
    simp only [Host.run, hpc]
    split
    · exact same rfl
    · exact sendCtl
  | ctlLock x k =>
    simp only [Host.run, hpc]
    split
    · split
      · exact fin (by simp)
      · exact same rfl
    · exact sendCtl
  | haltFlush k =>
    simp only [Host.run, hpc]
    exact bind fun c => same rfl
  | msgSend m =>
    simp only [Host.run, hpc]
    exact bind fun c => fin (by simp)
  | callTest argv =>
    simp only [Host.run, hpc]
    split
    · exact same rfl
    · exact bind fun c => same rfl
  | callLock argv =>
    simp only [Host.run, hpc]
    split
    · exact fin (by simp)
    · exact bind fun c => same rfl
  | callData argv n =>
    simp only [Host.run, hpc]
    split
    · exact same rfl
    split
    · exact same rfl
    · exact bind fun c => same rfl
  | callDataLock argv n =>
    simp only [Host.run, hpc]
    split
    · exact error
    · exact same rfl
  | callPost argv =>
    simp only [Host.run, hpc]
    exact bind fun c => same rfl
  | callFlush argv =>
    simp only [Host.run, hpc]
    refine bind fun c => ?_
    split
    · exact error
    · exact fin (by simp)
  | msgLoop k =>
    simp only [Host.run, hpc]
    exact msgLoop
  | recvData n r =>
    simp only [Host.run, hpc]
    split
    · exact fin (by simp)
    split
    · exact same rfl
    · exact enterMsgLoop rfl
  | recvBody n r =>
    simp only [Host.run, hpc]
    split
    · exact bind fun c => same rfl
    · exact bind fun c => same rfl
  | recvArgs argc n =>
    simp only [Host.run, hpc]
    exact recvArgv

theorem call {op : Op} : PeekOk p t (call cfg p op c t) := by
  have hnone : ∀ {x : Except Stop (Core × Thread)}, PeekOk p { t with ret := none } x → PeekOk p t x := by
    intro x hx c' t1 v he hret _
    exact hx c' t1 v he hret (by rw [hret]; simp)
  apply hnone
  cases op with
  | sendHostData => exact same rfl
  | flushHostData => exact bind fun c => fin (by simp)
  | sendHostDataMarker => exact bind fun c => same rfl
  | sendHostHalt =>
    simp only [Host.call]
    split
    · exact bind fun c => same rfl
    · exact error
  | sendHostMsg => exact bind fun c => same rfl
  | sendCall =>
    simp only [Host.call]
    split
    · exact bind fun c => same rfl
    · exact error
  | sendReturn =>
    simp only [Host.call]
    split
    · exact bind fun c => same rfl
    · exact error
  | recvPoll => exact enterMsgLoop rfl
  | recvHostMsg => exact enterMsgLoop rfl
  | peekHostData =>
    simp only [Host.call]
    split
    · exact enterMsgLoop rfl
    · rename_i h0
      intro c' t1 v he hret _
      cases he
      have hv : c.mem p.other (c.unread p) = v := by
        simpa [Thread.finish, Core.unread] using hret
      exact ⟨Nat.pos_of_ne_zero h0, hv.symm⟩
  | recvHostDataMarker =>
    simp only [Host.call]
    split
    · exact fin (by simp)
    · exact enterMsgLoop rfl
  | recvHostData =>
    simp only [Host.call]
    split
    · exact fin (by simp)
    · exact same rfl
  | recvArgs => exact enterMsgLoop rfl
  | setUsingCallback => exact fin (by simp)

end PeekOk

/-- A peeked quadword is the next unread one of a block. -/
theorem exec_peek (hp : a.party = p) (he : exec cfg s a = .ok s') {v : Qw}
    (hret : (s'.thr p).ret = some (.peek (some v))) (hne : (s'.thr p).ret ≠ (s.thr p).ret) :
    0 < (s'.core.rx p).blkDataSize ∧ v = s'.core.mem p.other (s'.core.unread p) := by
  subst hp
  obtain ⟨⟨c', t'⟩, hx, hs⟩ := bind_ok.1 he
  cases hs
  simp only [Sys.set, Function.update_self] at hret hne
  cases a with
  | call q op =>
    simp only [Act.exec] at hx
    split at hx
    · exact PeekOk.call c' t' v hx hret hne
    · cases hx
  | run q => exact PeekOk.run c' t' v hx hret hne
  | timer q =>
    simp only [Act.exec, timer] at hx
    split at hx
    · cases hx
    obtain ⟨c1, -, hx⟩ := bind_ok.1 hx
    cases hx
    exact absurd rfl hne
  | callbackEnd q =>
    simp only [Act.exec, callbackEnd] at hx
    split at hx
    · cases hx
      cases hret
    · cases hx

/-! ### Runs -/

/-- **What the receiving operations of the host leave behind** in state `s`. -/
structure ReturnsOk (cfg : Cfg) (s : Sys) : Prop where
  /-- when `RecvReturn` returns true -/
  clean : ∀ a s' buf, a.party = .host → exec cfg s a = .ok s' →
    (s'.thr .host).ret = some (.args (some buf)) → (s.thr .host).ret ≠ (s'.thr .host).ret →
      (s'.core.rx .host).recvRtnArgc = 0 ∧ (s'.core.rx .host).blkDataSize = 0
  /-- one `OBLK_AVL` besides the initial ones for each `OBLK_RDY` no longer on its way -/
  released : (s.core.wrote .host).countP (·.cmd = Party.host.cmdAvl) +
      (s.thr .host).pc.view.unsent.countP (·.cmd = Party.host.cmdAvl) +
      ((s.core.rx .host).msgQue ++ s.core.live .model (cfg.ctlQueCnt .host)).countP
        (·.cmd = Party.model.cmdRdy) =
    cfg.blkCnt .model + (s.core.wrote .model).countP (·.cmd = Party.model.cmdRdy)
  /-- when `RecvHostData` delivers data -/
  data : ∀ a s', a.party = .host → exec cfg s a = .ok s' → ∃ l, s'.core.got .model = s.core.got .model ++ l ∧
    ((∀ x, Item.qw x ∉ l) ∨ (s.Announced ∧ ∃ n, n ≤ (s.core.rx .host).blkDataSize ∧
      l = ((s.core.mem .model).read (s.core.unread .host) n).map .qw))
  /-- when `PeekHostData` delivers a quadword -/
  peek : ∀ a s' v, a.party = .host → exec cfg s a = .ok s' →
    (s'.thr .host).ret = some (.peek (some v)) → (s'.thr .host).ret ≠ (s.thr .host).ret →
      s'.Announced ∧ 0 < (s'.core.rx .host).blkDataSize ∧
        v = s'.core.mem .model (s'.core.unread .host)

/-- **Return reception leaves no residue**, against any coprocessor, in every run in which
`RecvReturn`, having consumed a call message, finds the message of its arguments. -/
theorem returns_leave_no_residue
    (hr : Reach (hostExec cfg) (fun s _ => ¬ s.Interrupted) (Sys.init cfg) s) (hs : ¬ s.Interrupted) :
    ReturnsOk cfg s := by
  have hw := reach_hostRings hr
  have h := reach_host (fun _ _ h => h) hr
  have hmove : ∀ {a s'}, a.party = .host → exec cfg s a = .ok s' → ∃ N, s'.core.RingsOk N ∧
      Move .host a (s.core.lane .host N) (s.core.lane .model N) (s.thr .host)
        (s'.core.lane .host N) (s'.core.lane .model N) (s'.thr .host) ∧
      HostOk cfg (s.core.lane .model N) (s.core.lane .host N) (s.thr .host) := by
    intro a s' hp he
    obtain ⟨hw', -, hm⟩ := exec_move (N := cfg.ctlQueCnt .host) (by rw [hp]) hw he
    rw [hp] at hm
    exact ⟨_, hw', hm, h⟩
  refine ⟨?_, ?_, ?_, ?_⟩
  · intro a s' buf hp he hret hne
    obtain ⟨N, -, hm, hN⟩ := hmove hp he
    obtain ⟨h1, h2⟩ := hm.args_clean hN.recv hret hne
    exact ⟨h1 rfl, h2⟩
  · have hposted := h.posted
    have hreleased := h.released
    simp only [lane, Lane.rdys] at hposted hreleased
    have hrx : s.core.rx Party.model.other = s.core.rx .host := rfl
    rw [hrx] at hposted hreleased
    omega
  · intro a s' hp he
    obtain ⟨N, -, hm, hN⟩ := hmove hp he
    exact hm.got_data hN.recv
  · intro a s' v hp he hret hne
    obtain ⟨N, -, hm, hN⟩ := hmove hp he
    obtain ⟨hpos, hv⟩ := exec_peek hp he hret hne
    have hrecv : Recv .model (s'.core.lane .model N) (s'.thr .host) := by
      refine hN.recv.peer (p := .model) hm ?_
      intro argc n m ms _ hpc hq
      by_contra hcmd
      exact hs ⟨argc, n, m, ms, hpc, hq, hcmd⟩
    exact ⟨hrecv.front hpos, hpos, hv⟩

/-- The constructor; a return with one quadword, an assert message behind its call message;
`RecvReturn` called twice. -/
def interruptedRun : List HostAct :=
  List.replicate 22 (.unit (.run .host)) ++
    [.post (Party.model.rdyMsg 1 hifDqCall), .post (.make HifCmd.assert.toType 0),
      .post (Party.model.rdyMsg 1 0), .unit (.call .host (.recvArgs 1))] ++
    List.replicate 6 (.unit (.run .host)) ++ [.unit (.call .host (.recvArgs 1))] ++
    List.replicate 3 (.unit (.run .host))

theorem interruptedRun_end : (match Lts.run (hostExec Cfg.default) (Sys.init Cfg.default) interruptedRun with
    | .ok s => match exec Cfg.default s (.run .host) with
      | .ok s' => ((s.thr .host).ret, (s'.thr .host).ret, (s'.core.rx .host).blkDataSize)
      | .error _ => (none, none, 0)
    | .error _ => (none, none, 0)) = (none, some (.args (some [0])), 1) := by
  decide +kernel

/-- **An interrupted return.** The first `RecvReturn` takes the call message and gives up at
the assert message; the second returns true and leaves `m_outBlkDataSize` behind. -/
theorem interrupted_return : ∃ s s' buf,
    Lts.run (hostExec Cfg.default) (Sys.init Cfg.default) interruptedRun = .ok s ∧
    exec Cfg.default s (.run .host) = .ok s' ∧ (s.thr .host).ret ≠ (s'.thr .host).ret ∧
    (s'.thr .host).ret = some (.args (some buf)) ∧ (s'.core.rx .host).blkDataSize ≠ 0 := by
  have hend := interruptedRun_end
  cases h : Lts.run (hostExec Cfg.default) (Sys.init Cfg.default) interruptedRun with
  | error e =>
    rw [h] at hend
    cases hend
  | ok s =>
    simp only [h] at hend
    cases h' : exec Cfg.default s (.run .host) with
    | error e =>
      rw [h'] at hend
      cases hend
    | ok s' =>
      simp only [h', Prod.mk.injEq] at hend
      obtain ⟨h1, h2, h3⟩ := hend
      refine ⟨s, s', [0], rfl, h', ?_, h2, by omega⟩
      rw [h1, h2]
      simp

/-- `RecvReturn` is not interrupted in this state. -/
def Sys.uninterrupted (s : Sys) : Bool :=
  match (s.thr .host).pc, (s.core.rx .host).msgQue with
  | .recvArgs .., m :: _ => m.cmd = .oblkRdy
  | _, _ => true

theorem Sys.not_interrupted {s : Sys} (h : s.uninterrupted = true) : ¬ s.Interrupted := by
  rintro ⟨argc, n, m, ms, hpc, hq, hcmd⟩
  simp [Sys.uninterrupted, hpc, hq, hcmd] at h

/-- The same return without the assert message, up to the second half of `RecvReturn`. -/
def returnRun : List HostAct :=
  List.replicate 22 (.unit (.run .host)) ++
    [.post (Party.model.rdyMsg 1 hifDqCall), .post (Party.model.rdyMsg 1 0),
      .unit (.call .host (.recvArgs 1))] ++ List.replicate 4 (.unit (.run .host))

theorem returnRun_end : (match Lts.runIf (hostExec Cfg.default) (fun s _ => s.uninterrupted)
      (Sys.init Cfg.default) returnRun with
    | some s => s.uninterrupted && match exec Cfg.default s (.run .host) with
      | .ok s' => (s'.thr .host).ret = some (.args (some [0]))
      | .error _ => false
    | none => false) = true := by
  decide +kernel

theorem returns_leave_no_residue_demo : ∃ s s',
    Lts.runIf (hostExec Cfg.default) (fun s _ => s.uninterrupted) (Sys.init Cfg.default) returnRun = some s ∧
    exec Cfg.default s (.run .host) = .ok s' ∧ (s'.thr .host).ret = some (.args (some [0])) ∧
    ReturnsOk Cfg.default s := by
  have hend := returnRun_end
  cases h : Lts.runIf (hostExec Cfg.default) (fun s _ => s.uninterrupted) (Sys.init Cfg.default) returnRun with
  | none =>
    rw [h] at hend
    cases hend
  | some s =>
    simp only [h, Bool.and_eq_true] at hend
    obtain ⟨hok, hend⟩ := hend
    cases h' : exec Cfg.default s (.run .host) with
    | error e =>
      rw [h'] at hend
      cases hend
    | ok s' =>
      simp only [h', decide_eq_true_eq] at hend
      have hreach : Reach (hostExec Cfg.default) (fun s _ => ¬ s.Interrupted) (Sys.init Cfg.default) s :=
        Reach.init.runIf (fun _ _ hc => Sys.not_interrupted hc) returnRun h
      exact ⟨s, s', rfl, h', hend, returns_leave_no_residue hreach (Sys.not_interrupted hok)⟩

end OpenHT.Host
