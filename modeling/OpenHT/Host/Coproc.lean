import OpenHT.Host.Runs

/-!
# The host unit and a coprocessor

The host unit alone, for any admitted ring size: at the other end of its rings is a
coprocessor that may put any message into the outbound ring and takes the messages of the
inbound ring in order.

* `hostExec`: an action of the unit or of the coprocessor.
* `hostExec_cases`: each of them as a move of the host or a change of one lane.
* `HostOk`: the receiving half of the unit, and one returned block for each block message.
* `reach_host`: it holds in every run in which `RecvReturn` finds the arguments it waits for.
-/

namespace OpenHT.Host

open Host.Core Lts

variable (cfg : Cfg)

/-- The coprocessor fills the next slot of the outbound ring. -/
def post (m : CtrlMsg) (c : Core) : Except Stop Core :=
  let t := c.tx .model
  let i := t.ctlWrIdx &&& (cfg.ctlQueCnt .host - 1)
  if (c.ring .model i).isSome then .error .slot
  else .ok { c.setTx .model { t with ctlWrIdx := t.ctlWrIdx + 1 } with
    ring := Function.update c.ring .model (Function.update (c.ring .model) i (some m))
    wrote := Function.update c.wrote .model (c.wrote .model ++ [m]) }

/-- The coprocessor empties the next slot of the inbound ring. -/
def take (c : Core) : Except Stop Core :=
  let r := c.rx .model
  let i := r.ctlRdIdx &&& (cfg.ctlQueCnt .host - 1)
  if (c.ring .host i).isSome then
    .ok { c.setRx .model { r with ctlRdIdx := r.ctlRdIdx + 1 } with
      ring := Function.update c.ring .host (Function.update (c.ring .host) i none) }
  else .error .spin

/-- An action of the host unit or of the coprocessor. -/
inductive HostAct
  | unit (a : Act)
  | post (m : CtrlMsg)
  | take

/-- One action. -/
def hostExec (s : Sys) : HostAct → Except Stop Sys
  | .unit a => if a.party = .host then exec cfg s a else .error .off
  | .post m => do
    let c ← post cfg m s.core
    .ok { s with core := c }
  | .take => do
    let c ← take cfg s.core
    .ok { s with core := c }

variable {cfg} {N : ℕ} {c c' : Core} {s s' : Sys} {x : HostAct} {ok : Sys → HostAct → Prop}

theorem post_lane (hN : cfg.ctlQueCnt .host = N) (hw : c.RingsOk N) {m : CtrlMsg}
    (h : post cfg m c = .ok c') :
    c'.RingsOk N ∧ c'.lane .model N = (c.lane .model N).post m ∧ c'.lane .host N = c.lane .host N := by
  simp only [post, hN, slot_eq hN] at h
  split at h
  · cases h
  rename_i hfree
  cases h
  have hfree' : c.ring .model ((c.tx .model).ctlWrIdx % N) = none := by simpa using hfree
  obtain ⟨hwf, hlive⟩ := (hw .model).put (ctlQueCnt_pos hN) hfree' m
  refine ⟨RingsOk.intro (p := .model) (by simpa [setTx] using hwf) ?_, ?_, ?_⟩
  · simpa [setTx, Party.other] using hw .host
  · simp [lane, live, setTx, Lane.post, hlive]
  · simp [lane, live, setTx, Party.other]

theorem take_lane (hN : cfg.ctlQueCnt .host = N) (hw : c.RingsOk N) (h : take cfg c = .ok c') :
    c'.RingsOk N ∧ c'.lane .model N = c.lane .model N ∧
      ∃ m l, (c.lane .host N).live = m :: l ∧ c'.lane .host N = (c.lane .host N).fetch l := by
  simp only [take, hN, slot_eq hN] at h
  split at h
  · rename_i hfull
    cases h
    obtain ⟨m, hm⟩ := Option.isSome_iff_exists.1 hfull
    have hwo := hw .host
    obtain ⟨hwf, hlive⟩ := hwo.take hm (ctlQueCnt_pos hN)
    refine ⟨RingsOk.intro (p := .host) ?_ ?_, ?_, m, _, by simpa [lane, live, Party.other] using hlive, ?_⟩
    · simpa [setRx, Party.other] using hwf
    · simpa [setRx, Party.other] using hw .model
    · simp [lane, live, setRx, Party.other]
    · simp [lane, live, setRx, Lane.fetch, Party.other]
  · cases h

/-- An action moves the host, puts a message into its ring, or takes one out. -/
theorem hostExec_cases (hN : cfg.ctlQueCnt .host = N) (hw : s.core.RingsOk N)
    (h : hostExec cfg s x = .ok s') : s'.core.RingsOk N ∧
    ((∃ a, x = .unit a ∧ exec cfg s a = .ok s' ∧
        Move .host a (s.core.lane .host N) (s.core.lane .model N) (s.thr .host)
          (s'.core.lane .host N) (s'.core.lane .model N) (s'.thr .host)) ∨
      (s'.thr = s.thr ∧ ∃ m, x = .post m ∧ s'.core.lane .model N = (s.core.lane .model N).post m ∧
        s'.core.lane .host N = s.core.lane .host N) ∨
      (s'.thr = s.thr ∧ x = .take ∧ s'.core.lane .model N = s.core.lane .model N ∧
        ∃ m l, (s.core.lane .host N).live = m :: l ∧
          s'.core.lane .host N = (s.core.lane .host N).fetch l)) := by
  cases x with
  | unit a =>
    simp only [hostExec] at h
    split at h
    · rename_i hp
      obtain ⟨hw', -, hm⟩ := exec_move (by rw [hp]; exact hN) hw h
      rw [hp] at hm
      exact ⟨hw', .inl ⟨a, rfl, h, hm⟩⟩
    · cases h
  | post m =>
    obtain ⟨c, hc, hs⟩ := bind_ok.1 h
    cases hs
    obtain ⟨hw', h1, h2⟩ := post_lane hN hw hc
    exact ⟨hw', .inr (.inl ⟨rfl, m, rfl, h1, h2⟩)⟩
  | take =>
    obtain ⟨c, hc, hs⟩ := bind_ok.1 h
    cases hs
    obtain ⟨hw', h1, h2⟩ := take_lane hN hw hc
    exact ⟨hw', .inr (.inr ⟨rfl, rfl, h1, h2⟩)⟩

/-- The host unit: `A` is its outbound lane, `B` the inbound one, `u` its thread. -/
structure HostOk (cfg : Cfg) (A B : Lane) (u : Thread) : Prop where
  recv : Recv .model A u
  posted : A.wrote.countP (·.cmd = Party.model.cmdRdy) = A.rx.blkIdx + A.rdys .model
  released : B.wrote.countP (·.cmd = Party.host.cmdAvl) +
    u.pc.view.unsent.countP (·.cmd = Party.host.cmdAvl) = cfg.blkCnt .model + A.rx.blkIdx

section Moves

variable {p : Party} {a : Act} {A A' B B' : Lane} {t t' : Thread}

/-- A receiver does not send on the lane it receives on. -/
theorem Move.wrote_peer (hm : Move p a A B t A' B' t') : B'.wrote = B.wrote := by
  cases hm with
  | _ => rfl

/-- What a unit sends goes into its ring and its history. -/
theorem Move.posts (hm : Move p a A B t A' B' t') :
    ∃ l, A'.live = A.live ++ l ∧ A'.wrote = A.wrote ++ l := by
  have hnone : A'.live = A.live → A'.wrote = A.wrote → ∃ l, A'.live = A.live ++ l ∧ A'.wrote = A.wrote ++ l :=
    fun h1 h2 => ⟨[], by simp [h1], by simp [h2]⟩
  cases hm with
  | ctor => exact ⟨[_], rfl, rfl⟩
  | flush _ _ _ _ _ hf =>
    rcases hf with ⟨-, rfl⟩ | ⟨-, -, b, -, rfl⟩
    · exact hnone rfl rfl
    · exact ⟨[_], rfl, rfl⟩
  | ctl => exact ⟨[_], rfl, rfl⟩
  | user => exact ⟨[_], rfl, rfl⟩
  | data _ _ _ _ _ hf =>
    rcases hf with ⟨-, ⟨rfl, -⟩ | ⟨-, -, -, rfl⟩⟩
    · exact hnone rfl rfl
    · exact ⟨[_], rfl, rfl⟩
  | arg _ _ _ _ _ hf =>
    rcases hf with ⟨-, ⟨rfl, -⟩ | ⟨-, -, -, rfl⟩⟩
    · exact hnone rfl rfl
    · exact ⟨[_], rfl, rfl⟩
  | postCall => exact ⟨[_], rfl, rfl⟩
  | ctlBlk => exact ⟨[_], rfl, rfl⟩
  | call0 => exact ⟨[_], rfl, rfl⟩
  | callHdr => exact ⟨[_], rfl, rfl⟩
  | whole => exact ⟨[_], rfl, rfl⟩
  | args => exact ⟨[_], rfl, rfl⟩
  | _ => exact hnone rfl rfl

/-- **A move of the host unit.** -/
theorem HostOk.peer (h : HostOk cfg A B t) (hm : Move .host a B A t B' A' t')
    (hok : ∀ argc n m ms, t.pc = .recvArgs argc n → A.rx.msgQue = m :: ms → m.cmd = .oblkRdy) :
    HostOk cfg A' B' t' := by
  obtain ⟨hidx, hsum⟩ := h.recv.rdys_peer (p := .model) hm
  replace hsum : A'.rdys .model + B'.avls .host + t'.pc.view.unsent.countP (·.cmd = Party.host.cmdAvl) =
    A.rdys .model + B.avls .host + t.pc.view.unsent.countP (·.cmd = Party.host.cmdAvl) := hsum
  obtain ⟨l, hlive, hwrote⟩ := hm.posts
  have havl : B'.avls .host = B.avls .host + l.countP (·.cmd = Party.host.cmdAvl) := by
    rw [Lane.avls, hlive, List.countP_append]
    rfl
  have hposted := h.posted
  have hrel := h.released
  refine ⟨h.recv.peer (p := .model) hm fun argc n m ms _ => hok argc n m ms, ?_, ?_⟩
  · rw [hm.wrote_peer]
    omega
  · rw [hwrote, List.countP_append]
    omega

end Moves

theorem init_host (cfg : Cfg) (N : ℕ) : HostOk cfg ((Sys.init cfg).core.lane .model N)
    ((Sys.init cfg).core.lane .host N) ((Sys.init cfg).thr .host) := by
  refine ⟨.of_zero rfl rfl (by simp [Sys.init, Pc.view]) ?_, rfl, ?_⟩
  · intro h0
    simp [Sys.init, Core.init, lane, Party.other] at h0
  · rw [← ctorMsgs_avls cfg]
    exact Nat.zero_add _

theorem init_rings_of (cfg : Cfg) (N : ℕ) : (Sys.init cfg).core.RingsOk N := by
  intro p
  cases p <;> exact Ring.Wf.init

/-- **The rings stay well formed** in every run. -/
theorem reach_hostRings (hr : Reach (hostExec cfg) ok (Sys.init cfg) s) :
    s.core.RingsOk (cfg.ctlQueCnt .host) :=
  Reach.invariant (I := fun s => s.core.RingsOk (cfg.ctlQueCnt .host)) (init_rings_of cfg _)
    (fun _ _ _ _ hw _ he => (hostExec_cases rfl hw he).1) s hr

/-- **The host unit**, in every run in which `RecvReturn` is not interrupted. -/
theorem reach_host (hok : ∀ s x, ok s x → ¬ s.Interrupted) (hr : Reach (hostExec cfg) ok (Sys.init cfg) s) :
    HostOk cfg (s.core.lane .model (cfg.ctlQueCnt .host)) (s.core.lane .host (cfg.ctlQueCnt .host))
      (s.thr .host) := by
  refine Reach.invariant (I := fun s => HostOk cfg (s.core.lane .model (cfg.ctlQueCnt .host))
    (s.core.lane .host (cfg.ctlQueCnt .host)) (s.thr .host)) (init_host cfg _) ?_ s hr
  intro s s' x hs h hokx he
  rcases (hostExec_cases rfl (reach_hostRings hs) he).2 with
    ⟨a, -, -, hm⟩ | ⟨ht, m, -, hA, hB⟩ | ⟨ht, -, hA, m, l, -, hB⟩
  · refine h.peer hm ?_
    intro argc n m ms hpc hq
    by_contra hcmd
    exact hok s x hokx ⟨argc, n, m, ms, hpc, hq, hcmd⟩
  · rw [ht, hA, hB]
    refine ⟨h.recv.of_rx rfl, ?_, h.released⟩
    have hposted := h.posted
    rw [Lane.rdys_post]
    simp only [Lane.post, List.countP_append, List.countP_cons, List.countP_nil, decide_eq_true_eq]
    omega
  · rw [ht, hA, hB]
    exact ⟨h.recv, h.posted, h.released⟩

end OpenHT.Host
