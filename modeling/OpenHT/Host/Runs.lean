import OpenHT.Host.Credit

/-!
# Runs of the two-party system

* `reach_rings`, `reach_credit`: in every run both rings stay well formed and the credits
  of both directions are kept (those of the model's direction as long as `RecvReturn` is
  not interrupted).
* `Plain`: without user messages only the constructor's messages share a ring with block
  traffic, so `RecvReturn` is never interrupted (`reach_uninterrupted`).
-/

namespace OpenHT.Host

open Host.Core Lts

variable {cfg : Cfg} {p : Party} {a : Act} {s s' : Sys} {ok : Sys → Act → Prop}

/-- An action is a move of the sender of direction `p` or of its receiver. -/
theorem exec_dir (p : Party) (h9 : cfg.params.ctlQueW = 9) (hw : s.core.RingsOk)
    (h : exec cfg s a = .ok s') :
    (a.party = p ∧ s'.thr p.other = s.thr p.other ∧
      Move p a (s.core.lane p) (s.core.lane p.other) (s.thr p)
        (s'.core.lane p) (s'.core.lane p.other) (s'.thr p)) ∨
    (a.party = p.other ∧ s'.thr p = s.thr p ∧
      Move p.other a (s.core.lane p.other) (s.core.lane p) (s.thr p.other)
        (s'.core.lane p.other) (s'.core.lane p) (s'.thr p.other)) := by
  obtain ⟨-, h1, h2⟩ := exec_move (ctlQueCnt_eq h9 _) hw h
  rcases p.eq_or_other a.party with hp | hp <;> rw [hp] at h1 h2
  · exact .inl ⟨hp, h1, h2⟩
  · rw [Party.other_other] at h1 h2
    exact .inr ⟨hp, h1, h2⟩

/-! ### The start -/

/-- The default interface, its two block regions side by side. -/
def Cfg.default : Cfg where
  params := {}
  unitMHz := 150
  inBlkBase := 0
  outBlkBase := 131072
  flushLinesBase := none
  admitted := HifParams.admitted_default
  inBlkBase_lt := by decide
  outBlkBase_lt := by decide
  outBlkTimer_lt := by decide
  ctlTimer_lt := by decide

theorem init_rings (cfg : Cfg) : (Sys.init cfg).core.RingsOk := by
  intro p
  have h1 : ((Core.init cfg).rx p.other).ctlRdIdx = 0 := by cases p <;> rfl
  have h2 : ((Core.init cfg).tx p).ctlWrIdx = 0 := by cases p <;> rfl
  simp only [Sys.init, h1, h2]
  exact Ring.Wf.init

theorem init_live (cfg : Cfg) (p : Party) : ((Sys.init cfg).core.lane p).live = [] := by
  have h1 : ((Core.init cfg).rx p.other).ctlRdIdx = 0 := by cases p <;> rfl
  have h2 : ((Core.init cfg).tx p).ctlWrIdx = 0 := by cases p <;> rfl
  simp [lane, live, Sys.init, h1, h2]

/-- The constructor's messages: set-up, and one block-available message per model block. -/
theorem mem_ctorMsgs {m : CtrlMsg} (h : m ∈ ctorMsgs cfg) : m.cmd.isSetup ∨ m.cmd = .oblkAvl := by
  simp only [ctorMsgs, List.mem_append, List.mem_cons, List.mem_map, List.not_mem_nil, or_false,
    Option.mem_toList, Option.map_eq_some_iff] at h
  rcases h with ((((rfl | rfl | rfl | rfl) | ⟨i, -, rfl⟩) | rfl) | ⟨_, -, rfl⟩)
  · exact .inl rfl
  · exact .inl rfl
  · exact .inl rfl
  · exact .inl rfl
  · exact .inr (Party.cmd_avlMsg .host _)
  · exact .inl rfl
  · exact .inl rfl

/-- The initial credits of the model are in the constructor's messages. -/
theorem ctorMsgs_avls (cfg : Cfg) :
    (ctorMsgs cfg).countP (·.cmd = Party.host.cmdAvl) = cfg.blkCnt .model := by
  have hmap : ((List.range (cfg.blkCnt .model)).map
      (fun i => Party.host.avlMsg ((i + 2 ^ 32 - 16) % 2 ^ 32))).countP
        (fun m => m.cmd = Party.host.cmdAvl) = cfg.blkCnt .model := by
    rw [List.countP_map, List.countP_eq_length.2 (by simp), List.length_range]
  have hflsh : (cfg.flushLinesBase.map
      (fun a => CtrlMsg.make HifCmd.oblkFlshAdr.toType (8 * a))).toList.countP
        (fun m => m.cmd = Party.host.cmdAvl) = 0 := by
    cases cfg.flushLinesBase <;> rfl
  have hset : ∀ x y z w, [CtrlMsg.make HifCmd.iblkAdr.toType x, .make HifCmd.oblkAdr.toType y,
      .make HifCmd.iblkParam.toType z, .make HifCmd.oblkParam.toType w].countP
        (fun m => m.cmd = Party.host.cmdAvl) = 0 := fun _ _ _ _ => rfl
  have hctl : ∀ x, [CtrlMsg.make HifCmd.ctlParam.toType x].countP
      (fun m => m.cmd = Party.host.cmdAvl) = 0 := fun _ => rfl
  simp only [ctorMsgs, List.countP_append, hmap, hflsh, hset, hctl]
  omega

/-- The credits of direction `p` in a system state. -/
def CreditOk (cfg : Cfg) (p : Party) (s : Sys) : Prop :=
  Credit cfg p (s.core.lane p) (s.core.lane p.other) (s.thr p) (s.thr p.other)

theorem init_credit (cfg : Cfg) (p : Party) : CreditOk cfg p (Sys.init cfg) := by
  have hA := init_live cfg p
  have hB := init_live cfg p.other
  have hque : ((Sys.init cfg).core.lane p).rx.msgQue = [] := by cases p <;> rfl
  have hr : ((Sys.init cfg).core.lane p).rdys p = 0 := by simp [Lane.rdys, hA, hque]
  have hv : ((Sys.init cfg).core.lane p.other).avls p.other = 0 := by simp [Lane.avls, hB]
  have hrecv : Recv p ((Sys.init cfg).core.lane p) ((Sys.init cfg).thr p.other) := by
    refine .of_zero (by cases p <;> rfl) (by cases p <;> rfl) (by cases p <;> simp [Sys.init, Pc.view, Party.other]) ?_
    intro h0
    cases p <;> simp [Sys.init, Core.init, lane, Party.other] at h0
  refine ⟨hrecv, ?_, ?_, ?_, ?_, ?_⟩
  · rw [hr, hv]
    cases p with
    | host => simp [Sys.init, Core.init, lane, PcView.held, Pc.view, Party.other]
    | model =>
      rw [← ctorMsgs_avls cfg]
      simp only [Sys.init, Core.init, lane, PcView.held, Pc.view, Party.other]
      simp
      rfl
  · rw [hr]
    cases p <;> simp [Sys.init, Core.init, lane, PcView.held, Pc.view, Party.other]
  · cases p <;> simp [Sys.init, Core.init, lane]
  · cases p <;> simp [Sys.init, Core.init, lane]
  · intro m hm
    cases p with
    | host =>
      rcases mem_ctorMsgs (show m ∈ ctorMsgs cfg from hm) with h | h
      · exact isSetup_ne h
      · rw [h]
        decide
    | model => cases hm

/-! ### Every run -/

/-- `RecvReturn` has consumed a call message and finds another message than its arguments'. -/
def Sys.Interrupted (s : Sys) : Prop :=
  ∃ argc n m ms, (s.thr .host).pc = .recvArgs argc n ∧ (s.core.rx .host).msgQue = m :: ms ∧
    m.cmd ≠ .oblkRdy

/-- **The rings stay well formed** in every run. -/
theorem reach_rings (h9 : cfg.params.ctlQueW = 9) (hr : Reach (exec cfg) ok (Sys.init cfg) s) :
    s.core.RingsOk :=
  Reach.invariant (I := fun s => s.core.RingsOk) (init_rings cfg) (fun _ _ _ _ hw _ he => (exec_move (ctlQueCnt_eq h9 _) hw he).1) s hr

/-- One action keeps the credits of direction `p`. -/
theorem exec_credit (h9 : cfg.params.ctlQueW = 9) (hw : s.core.RingsOk) (h : CreditOk cfg p s)
    (hok : p = .model → ¬ s.Interrupted) (he : exec cfg s a = .ok s') : CreditOk cfg p s' := by
  unfold CreditOk at *
  rcases exec_dir p h9 hw he with ⟨-, ht, hm⟩ | ⟨-, ht, hm⟩ <;> rw [ht]
  · exact h.own hm
  · refine h.peer hm ?_
    rintro argc n m ms rfl hpc hq
    by_contra hcmd
    exact hok rfl ⟨argc, n, m, ms, hpc, hq, hcmd⟩

/-- **The credits are kept** in every run, those of the model's direction in every run
without an interrupted `RecvReturn`. -/
theorem reach_credit (h9 : cfg.params.ctlQueW = 9)
    (hok : ∀ s, Reach (exec cfg) ok (Sys.init cfg) s → p = .model → ¬ s.Interrupted)
    (hr : Reach (exec cfg) ok (Sys.init cfg) s) : CreditOk cfg p s :=
  Reach.invariant (I := CreditOk cfg p) (init_credit cfg p) (fun _ _ _ hs h _ he =>
    exec_credit h9 (reach_rings h9 hs) h (hok _ hs) he) s hr

/-! ### Runs without user messages -/

/-- The messages in the ring that are neither a block of `p` nor one given back by it. -/
def Lane.others (L : Lane) (p : Party) : ℕ :=
  L.live.countP (fun m => m.cmd ≠ p.cmdRdy ∧ m.cmd ≠ p.cmdAvl)

/-- The unsent constructor messages of that kind. -/
def PcView.others (v : PcView) (p : Party) : ℕ :=
  v.unsent.countP (fun m => m.cmd ≠ p.cmdRdy ∧ m.cmd ≠ p.cmdAvl)

/-- Direction `p` carries at most `K` messages besides its block traffic. -/
structure Plain (K : ℕ) (p : Party) (A : Lane) (t : Thread) : Prop where
  bound : A.others p + t.pc.view.others p ≤ K
  user : t.pc.view.user = none

/-- The receiver of a direction without any other messages. -/
structure OnlyRdy (p : Party) (A : Lane) (u : Thread) : Prop where
  que : ∀ m ∈ A.rx.msgQue, m.cmd = p.cmdRdy
  args : ∀ argc n, u.pc.view.rxMode = .args argc n → A.rx.msgQue ≠ []

section Plain

variable {K : ℕ} {A A' B B' : Lane} {t t' u u' : Thread}

theorem others_post_rdy (L : Lane) (p : Party) (n : ℕ) (ctl : ℕ) :
    (L.post (p.rdyMsg n ctl)).others p = L.others p := by
  simp [Lane.others, Lane.post, List.countP_append]

theorem others_post_avl (L : Lane) (p : Party) (i : ℕ) :
    (L.post (p.avlMsg i)).others p = L.others p := by
  simp [Lane.others, Lane.post, List.countP_append]

theorem others_filled {b : BlkParam} {L L' : Lane} (hf : L.Filled p b L') :
    L'.others p = L.others p := by
  rcases hf with ⟨-, ⟨rfl, -⟩ | ⟨-, -, -, rfl⟩⟩
  · rfl
  · exact others_post_rdy _ _ _ _

theorem others_view {v v' : PcView} (h : v'.unsent = v.unsent) : v'.others p = v.others p := by
  simp [PcView.others, h]

theorem Plain.own (h : Plain K p A t) (hm : Move p a A B t A' B' t') (ha : a.user = none) :
    Plain K p A' t' := by
  have hkeep : ∀ {L : Lane} {x : Thread}, L.others p = A.others p → x.pc.view.unsent = t.pc.view.unsent →
      x.pc.view.user = none → Plain K p L x := by
    intro L x h1 h2 h3
    exact ⟨by rw [h1, others_view h2]; exact h.bound, h3⟩
  have huser : ∀ {x : Thread}, Keeps a t x → x.pc.view.user = none := by
    intro x hk
    by_contra hne
    obtain ⟨m, hm⟩ := Option.ne_none_iff_exists'.1 hne
    rcases hk.user m hm with h' | h'
    · rw [h.user] at h'; cases h'
    · rw [ha] at h'; cases h'
  cases hm with
  | skip hk => exact hkeep rfl hk.unsent (huser hk)
  | exhaust hpc => exact hkeep rfl (by simp [hpc, Pc.view, Thread.goto]) rfl
  | ctor hpc =>
    rename_i m ms
    refine ⟨?_, rfl⟩
    have := h.bound
    simp only [PcView.others, hpc, Pc.view, List.countP_cons, Lane.others] at this
    simp only [PcView.others, Thread.goto, Pc.view, Lane.others, Lane.post, List.countP_append,
      List.countP_cons, List.countP_nil]
    omega
  | flush hk _ _ _ _ hf =>
    rcases hf with ⟨-, rfl⟩ | ⟨-, -, b, -, rfl⟩
    · exact hkeep rfl hk.unsent (huser hk)
    · exact hkeep (others_post_rdy _ _ _ _) hk.unsent (huser hk)
  | ctl x hpc hpc' =>
    refine hkeep (others_post_rdy _ _ _ _) ?_ (by simp [hpc', Pc.view])
    rcases hpc with hpc | hpc <;> simp [hpc, hpc', Pc.view]
  | user m hpc => exact absurd h.user (by simp [hpc, Pc.view])
  | data hpc _ _ _ _ hf =>
    refine hkeep ?_ (by simp [hpc, Pc.view, Thread.goto]) rfl
    exact (others_filled hf).trans rfl
  | arg hpc _ _ _ _ hf =>
    refine hkeep ?_ (by simp [hpc, Pc.view, Thread.goto]) rfl
    exact (others_filled hf).trans rfl
  | take hpc => exact hkeep rfl (by rcases hpc with hpc | hpc <;> simp [hpc, Pc.view, Thread.goto]) rfl
  | postCall hpc => exact hkeep (others_post_rdy _ _ _ _) (by simp [hpc, Pc.view, Thread.goto]) rfl
  | credit => exact hkeep rfl rfl h.user
  | que => exact hkeep rfl rfl h.user
  | setup => exact hkeep rfl rfl h.user
  | announce hr hk => exact hkeep rfl hk.unsent (huser hk)
  | resume hpc => exact hkeep rfl (by simp [hpc, Pc.view, Thread.goto]) rfl
  | msg hr => exact hkeep rfl hr.unsent.symm rfl
  | ctlBlk x hr hk => exact hkeep (others_post_avl _ _ _) hk.unsent (huser hk)
  | call0 hr => exact hkeep (others_post_avl _ _ _) hr.unsent.symm rfl
  | callHdr hr => exact hkeep (others_post_avl _ _ _) hr.unsent.symm rfl
  | again _ _ hr => exact hkeep rfl hr.unsent.symm rfl
  | abandon _ hpc => exact hkeep rfl (by simp [hpc, Pc.view, Thread.finish]) rfl
  | part hpc => exact hkeep rfl (by simp [hpc, Pc.view, Thread.goto]) rfl
  | whole hpc => exact hkeep (others_post_avl _ _ _) (by simp [hpc, Pc.view, Thread.goto]) rfl
  | args hpc => exact hkeep (others_post_avl _ _ _) (by simp [hpc, Pc.view, Thread.finish]) rfl

/-- The receiver only takes messages out of the ring. -/
theorem Move.live_peer (hm : Move p a B A u B' A' u') :
    A'.live = A.live ∨ ∃ m, A.live = m :: A'.live := by
  cases hm with
  | credit hlive => exact .inr ⟨_, hlive⟩
  | que hlive => exact .inr ⟨_, hlive⟩
  | _ => exact .inl rfl

theorem Plain.peer (h : Plain K p A t) (hm : Move p.other a B A u B' A' u') : Plain K p A' t := by
  refine ⟨?_, h.user⟩
  have := h.bound
  rcases hm.live_peer with hl | ⟨m, hl⟩ <;> simp only [Lane.others, hl, List.countP_cons] at *
  · exact this
  · omega

/-- A sender does not touch the receiving half of its lane. -/
theorem Move.rx_own (hm : Move p a A B t A' B' t') : A'.rx = A.rx := by
  cases hm with
  | flush _ _ _ _ _ hf => rcases hf with ⟨-, rfl⟩ | ⟨-, -, b, -, rfl⟩ <;> rfl
  | data _ _ _ _ _ hf => rcases hf with ⟨-, ⟨rfl, -⟩ | ⟨-, -, -, rfl⟩⟩ <;> rfl
  | arg _ _ _ _ _ hf => rcases hf with ⟨-, ⟨rfl, -⟩ | ⟨-, -, -, rfl⟩⟩ <;> rfl
  | _ => rfl

theorem OnlyRdy.own (h : OnlyRdy p A u) (hm : Move p a A B t A' B' t') : OnlyRdy p A' u := by
  refine ⟨?_, ?_⟩ <;> rw [hm.rx_own]
  · exact h.que
  · exact h.args

theorem OnlyRdy.peer (h : OnlyRdy p A u) (hc : Credit cfg p A B t u) (hp : Plain 0 p A t)
    (hm : Move p.other a B A u B' A' u') :
    OnlyRdy p A' u' := by
  have hpop : ∀ {m ms} {L : Lane} {x : Thread}, A.rx.msgQue = m :: ms → L.rx.msgQue = ms →
      (∀ argc n, x.pc.view.rxMode = .args argc n → ms ≠ []) → OnlyRdy p L x := by
    intro m ms L x hq hq' hx
    refine ⟨fun y hy => h.que y ?_, fun argc n hn => by rw [hq']; exact hx argc n hn⟩
    rw [hq]
    exact List.mem_cons_of_mem _ (by rwa [hq'] at hy)
  have hsame : ∀ {L : Lane} {x : Thread}, L.rx.msgQue = A.rx.msgQue →
      (x.pc.view.rxMode = u.pc.view.rxMode ∨ x.pc.view.rxMode = .none ∨ x.pc.view.rxMode = .body) →
      OnlyRdy p L x := by
    intro L x hq hx
    refine ⟨by rw [hq]; exact h.que, fun argc n hn => ?_⟩
    rw [hq]
    rcases hx with hx | hx | hx
    · exact h.args argc n (by rw [← hx]; exact hn)
    · rw [hx] at hn; cases hn
    · rw [hx] at hn; cases hn
  cases hm with
  | skip _ _ _ hrx => exact hsame rfl (.inl hrx)
  | exhaust => exact hsame rfl (.inr (.inl rfl))
  | ctor => exact hsame rfl (.inr (.inl rfl))
  | flush _ _ hrx => exact hsame rfl (.inl hrx)
  | ctl x _ hpc' => exact hsame rfl (.inr (.inl (by simp [hpc', Pc.view])))
  | user => exact hsame rfl (.inr (.inl rfl))
  | data => exact hsame rfl (.inr (.inl rfl))
  | arg => exact hsame rfl (.inr (.inl rfl))
  | take => exact hsame rfl (.inr (.inl rfl))
  | postCall => exact hsame rfl (.inr (.inl rfl))
  | credit => exact hsame rfl (.inl rfl)
  | que hlive hcmd =>
    rename_i m l
    rw [Party.other_other] at hcmd
    refine ⟨fun y hy => ?_, fun argc n hn => by simp [Lane.setQue]⟩
    rcases List.mem_append.1 hy with hy | hy
    · exact h.que y hy
    · obtain rfl := List.mem_singleton.1 hy
      -- nothing but blocks and returned blocks is in the ring
      have h0 : A.others p = 0 := by have := hp.bound; omega
      rw [Lane.others, hlive, List.countP_eq_zero] at h0
      have := h0 y List.mem_cons_self
      simp only [ne_eq, decide_eq_true_eq, not_and, not_not] at this
      by_contra hne
      exact hcmd (this hne)
  | setup hq hs hhost =>
    rename_i m ms
    exact absurd (h.que m (by simp [hq])) (isSetup_ne hs)
  | announce _ _ _ _ _ _ _ hmode => exact hsame rfl (.inr hmode)
  | resume => exact hsame rfl (.inr (.inr rfl))
  | msg hr hq => exact hpop hq rfl (by simp [Thread.finish, Pc.view])
  | ctlBlk x hr hk hmode _ _ hq => exact hpop hq rfl (by simp [hmode])
  | call0 hr _ hq => exact hpop hq rfl (by simp [Thread.finish, Pc.view])
  | callHdr hr _ _ hq hms =>
    refine hpop hq rfl ?_
    intro _ _ _
    exact hms
  | again _ hrtn hr => exact absurd hrtn (by simp [hc.rtn_zero hr])
  | abandon => exact hsame rfl (.inr (.inl rfl))
  | part => exact hsame rfl (.inr (.inl rfl))
  | whole _ _ hq => exact hpop hq rfl (by simp [Thread.goto, Pc.view])
  | args _ hq =>
    exact hpop hq (by simp [Lane.deliver, Lane.nextRx, Lane.setQue]) (by simp [Thread.finish, Pc.view])

end Plain

/-- The actions of a run in which `p` sends no user messages. -/
def NoUser (p : Party) (_ : Sys) (a : Act) : Prop := a.party = p → a.user = none

/-- Direction `p` in a run without user messages. -/
theorem reach_plain (h9 : cfg.params.ctlQueW = 9) (hok : ∀ s a, ok s a → NoUser p s a)
    (hr : Reach (exec cfg) ok (Sys.init cfg) s) :
    Plain (if p = .host then 6 else 0) p (s.core.lane p) (s.thr p) := by
  refine Reach.invariant (I := fun s => Plain (if p = .host then 6 else 0) p (s.core.lane p) (s.thr p))
    ?_ ?_ s hr
  · have hlive := init_live cfg p
    cases p with
    | host =>
      refine ⟨?_, rfl⟩
      have hset : ∀ x y z w, [CtrlMsg.make HifCmd.iblkAdr.toType x, .make HifCmd.oblkAdr.toType y,
          .make HifCmd.iblkParam.toType z, .make HifCmd.oblkParam.toType w].countP
            (fun m => m.cmd ≠ Party.host.cmdRdy ∧ m.cmd ≠ Party.host.cmdAvl) = 4 := fun _ _ _ _ => rfl
      have hmap : ((List.range (cfg.blkCnt .model)).map
          (fun i => Party.host.avlMsg ((i + 2 ^ 32 - 16) % 2 ^ 32))).countP
            (fun m => m.cmd ≠ Party.host.cmdRdy ∧ m.cmd ≠ Party.host.cmdAvl) = 0 := by
        rw [List.countP_eq_zero]; simp
      have hctl : ∀ x, [CtrlMsg.make HifCmd.ctlParam.toType x].countP
          (fun m => m.cmd ≠ Party.host.cmdRdy ∧ m.cmd ≠ Party.host.cmdAvl) = 1 := fun _ => rfl
      have hflsh : (cfg.flushLinesBase.map
          (fun a => CtrlMsg.make HifCmd.oblkFlshAdr.toType (8 * a))).toList.countP
            (fun m => m.cmd ≠ Party.host.cmdRdy ∧ m.cmd ≠ Party.host.cmdAvl) ≤ 1 := by
        exact (List.countP_le_length).trans (by cases cfg.flushLinesBase <;> simp)
      have hun : ((Sys.init cfg).thr .host).pc.view.others .host ≤ 6 := by
        show (ctorMsgs cfg).countP _ ≤ 6
        simp only [ctorMsgs, List.countP_append, hset, hmap, hctl]
        omega
      simpa [Lane.others, hlive] using hun
    | model =>
      refine ⟨?_, rfl⟩
      simp only [Lane.others, hlive, List.countP_nil]
      exact le_rfl
  · intro s s' a hs h hoka he
    rcases exec_dir p h9 (reach_rings h9 hs) he with ⟨hp, ht, hm⟩ | ⟨hp, ht, hm⟩
    · exact h.own hm (hok s a hoka hp)
    · rw [ht]; exact h.peer hm

/-- **`RecvReturn` is never interrupted** while the model sends no user messages. -/
theorem reach_uninterrupted (h9 : cfg.params.ctlQueW = 9) (hok : ∀ s a, ok s a → NoUser .model s a)
    (hr : Reach (exec cfg) ok (Sys.init cfg) s) : ¬ s.Interrupted := by
  have huntil : ∀ s : Sys, OnlyRdy .model (s.core.lane .model) (s.thr .host) → ¬ s.Interrupted := by
    rintro s h ⟨argc, n, m, ms, hpc, hq, hcmd⟩
    exact hcmd (h.que m (by rw [show (s.core.lane .model).rx = s.core.rx .host from rfl, hq]; simp))
  have key : CreditOk cfg .model s ∧ OnlyRdy .model (s.core.lane .model) (s.thr .host) := by
    refine Reach.invariant
      (I := fun s => CreditOk cfg .model s ∧ OnlyRdy .model (s.core.lane .model) (s.thr .host)) ?_ ?_ s hr
    · refine ⟨init_credit cfg .model, ?_, ?_⟩
      · intro m hm; exact absurd hm List.not_mem_nil
      · intro argc n hn; cases hn
    · rintro s s' a hs ⟨hc, h⟩ hoka he
      have hp := reach_plain h9 hok hs
      refine ⟨exec_credit h9 (reach_rings h9 hs) hc (fun _ => huntil s h) he, ?_⟩
      rcases exec_dir .model h9 (reach_rings h9 hs) he with ⟨-, ht, hm⟩ | ⟨-, ht, hm⟩
      · have ht' : s'.thr .host = s.thr .host := ht
        rw [ht']; exact h.own hm
      · exact h.peer hc hp hm
  exact huntil s key.2

/-! ### A short run -/

/-- The constructor, three quadwords sent and flushed by the timer, and their reception. -/
def demo : List Act :=
  List.replicate 22 (.run .host) ++
    [.call .host (.sendHostData [1, 2, 3]), .run .host, .run .host, .timer .host,
      .call .model (.recvHostData 3)] ++ List.replicate 32 (.run .model)

theorem demo_isOk : (Lts.run (exec Cfg.default) (Sys.init Cfg.default) demo).isOk = true := by
  decide +kernel

theorem demo_reach : ∃ s, Lts.run (exec Cfg.default) (Sys.init Cfg.default) demo = .ok s ∧
    Reach (exec Cfg.default) (fun s a => NoUser .host s a ∧ NoUser .model s a)
      (Sys.init Cfg.default) s := by
  have hok : ∀ a ∈ demo, ∀ s, NoUser .host s a ∧ NoUser .model s a := by
    simp [demo, NoUser, Act.user]
  have hisOk := demo_isOk
  cases h : Lts.run (exec Cfg.default) (Sys.init Cfg.default) demo with
  | error e => rw [h] at hisOk; cases hisOk
  | ok s => exact ⟨s, rfl, Reach.init.run demo hok h⟩

end OpenHT.Host
