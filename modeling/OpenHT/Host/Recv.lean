import OpenHT.Host.ExecMove

/-!
# The receiving half of a unit

* `Lane.rdys`, `Lane.avls`: the announced blocks, and those on their way back.
* `Recv`: what the residual counts of a receiver say about its queue.
* `Recv.peer`: a move of the receiver keeps it, as long as `RecvReturn` finds no other
  message between a call and its arguments.
* `Recv.rdys_peer`: for every block message consumed one block goes back.
-/

namespace OpenHT.Host

open Host.Core

/-- The announced blocks of `p` that the receiver has not finished with. -/
def Lane.rdys (L : Lane) (p : Party) : ℕ := (L.rx.msgQue ++ L.live).countP (·.cmd = p.cmdRdy)

/-- The blocks `p` gives back, still in the ring. -/
def Lane.avls (L : Lane) (p : Party) : ℕ := L.live.countP (·.cmd = p.cmdAvl)

namespace Lane

variable (L : Lane) (p : Party) (m : CtrlMsg) (b : BlkParam) (l : List CtrlMsg)

@[simp] theorem rdys_post : (L.post m).rdys p = L.rdys p + if m.cmd = p.cmdRdy then 1 else 0 := by
  simp only [rdys, post, List.countP_append, List.countP_cons, List.countP_nil, decide_eq_true_eq]
  omega

@[simp] theorem rdys_next : (L.next b).rdys p = L.rdys p := rfl
@[simp] theorem rdys_write (d : List Qw) : (L.write d).rdys p = L.rdys p := rfl
@[simp] theorem rdys_credit : L.credit.rdys p = L.rdys p := rfl
@[simp] theorem rdys_nextRx : (L.nextRx b).rdys p = L.rdys p := rfl
@[simp] theorem rdys_read (n : ℕ) : (L.read n).rdys p = L.rdys p := rfl
@[simp] theorem rdys_accept (i : List Item) : (L.accept i).rdys p = L.rdys p := rfl
@[simp] theorem rdys_deliver (i : List Item) : (L.deliver i).rdys p = L.rdys p := rfl
@[simp] theorem rdys_tx (t : Tx) : { L with tx := t }.rdys p = L.rdys p := rfl

theorem rdys_rx {r : Rx} (h : r.msgQue = L.rx.msgQue) : { L with rx := r }.rdys p = L.rdys p := by
  simp [rdys, h]

theorem rdys_flush (ctl : ℕ) : (L.flush p b ctl).rdys p = L.rdys p + 1 := by simp [flush]

variable {L p m l} in
/-- Popping a message takes it out of the count. -/
theorem rdys_pop {L' : Lane} (h : L.rx.msgQue = m :: l) (hq : L'.rx.msgQue = l) (hl : L'.live = L.live) :
    L.rdys p = L'.rdys p + if m.cmd = p.cmdRdy then 1 else 0 := by
  simp only [rdys, h, hq, hl, List.cons_append, List.countP_cons, decide_eq_true_eq]

variable {L p m l} in
theorem rdys_fetch (h : L.live = m :: l) (hm : m.cmd ≠ p.cmdRdy) : (L.fetch l).rdys p = L.rdys p := by
  simp [rdys, fetch, h, hm]

variable {L p m l} in
theorem rdys_que (h : L.live = m :: l) :
    ((L.fetch l).setQue (L.rx.msgQue ++ [m])).rdys p = L.rdys p := by
  simp [rdys, fetch, setQue, h]

@[simp] theorem avls_post : (L.post m).avls p = L.avls p + if m.cmd = p.cmdAvl then 1 else 0 := by
  simp [avls, post, List.countP_append, List.countP_cons]

@[simp] theorem avls_setQue : (L.setQue l).avls p = L.avls p := rfl
@[simp] theorem avls_next : (L.next b).avls p = L.avls p := rfl
@[simp] theorem avls_write (d : List Qw) : (L.write d).avls p = L.avls p := rfl
@[simp] theorem avls_credit : L.credit.avls p = L.avls p := rfl
@[simp] theorem avls_nextRx : (L.nextRx b).avls p = L.avls p := rfl
@[simp] theorem avls_read (n : ℕ) : (L.read n).avls p = L.avls p := rfl
@[simp] theorem avls_accept (i : List Item) : (L.accept i).avls p = L.avls p := rfl
@[simp] theorem avls_deliver (i : List Item) : (L.deliver i).avls p = L.avls p := rfl
@[simp] theorem avls_tx (t : Tx) : { L with tx := t }.avls p = L.avls p := rfl
@[simp] theorem avls_rx (r : Rx) : { L with rx := r }.avls p = L.avls p := rfl

theorem avls_flush (ctl : ℕ) : (L.flush p b ctl).avls p = L.avls p := by simp [flush]

variable {L p m l} in
theorem avls_fetch (h : L.live = m :: l) :
    L.avls p = (L.fetch l).avls p + if m.cmd = p.cmdAvl then 1 else 0 := by
  simp [avls, fetch, h, List.countP_cons]

end Lane

/-- A data block at the front of the receiver's queue. -/
def Lane.DataFront (L : Lane) (p : Party) : Prop :=
  ∃ m ms, L.rx.msgQue = m :: ms ∧ m.cmd = p.cmdRdy ∧ m.dq = 0

/-- The data size is what is left of the data block at the front. -/
def Lane.Announced (L : Lane) (p : Party) : Prop :=
  ∃ m ms, L.rx.msgQue = m :: ms ∧ m.cmd = p.cmdRdy ∧ m.dq = 0 ∧ L.rx.blkRdIdx + L.rx.blkDataSize = m.cnt

/-- The receiver of lane `A`, `u` being its thread: a residual data size or a loop body of
`RecvHostData` has its data block at the front; arguments are awaited only between the two
halves of one `RecvReturn`. -/
structure Recv (p : Party) (A : Lane) (u : Thread) : Prop where
  front : 0 < A.rx.blkDataSize → A.Announced p
  rdIdx : A.rx.blkDataSize = 0 → A.rx.blkRdIdx = 0
  body : u.pc.view.rxMode = .body → A.DataFront p
  args : ∀ argc n, u.pc.view.rxMode = .args argc n → A.rx.blkDataSize = 0
  rtn : 0 < A.rx.recvRtnArgc → p = .model ∧ ∃ argc n, u.pc.view.rxMode = .args argc n

variable {p : Party} {a : Act} {A A' B B' : Lane} {u u' : Thread}

theorem setup_tx (x : Tx) (m : CtrlMsg) : (x.setup m).blkAvailCnt = x.blkAvailCnt ∧
    (x.setup m).blkWrIdx = x.blkWrIdx ∧ (x.setup m).blkIdx = x.blkIdx := by
  unfold Tx.setup; split <;> exact ⟨rfl, rfl, rfl⟩

theorem setup_rx (r : Rx) (m : CtrlMsg) : (r.setup m).msgQue = r.msgQue ∧
    (r.setup m).blkDataSize = r.blkDataSize ∧ (r.setup m).blkIdx = r.blkIdx ∧
    (r.setup m).recvRtnArgc = r.recvRtnArgc ∧ (r.setup m).blkRdIdx = r.blkRdIdx := by
  unfold Rx.setup; split <;> exact ⟨rfl, rfl, rfl, rfl, rfl⟩

theorem isSetup_ne {m : CtrlMsg} (h : m.cmd.isSetup) : m.cmd ≠ p.cmdRdy := by
  rintro he
  rw [he] at h
  cases p <;> cases h

/-- A receiver does not touch the sending half of its lane. -/
theorem Move.tx_peer (hm : Move p a A B t A' B' t') : B'.tx = B.tx := by
  cases hm with
  | _ => rfl

namespace Recv

/-- With the thread at rest nothing is awaited. -/
theorem rtn_zero (h : Recv p A u) (hr : u.Resting) : A.rx.recvRtnArgc = 0 := by
  by_contra hne
  obtain ⟨-, argc, n, hmode⟩ := h.rtn (Nat.pos_of_ne_zero hne)
  rw [hr.rxMode] at hmode
  cases hmode

/-- Another message than a data block at the front means that no block is half read. -/
theorem size_zero (h : Recv p A u) {m : CtrlMsg} {ms : List CtrlMsg}
    (hq : A.rx.msgQue = m :: ms) (hm : m.cmd ≠ p.cmdRdy ∨ m.dq ≠ 0) : A.rx.blkDataSize = 0 := by
  by_contra hne
  obtain ⟨m', ms', hq', hcmd, hdq, -⟩ := h.front (Nat.pos_of_ne_zero hne)
  rw [hq] at hq'
  cases hq'
  exact hm.elim (absurd hcmd) (absurd hdq)

/-- The receiver is doing something else. -/
theorem of_idle (h : Recv p A u) (hrx : u'.pc.view.rxMode = u.pc.view.rxMode) : Recv p A u' :=
  ⟨h.front, h.rdIdx, by rw [hrx]; exact h.body, by rw [hrx]; exact h.args, by rw [hrx]; exact h.rtn⟩

/-- A lane with the same receiving half. -/
theorem of_rx (h : Recv p A u) (hrx : A'.rx = A.rx) : Recv p A' u := by
  refine ⟨?_, by rw [hrx]; exact h.rdIdx, ?_, by rw [hrx]; exact h.args, by rw [hrx]; exact h.rtn⟩
  · unfold Lane.Announced
    rw [hrx]
    exact h.front
  · unfold Lane.DataFront
    rw [hrx]
    exact h.body

/-- Nothing residual. -/
theorem of_zero (hsize : A'.rx.blkDataSize = 0) (hrd : A'.rx.blkRdIdx = 0) (hmode : u'.pc.view.rxMode ≠ .body)
    (hrtn : 0 < A'.rx.recvRtnArgc → p = .model ∧ ∃ argc n, u'.pc.view.rxMode = .args argc n) : Recv p A' u' :=
  ⟨fun h0 => by omega, fun _ => hrd, fun h0 => absurd h0 hmode, fun _ _ _ => hsize, hrtn⟩

/-- **A move of the receiver**, as long as `RecvReturn` finds no other message between a call
and its arguments. -/
theorem peer (h : Recv p A u) (hm : Move p.other a B A u B' A' u')
    (hok : ∀ argc n m ms, p = .model → u.pc = .recvArgs argc n → A.rx.msgQue = m :: ms →
      m.cmd = p.cmdRdy) : Recv p A' u' := by
  -- a message other than a data block is consumed
  have hpop : ∀ {m ms}, A.rx.msgQue = m :: ms → (m.cmd ≠ p.cmdRdy ∨ m.dq ≠ 0) →
      A'.rx.blkDataSize = A.rx.blkDataSize → (A'.rx.blkRdIdx = 0 ∨ A'.rx.blkRdIdx = A.rx.blkRdIdx) →
      A'.rx.recvRtnArgc = A.rx.recvRtnArgc → u.Resting → u'.pc.view.rxMode ≠ .body → Recv p A' u' := by
    intro m ms hq hm hsize hrd hrtn hr hmode
    have h0 := h.size_zero hq hm
    refine of_zero (hsize.trans h0) ?_ hmode ?_
    · rcases hrd with hrd | hrd
      · exact hrd
      · exact hrd.trans (h.rdIdx h0)
    rw [hrtn, h.rtn_zero hr]
    intro h0
    omega
  have hidle : u.pc.view.rxMode = .none → u'.pc.view.rxMode = .none → Recv p A u' :=
    fun h1 h2 => h.of_idle (h2.trans h1.symm)
  cases hm with
  | skip _ _ _ hrx => exact h.of_idle hrx
  | exhaust hpc => exact hidle (by simp [hpc, Pc.view]) rfl
  | ctor hpc => exact hidle (by simp [hpc, Pc.view]) rfl
  | flush _ _ hrx => exact h.of_idle hrx
  | ctl x hpc hpc' =>
    exact hidle (by rcases hpc with hpc | hpc <;> simp [hpc, Pc.view]) (by simp [hpc', Pc.view])
  | user m hpc => exact hidle (by simp [hpc, Pc.view]) rfl
  | data hpc => exact hidle (by simp [hpc, Pc.view]) rfl
  | arg hpc => exact hidle (by simp [hpc, Pc.view]) rfl
  | take hpc => exact hidle (by rcases hpc with hpc | hpc <;> simp [hpc, Pc.view]) rfl
  | postCall hpc => exact hidle (by simp [hpc, Pc.view]) rfl
  | credit => exact ⟨h.front, h.rdIdx, h.body, h.args, h.rtn⟩
  | que hlive hcmd =>
    rename_i m l
    refine ⟨fun h0 => ?_, h.rdIdx, fun h0 => ?_, h.args, h.rtn⟩
    · obtain ⟨m', ms', hq, hm'⟩ := h.front h0
      exact ⟨m', ms' ++ [m], by simp [Lane.setQue, hq], hm'⟩
    · obtain ⟨m', ms', hq, hm'⟩ := h.body h0
      exact ⟨m', ms' ++ [m], by simp [Lane.setQue, hq], hm'⟩
  | setup hq hs hhost =>
    rename_i m ms
    obtain ⟨-, h2, -, h4, h5⟩ := setup_rx A.rx m
    have hne : m.cmd ≠ p.cmdRdy := isSetup_ne hs
    have h0 := h.size_zero hq (.inl hne)
    refine of_zero (h2.trans h0) (h5.trans (h.rdIdx h0)) ?_ ?_
    · intro hb
      obtain ⟨m', ms', hq', hcmd, -⟩ := h.body hb
      rw [hq] at hq'
      cases hq'
      exact hne hcmd
    · exact fun h0 => h.rtn (h4 ▸ h0)
  | announce hr hk hfl hcl hq hcmd hdq hmode =>
    rename_i m ms
    rw [Party.other_other] at hcmd
    refine ⟨fun _ => ⟨m, ms, hq, hcmd, hdq, ?_⟩, fun h0 => ?_, fun _ => ⟨m, ms, hq, hcmd, hdq⟩, ?_, ?_⟩
    · by_cases h0 : A.rx.blkDataSize = 0
      · simp [Rx.announce, h0, h.rdIdx h0]
      · obtain ⟨m', ms', hq', -, -, hcnt⟩ := h.front (Nat.pos_of_ne_zero h0)
        obtain ⟨rfl, -⟩ := List.cons.inj (hq.symm.trans hq')
        simpa [Rx.announce, h0] using hcnt
    · by_cases hz : A.rx.blkDataSize = 0
      · exact h.rdIdx hz
      · simp [Rx.announce, hz] at h0
    · intro argc n hn
      rcases hmode with hm | hm <;> rw [hm] at hn <;> cases hn
    · intro h0
      exact absurd h0 (by simp [Rx.announce, h.rtn_zero hr])
  | resume hpc hpos =>
    rename_i n r
    obtain ⟨m, ms, hq, hcmd, hdq, -⟩ := h.front hpos
    refine ⟨h.front, h.rdIdx, fun _ => ⟨m, ms, hq, hcmd, hdq⟩, by simp [Thread.goto, Pc.view], ?_⟩
    intro h0
    obtain ⟨-, argc, k, hmode⟩ := h.rtn h0
    simp [hpc, Pc.view] at hmode
  | msg hr hq hcmd =>
    exact hpop hq (.inl (by rw [hcmd]; cases p <;> simp [Party.cmdRdy])) rfl (.inr rfl) rfl hr
      (by simp [Thread.finish, Pc.view])
  | ctlBlk x hr hk hmode hfl hcl hq hcmd hdq =>
    exact hpop hq (.inr (by rw [hdq]; cases x <;> decide)) rfl (.inl rfl) rfl hr (by simp [hmode])
  | call0 hr hrtn hq hcmd hdq =>
    exact hpop hq (.inr (by rw [hdq]; decide)) rfl (.inl rfl) rfl hr (by simp [Thread.finish, Pc.view])
  | callHdr hr hcnt hargc hq hms hcmd hdq hb =>
    rename_i m ms b argc
    have h0 := h.size_zero hq (.inr (by rw [hdq]; decide))
    refine of_zero (by simpa [Lane.nextRx, Lane.setQue] using h0) rfl (by simp [Thread.goto, Pc.view]) ?_
    intro hpos
    refine ⟨?_, argc, m.cnt, rfl⟩
    by_contra hp
    have hother : p.other ≠ .host := by cases p <;> simp_all [Party.other]
    simp [Lane.nextRx, Lane.setQue, Rx.setArgc, hother, h.rtn_zero hr] at hpos
  | again hp hrtn hr => exact absurd hrtn (by simp [h.rtn_zero hr])
  | abandon hp hpc hq hcmd =>
    rw [Party.other_other] at hcmd
    exact absurd (hok _ _ _ _ (by cases p <;> simp_all [Party.other]) hpc hq) hcmd
  | part hpc hcnt hlt =>
    rename_i n r cnt
    obtain ⟨m, ms, hq, hcmd, hdq, hm⟩ := h.front (by omega)
    refine ⟨fun _ => ⟨m, ms, hq, hcmd, hdq, ?_⟩, fun h0 => ?_, fun _ => ⟨m, ms, hq, hcmd, hdq⟩,
      by simp [Thread.goto, Pc.view], ?_⟩
    · simp only [Lane.read]
      omega
    · simp only [Lane.read] at h0
      omega
    intro h0
    obtain ⟨-, argc, n, hmode⟩ := h.rtn h0
    simp [hpc, Pc.view] at hmode
  | whole hpc hle hq hb =>
    rename_i n r m ms b
    refine of_zero (Nat.sub_self _) rfl (by simp [Thread.goto, Pc.view]) ?_
    intro h0
    obtain ⟨-, argc, n, hmode⟩ := h.rtn h0
    simp [hpc, Pc.view] at hmode
  | args hpc hq hcmd hdq hn hb hargv =>
    rename_i argc n m ms b argv
    have h0 := h.args argc n (by simp [hpc, Pc.view])
    refine of_zero (by simpa [Lane.deliver, Lane.nextRx, Lane.setQue] using h0)
      (by simp [Lane.deliver, Lane.nextRx, Lane.setQue]) (by simp [Thread.finish, Pc.view]) ?_
    intro hpos
    exfalso
    cases p with
    | host => exact absurd (h.rtn (by simpa [Lane.deliver, Lane.nextRx, Lane.setQue, Rx.setArgc,
        Party.other] using hpos)).1 (by simp)
    | model => simp [Lane.deliver, Lane.nextRx, Lane.setQue, Rx.setArgc, Party.other] at hpos

/-- **For every block message consumed one block goes back.** -/
theorem rdys_peer (h : Recv p A u) (hm : Move p.other a B A u B' A' u') :
    A'.rx.blkIdx + A'.rdys p = A.rx.blkIdx + A.rdys p ∧
      A'.rdys p + B'.avls p.other + u'.pc.view.unsent.countP (·.cmd = p.other.cmdAvl) =
        A.rdys p + B.avls p.other + u.pc.view.unsent.countP (·.cmd = p.other.cmdAvl) := by
  -- the receiver's lane is left alone; the opposite lane gets no returned block
  have hidle : B'.avls p.other = B.avls p.other → u'.pc.view.unsent = u.pc.view.unsent → A' = A →
      A'.rx.blkIdx + A'.rdys p = A.rx.blkIdx + A.rdys p ∧
        A'.rdys p + B'.avls p.other + u'.pc.view.unsent.countP (·.cmd = p.other.cmdAvl) =
          A.rdys p + B.avls p.other + u.pc.view.unsent.countP (·.cmd = p.other.cmdAvl) := by
    rintro hav hu rfl
    rw [hav, hu]
    exact ⟨rfl, rfl⟩
  have hsame : A'.rdys p = A.rdys p → A'.rx.blkIdx = A.rx.blkIdx → B'.avls p.other = B.avls p.other →
      u'.pc.view.unsent = u.pc.view.unsent →
      A'.rx.blkIdx + A'.rdys p = A.rx.blkIdx + A.rdys p ∧
        A'.rdys p + B'.avls p.other + u'.pc.view.unsent.countP (·.cmd = p.other.cmdAvl) =
          A.rdys p + B.avls p.other + u.pc.view.unsent.countP (·.cmd = p.other.cmdAvl) := by
    intro hrd hidx hav hu
    rw [hrd, hidx, hav, hu]
    exact ⟨rfl, rfl⟩
  have hdrop : ∀ {m ms}, A.rx.msgQue = m :: ms → m.cmd ≠ p.cmdRdy → A'.rx.msgQue = ms →
      A'.live = A.live → A'.rdys p = A.rdys p := by
    intro m ms hq hcmd hq' hl
    have hrd := Lane.rdys_pop (p := p) hq hq' hl
    rw [if_neg hcmd, Nat.add_zero] at hrd
    exact hrd.symm
  have hpop : ∀ {m ms}, A.rx.msgQue = m :: ms → m.cmd = p.cmdRdy → A'.rx.msgQue = ms →
      A'.live = A.live → A'.rx.blkIdx = A.rx.blkIdx + 1 → B'.avls p.other = B.avls p.other + 1 →
      u'.pc.view.unsent = u.pc.view.unsent →
      A'.rx.blkIdx + A'.rdys p = A.rx.blkIdx + A.rdys p ∧
        A'.rdys p + B'.avls p.other + u'.pc.view.unsent.countP (·.cmd = p.other.cmdAvl) =
          A.rdys p + B.avls p.other + u.pc.view.unsent.countP (·.cmd = p.other.cmdAvl) := by
    intro m ms hq hcmd hq' hl hidx hav hu
    have hrd := Lane.rdys_pop (p := p) hq hq' hl
    rw [if_pos hcmd] at hrd
    rw [hidx, hav, hu]
    omega
  have havl : ∀ (L : Lane) (i : ℕ), (L.post (p.other.avlMsg i)).avls p.other = L.avls p.other + 1 := by
    intro L i
    rw [Lane.avls_post, Party.cmd_avlMsg, if_pos rfl]
  have hfill : ∀ {b : BlkParam} {L : Lane}, L.Filled p.other b B' → L.avls p.other = B.avls p.other →
      B'.avls p.other = B.avls p.other := by
    intro b L hf hL
    rcases hf with ⟨-, ⟨rfl, -⟩ | ⟨-, -, -, rfl⟩⟩
    · exact hL
    · exact (Lane.avls_flush _ _ _ _).trans hL
  cases hm with
  | skip hk => exact hidle rfl hk.unsent rfl
  | exhaust hpc => exact hidle rfl (by simp [hpc, Pc.view, Thread.goto]) rfl
  | ctor hpc =>
    rename_i m ms
    refine ⟨rfl, ?_⟩
    simp only [hpc, Pc.view, Thread.goto, Lane.avls_post, List.countP_cons, decide_eq_true_eq]
    omega
  | flush hk _ _ _ _ hf =>
    rcases hf with ⟨-, rfl⟩ | ⟨-, hpos, b, -, rfl⟩
    · exact hidle rfl hk.unsent rfl
    · exact hidle (Lane.avls_flush _ _ _ _) hk.unsent rfl
  | ctl x hpc hpc' =>
    refine hidle ?_ (by rcases hpc with hpc | hpc <;> simp [hpc, hpc', Pc.view]) rfl
    rw [Lane.avls_accept, Lane.avls_flush]
  | user m hpc =>
    have hcmd := CtrlMsg.cmd_make_user m.type_ge m.type_lt m.msgData
    refine hidle ?_ (by simp [hpc, Pc.view, Thread.finish]) rfl
    rw [Lane.avls_accept, Lane.avls_post, hcmd, if_neg (by cases p <;> simp [Party.cmdAvl, Party.other])]
    rfl
  | data hpc _ _ _ _ hf => exact hidle (hfill hf rfl) (by simp [hpc, Pc.view, Thread.goto]) rfl
  | arg hpc _ _ _ _ hf => exact hidle (hfill hf rfl) (by simp [hpc, Pc.view, Thread.goto]) rfl
  | take hpc => exact hidle rfl (by rcases hpc with hpc | hpc <;> simp [hpc, Pc.view, Thread.goto]) rfl
  | postCall hpc =>
    refine hidle ?_ (by simp [hpc, Pc.view, Thread.goto]) rfl
    rw [Lane.avls_accept, Lane.avls_post, Party.cmd_rdyMsg, if_neg (Party.cmdRdy_ne_cmdAvl _ _)]
    rfl
  | credit hlive hcmd =>
    rw [Party.other_other] at hcmd
    have hrd := Lane.rdys_fetch (p := p) hlive (by rw [hcmd]; exact (Party.cmdRdy_ne_cmdAvl p p).symm)
    rw [hrd]
    exact ⟨rfl, rfl⟩
  | que hlive hcmd => exact hsame (Lane.rdys_que hlive) rfl rfl rfl
  | setup hq hs hhost =>
    rename_i m ms
    obtain ⟨-, -, h3, -, -⟩ := setup_rx A.rx m
    exact hsame (hdrop hq (isSetup_ne hs) rfl rfl) h3 rfl rfl
  | announce hr hk => exact hsame (Lane.rdys_rx A p rfl) rfl rfl hk.unsent
  | resume hpc => exact hidle rfl (by simp [hpc, Pc.view, Thread.goto]) rfl
  | msg hr hq hcmd =>
    have hne := hdrop hq (by rw [hcmd]; cases p <;> simp [Party.cmdRdy]) rfl rfl
    exact hsame hne rfl rfl hr.unsent.symm
  | ctlBlk x hr hk _ _ _ hq hcmd =>
    rw [Party.other_other] at hcmd
    exact hpop hq hcmd rfl rfl rfl (havl _ _) hk.unsent
  | call0 hr _ hq hcmd =>
    rw [Party.other_other] at hcmd
    exact hpop hq hcmd rfl rfl rfl (havl _ _) hr.unsent.symm
  | callHdr hr _ _ hq _ hcmd =>
    rw [Party.other_other] at hcmd
    exact hpop hq hcmd rfl rfl (by simp [Lane.nextRx, Lane.setQue]) (havl _ _) hr.unsent.symm
  | again hp hrtn hr => exact absurd hrtn (by simp [h.rtn_zero hr])
  | abandon _ hpc => exact hidle rfl (by simp [hpc, Pc.view, Thread.finish]) rfl
  | part hpc => exact hsame rfl rfl rfl (by simp [hpc, Pc.view, Thread.goto])
  | whole hpc hle hq =>
    obtain ⟨m', ms', hq', hcmd, -⟩ := h.body (by simp [hpc, Pc.view])
    rw [hq] at hq'
    cases hq'
    exact hpop hq hcmd rfl rfl rfl (havl _ _) (by simp [hpc, Pc.view, Thread.goto])
  | args hpc hq hcmd =>
    rw [Party.other_other] at hcmd
    exact hpop hq hcmd (by simp [Lane.deliver, Lane.nextRx, Lane.setQue]) rfl
      (by simp [Lane.deliver, Lane.nextRx, Lane.setQue]) (havl _ _) (by simp [hpc, Pc.view, Thread.finish])

end Recv

end OpenHT.Host
