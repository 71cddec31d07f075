import OpenHT.Host.Recv

/-!
# Block credits

The blocks of a direction `p` are either free at the sender (`blkAvailCnt`), announced
and not yet given back (`rdys`), or on their way back (`avls`); one more may be in the
sender's hands between the empty block of a call and its call message (`held`).

* `Credit`: these places add up to the block count, and the indices of both ends agree.
* `Credit.own`, `Credit.peer`: a move of the sender or of the receiver keeps it.
-/

namespace OpenHT.Host

open Host.Core

/-- The credits of direction `p`: `A` is its lane, `B` the opposite one, `t` the sender's
thread and `u` the receiver's. -/
structure Credit (cfg : Cfg) (p : Party) (A B : Lane) (t u : Thread) : Prop extends Recv p A u where
  sum : A.tx.blkAvailCnt + A.rdys p + B.avls p.other + t.pc.view.held +
    u.pc.view.unsent.countP (·.cmd = p.other.cmdAvl) = cfg.blkCnt p
  idx : A.tx.blkIdx = A.rx.blkIdx + A.rdys p + t.pc.view.held
  nonneg : 0 ≤ A.tx.blkAvailCnt
  room : 0 < A.tx.blkWrIdx → 0 < A.tx.blkAvailCnt
  unsent : ∀ m ∈ t.pc.view.unsent, m.cmd ≠ p.cmdRdy

variable {cfg : Cfg} {p : Party} {a : Act} {A A' B B' : Lane} {t t' u u' : Thread}

theorem PcView.held_eq {v v' : PcView} (h : v'.args = v.args) : v'.held = v.held := by
  simp [held, h]

namespace Credit

/-- What a move of the sender has to show: the sum and the indices still fit, and the
receiver's view of the lane is the same. -/
theorem of_sender (h : Credit cfg p A B t u)
    (hsum : A'.tx.blkAvailCnt + A'.rdys p + B'.avls p.other + t'.pc.view.held =
      A.tx.blkAvailCnt + A.rdys p + B.avls p.other + t.pc.view.held)
    (hidx : A'.tx.blkIdx + A.rdys p + t.pc.view.held = A.tx.blkIdx + A'.rdys p + t'.pc.view.held)
    (hnonneg : 0 ≤ A'.tx.blkAvailCnt) (hroom : 0 < A'.tx.blkWrIdx → 0 < A'.tx.blkAvailCnt)
    (hunsent : ∀ m ∈ t'.pc.view.unsent, m ∈ t.pc.view.unsent) (hrx : A'.rx = A.rx) :
    Credit cfg p A' B' t' u where
  sum := by have := h.sum; omega
  idx := by have := h.idx; rw [hrx]; omega
  nonneg := hnonneg
  room := hroom
  unsent m hm := h.unsent m (hunsent m hm)
  toRecv := h.toRecv.of_rx hrx

/-- A move of the sender that leaves its blocks alone. -/
theorem of_same (h : Credit cfg p A B t u) (htx : A'.tx.blkAvailCnt = A.tx.blkAvailCnt ∧
      A'.tx.blkWrIdx = A.tx.blkWrIdx ∧ A'.tx.blkIdx = A.tx.blkIdx) (hrdys : A'.rdys p = A.rdys p)
    (hrx : A'.rx = A.rx) (havls : B'.avls p.other = B.avls p.other)
    (hheld : t'.pc.view.held = t.pc.view.held)
    (hunsent : ∀ m ∈ t'.pc.view.unsent, m ∈ t.pc.view.unsent) : Credit cfg p A' B' t' u := by
  obtain ⟨h1, h2, h3⟩ := htx
  refine h.of_sender ?_ ?_ ?_ ?_ hunsent hrx
  · rw [h1, hrdys, havls, hheld]
  · rw [h3, hrdys, hheld]
  · rw [h1]; exact h.nonneg
  · rw [h1, h2]; exact h.room

/-- A block is announced. -/
theorem of_flush (h : Credit cfg p A B t u) {b : BlkParam} {ctl : ℕ} {L : Lane}
    (hL : L.tx.blkAvailCnt = A.tx.blkAvailCnt ∧ L.tx.blkIdx = A.tx.blkIdx) (hr : L.rdys p = A.rdys p)
    (hrx : L.rx = A.rx) (hA : A' = L.flush p b ctl ∨ ∃ l, A' = (L.flush p b ctl).accept l) (hpos : 0 < A.tx.blkAvailCnt)
    (hheld : t'.pc.view.held = t.pc.view.held)
    (hunsent : ∀ m ∈ t'.pc.view.unsent, m ∈ t.pc.view.unsent) : Credit cfg p A' B t' u := by
  obtain ⟨h1, h2⟩ := hL
  have hav : A'.tx.blkAvailCnt = A.tx.blkAvailCnt - 1 := by
    rw [← h1]; rcases hA with rfl | ⟨l, rfl⟩ <;> rfl
  have hix : A'.tx.blkIdx = A.tx.blkIdx + 1 := by rw [← h2]; rcases hA with rfl | ⟨l, rfl⟩ <;> rfl
  have hwr : A'.tx.blkWrIdx = 0 := by rcases hA with rfl | ⟨l, rfl⟩ <;> rfl
  have hrd : A'.rdys p = A.rdys p + 1 := by
    rw [← hr, ← Lane.rdys_flush L p b ctl]; rcases hA with rfl | ⟨l, rfl⟩ <;> rfl
  have hrx' : A'.rx = A.rx := by rw [← hrx]; rcases hA with rfl | ⟨l, rfl⟩ <;> rfl
  refine h.of_sender ?_ ?_ ?_ ?_ hunsent hrx'
  · rw [hav, hrd, hheld]; push_cast; omega
  · rw [hix, hrd, hheld]; omega
  · rw [hav]; omega
  · rw [hwr]; exact fun h0 => absurd h0 (lt_irrefl 0)

/-- The end of a chunk of data or arguments. -/
theorem of_filled (h : Credit cfg p A B t u) {b : BlkParam} {chunk : List Qw} {l : List Item} {L : Lane}
    (hL : L = (A.write chunk).accept l ∨ L = A.write chunk) (hf : L.Filled p b A')
    (hpos : 0 < A.tx.blkAvailCnt) (hheld : t'.pc.view.held = t.pc.view.held)
    (hunsent : ∀ m ∈ t'.pc.view.unsent, m ∈ t.pc.view.unsent) : Credit cfg p A' B t' u := by
  have hav : L.tx.blkAvailCnt = A.tx.blkAvailCnt := by rcases hL with rfl | rfl <;> rfl
  have hix : L.tx.blkIdx = A.tx.blkIdx := by rcases hL with rfl | rfl <;> rfl
  have hrd : L.rdys p = A.rdys p := by rcases hL with rfl | rfl <;> rfl
  have hrx : L.rx = A.rx := by rcases hL with rfl | rfl <;> rfl
  rcases hf with ⟨-, ⟨rfl, -⟩ | ⟨-, -, -, rfl⟩⟩
  · refine h.of_sender ?_ ?_ ?_ ?_ hunsent hrx
    · rw [hav, hrd, hheld]
    · rw [hix, hrd, hheld]
    · rw [hav]; exact h.nonneg
    · rw [hav]; exact fun _ => hpos
  · exact h.of_flush ⟨hav, hix⟩ hrd hrx (.inl rfl) hpos hheld hunsent

/-- The sender receives: a block of the other lane may go back. -/
theorem of_recv (h : Credit cfg p A B t u) (hA : A' = A ∨ ∃ i, A' = A.post (p.avlMsg i))
    (hB : B'.live = B.live) (hargs : t'.pc.view.args = t.pc.view.args)
    (hunsent : t'.pc.view.unsent = []) : Credit cfg p A' B' t' u := by
  have hav : B'.avls p.other = B.avls p.other := by simp [Lane.avls, hB]
  rcases hA with rfl | ⟨i, rfl⟩
  · exact h.of_same ⟨rfl, rfl, rfl⟩ rfl rfl hav (PcView.held_eq hargs) (by simp [hunsent])
  · refine h.of_same ⟨rfl, rfl, rfl⟩ ?_ rfl hav (PcView.held_eq hargs) (by simp [hunsent])
    rw [Lane.rdys_post, Party.cmd_avlMsg, if_neg (Party.cmdRdy_ne_cmdAvl p p).symm]
    rfl

/-- **A move of the sender keeps the credits.** -/
theorem own (h : Credit cfg p A B t u) (hm : Move p a A B t A' B' t') : Credit cfg p A' B' t' u := by
  cases hm with
  | skip hk => exact h.of_same ⟨rfl, rfl, rfl⟩ rfl rfl rfl (PcView.held_eq hk.args) (by simp [hk.unsent])
  | exhaust hpc =>
    refine h.of_same ⟨rfl, rfl, rfl⟩ rfl rfl rfl (PcView.held_eq ?_) ?_ <;>
      simp [hpc, Pc.view, Thread.goto]
  | ctor hpc =>
    rename_i m ms
    have hmem : m ∈ t.pc.view.unsent := by simp [hpc, Pc.view]
    refine h.of_same ⟨rfl, rfl, rfl⟩ ?_ rfl rfl (PcView.held_eq ?_) ?_
    · simp [h.unsent m hmem]
    · simp [hpc, Pc.view, Thread.goto]
    · intro x hx
      simp only [hpc, Pc.view, List.mem_cons]
      exact .inr hx
  | flush hk _ _ _ _ hf =>
    rcases hf with ⟨-, rfl⟩ | ⟨-, hpos, b, -, rfl⟩
    · exact h.of_same ⟨rfl, rfl, rfl⟩ rfl rfl rfl (PcView.held_eq hk.args) (by simp [hk.unsent])
    · exact h.of_flush ⟨rfl, rfl⟩ rfl rfl (.inl rfl) hpos (PcView.held_eq hk.args)
        (by simp [hk.unsent])
  | ctl x hpc hpc' hpos hb =>
    refine h.of_flush ⟨rfl, rfl⟩ rfl rfl (.inr ⟨_, rfl⟩) hpos (PcView.held_eq ?_) ?_
    · rcases hpc with hpc | hpc <;> simp [hpc, hpc', Pc.view]
    · simp [hpc', Pc.view]
  | user m hpc =>
    have hcmd := CtrlMsg.cmd_make_user m.type_ge m.type_lt m.msgData
    refine h.of_same ⟨rfl, rfl, rfl⟩ ?_ rfl rfl (PcView.held_eq ?_) ?_
    · rw [Lane.rdys_accept, Lane.rdys_post, hcmd, if_neg (by cases p <;> simp [Party.cmdRdy])]
      rfl
    · simp [hpc, Pc.view, Thread.finish]
    · simp [Pc.view, Thread.finish]
  | data hpc hn hpos hb hchunk hf =>
    refine h.of_filled (.inl rfl) hf hpos (PcView.held_eq ?_) ?_ <;> simp [hpc, Pc.view, Thread.goto]
  | arg hpc hn hpos hb hchunk hf =>
    refine h.of_filled (l := []) (.inr rfl) hf hpos ?_ ?_ <;>
      simp [PcView.held, hpc, Pc.view, Thread.goto]
  | take hpc htwo hb =>
    rename_i b argv
    have hh : t.pc.view.held = 0 := by rcases hpc with hpc | hpc <;> simp [PcView.held, hpc, Pc.view]
    have hh' : (t.goto (.callData argv 0)).pc.view.held = 1 := by
      simp [PcView.held, Thread.goto, Pc.view]
    refine h.of_sender ?_ ?_ ?_ ?_ (by simp [Pc.view, Thread.goto]) rfl
    · rw [hh, hh', Lane.rdys_next]; simp only [Lane.next]; push_cast; omega
    · rw [hh, hh', Lane.rdys_next]; simp only [Lane.next]; omega
    · simp only [Lane.next]; omega
    · simp [Lane.next]
  | postCall hpc =>
    rename_i argv
    have hh : t.pc.view.held = 1 := by simp [PcView.held, hpc, Pc.view]
    have hh' : (t.goto (.callFlush argv)).pc.view.held = 0 := by
      simp [PcView.held, Thread.goto, Pc.view]
    have hrd : ((A.post (p.rdyMsg argv.length hifDqCall)).accept [.call argv]).rdys p =
        A.rdys p + 1 := by
      rw [Lane.rdys_accept, Lane.rdys_post, Party.cmd_rdyMsg, if_pos rfl]
    refine h.of_sender ?_ ?_ h.nonneg h.room (by simp [Pc.view, Thread.goto]) rfl
    · rw [hh, hh', hrd]; simp only [Lane.accept, Lane.post]; push_cast; omega
    · rw [hh, hh', hrd]; simp only [Lane.accept, Lane.post]; omega
  | credit hlive hcmd =>
    rename_i m l
    have hav := Lane.avls_fetch (p := p.other) hlive
    rw [if_pos hcmd] at hav
    refine h.of_sender ?_ rfl ?_ ?_ (fun _ hx => hx) rfl
    · rw [hav, Lane.rdys_credit]; simp only [Lane.credit]; push_cast; omega
    · have := h.nonneg; simp only [Lane.credit]; omega
    · have := h.nonneg; simp only [Lane.credit]; omega
  | que hlive hcmd =>
    rename_i m l
    have hav := Lane.avls_fetch (p := p.other) hlive
    rw [if_neg hcmd, Nat.add_zero] at hav
    exact h.of_same ⟨rfl, rfl, rfl⟩ rfl rfl hav.symm rfl (fun _ hx => hx)
  | setup hq hs hhost =>
    rename_i m ms
    obtain ⟨h1, h2, h3⟩ := setup_tx A.tx m
    exact h.of_same ⟨h1, h2, h3⟩ rfl rfl rfl rfl (fun _ hx => hx)
  | announce hr hk => exact h.of_recv (.inl rfl) rfl hk.args (hk.unsent.trans hr.unsent)
  | resume hpc => exact h.of_recv (.inl rfl) rfl (by simp [hpc, Thread.goto, Pc.view]) rfl
  | msg hr => exact h.of_recv (.inl rfl) rfl hr.args.symm rfl
  | ctlBlk x hr hk => exact h.of_recv (.inr ⟨_, rfl⟩) rfl hk.args (hk.unsent.trans hr.unsent)
  | call0 hr => exact h.of_recv (.inr ⟨_, rfl⟩) rfl hr.args.symm rfl
  | callHdr hr => exact h.of_recv (.inr ⟨_, rfl⟩) rfl hr.args.symm rfl
  | again hp hrtn hr => exact h.of_recv (.inl rfl) rfl hr.args.symm rfl
  | abandon hp hpc => exact h.of_recv (.inl rfl) rfl (by simp [hpc, Thread.finish, Pc.view]) rfl
  | part hpc => exact h.of_recv (.inl rfl) rfl (by simp [hpc, Thread.goto, Pc.view]) rfl
  | whole hpc => exact h.of_recv (.inr ⟨_, rfl⟩) rfl (by simp [hpc, Thread.goto, Pc.view]) rfl
  | args hpc => exact h.of_recv (.inr ⟨_, rfl⟩) rfl (by simp [hpc, Thread.finish, Pc.view]) rfl

/-- **A move of the receiver keeps the credits**, as long as `RecvReturn` finds no other
message between a call and its arguments. -/
theorem peer (h : Credit cfg p A B t u) (hm : Move p.other a B A u B' A' u')
    (hok : ∀ argc n m ms, p = .model → u.pc = .recvArgs argc n → A.rx.msgQue = m :: ms →
      m.cmd = p.cmdRdy) : Credit cfg p A' B' t u' := by
  obtain ⟨hidx, hsum⟩ := h.toRecv.rdys_peer hm
  have htx : A'.tx = A.tx := hm.tx_peer
  refine ⟨h.toRecv.peer hm hok, ?_, ?_, ?_, ?_, h.unsent⟩
  · have := h.sum
    rw [htx]
    omega
  · have := h.idx
    rw [htx]
    omega
  · rw [htx]
    exact h.nonneg
  · rw [htx]
    exact h.room

end Credit

end OpenHT.Host
