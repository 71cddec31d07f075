import OpenHT.Host.Setup

/-!
# The sending half of a unit

The invariants of a direction that concern its sender alone, in runs in which every call
fits one block (`CallsFit`). No move of the receiver touches them.

* `Sender`: how full the current block is at each point of the sending operations, and
  that what was taken over is what the operations report.
* `reach_sender`: it holds in every such run.
-/

namespace OpenHT.Host

open Host.Core Lts

variable {cfg : Cfg} {p : Party} {a : Act} {A A' B B' : Lane} {t t' u u' : Thread} {s : Sys}
  {ok : Sys → Act → Prop}

/-- The arguments of every call (or return) of `p` are fewer quadwords than a block. -/
def CallsFit (cfg : Cfg) (p : Party) (_ : Sys) (a : Act) : Prop :=
  a.party = p → ∀ x, a.argv = some x → x.length < cfg.blkSize p

/-- A block holds at least 8192 quadwords, and far less than `2 ^ 53`. -/
theorem blkSize_bounds (cfg : Cfg) (p : Party) : 8192 ≤ cfg.blkSize p ∧ cfg.blkSize p < 2 ^ 53 := by
  obtain ⟨-, -, hi, -, ho, -⟩ := HifParams.admitted_iff.1 cfg.admitted
  have hw : 16 ≤ cfg.blkSizeW p ∧ cfg.blkSizeW p ≤ 25 := by
    cases p with
    | host => exact hi
    | model => exact ho
  have hlo : 2 ^ 16 ≤ 2 ^ cfg.blkSizeW p := Nat.pow_le_pow_right (by omega) hw.1
  have hhi : 2 ^ cfg.blkSizeW p ≤ 2 ^ 25 := Nat.pow_le_pow_right (by omega) hw.2
  rw [Cfg.blkSize, Nat.one_shiftLeft]
  omega

/-- The sending half of lane `A`, `t` being its thread. -/
structure Sender (cfg : Cfg) (p : Party) (A : Lane) (t : Thread) : Prop where
  clean : t.pc.view.clean → A.tx.blkWrIdx = 0
  lt : A.tx.blkWrIdx < cfg.blkSize p
  args : ∀ w, t.pc.view.args = some w → A.tx.blkWrIdx = w.length ∧ 0 < A.tx.blkAvailCnt
  flushing : ∀ w, t.pc.view.flushing = some w → A.tx.blkWrIdx = w.length
  argv : ∀ w, t.pc.view.argv = some w → w.length < cfg.blkSize p
  stuck : t.pc.view.stuck = false
  sent : A.acc = t.sent
  unsent : ∀ m ∈ t.pc.view.unsent, m.cmd.isSetup ∨ m.cmd = p.cmdAvl

namespace Sender

/-- The current block and its credits stay as they are. -/
theorem of_keeps (h : Sender cfg p A t) (hk : Keeps a t t')
    (hfit : ∀ x, a.argv = some x → x.length < cfg.blkSize p)
    (htx : A'.tx.blkWrIdx = A.tx.blkWrIdx ∧ A.tx.blkAvailCnt ≤ A'.tx.blkAvailCnt) (hacc : A'.acc = A.acc)
    (hclean : t'.pc.view.clean → t.pc.view.clean)
    (hfl : t'.pc.view.flushing = none ∨ t'.pc.view.flushing = t.pc.view.flushing) : Sender cfg p A' t' where
  clean hc := by rw [htx.1]; exact h.clean (hclean hc)
  lt := by rw [htx.1]; exact h.lt
  args w hw := by
    have hw' := h.args w (hk.args ▸ hw)
    exact ⟨htx.1.trans hw'.1, lt_of_lt_of_le hw'.2 htx.2⟩
  flushing w hw := by
    rcases hfl with hfl | hfl
    · rw [hfl] at hw
      cases hw
    · rw [htx.1]
      exact h.flushing w (hfl ▸ hw)
  argv w hw := by
    rcases hk.argv w hw with hw' | hw'
    · exact h.argv w hw'
    · exact hfit w hw'
  stuck := by
    by_contra hs
    have := hk.stuck (by simpa using hs)
    rw [h.stuck] at this
    cases this
  sent := by rw [hacc, hk.sent]; exact h.sent
  unsent m hm := h.unsent m (hk.unsent ▸ hm)

/-- A thread that has nothing to do with calls, and an empty or partly filled block. -/
theorem of_plain (hlt : A'.tx.blkWrIdx < cfg.blkSize p) (hsent : A'.acc = t'.sent)
    (hargs : t'.pc.view.args = none) (hargv : t'.pc.view.argv = none) (hfl : t'.pc.view.flushing = none)
    (hstuck : t'.pc.view.stuck = false) (hunsent : t'.pc.view.unsent = [])
    (hclean : t'.pc.view.clean → A'.tx.blkWrIdx = 0) : Sender cfg p A' t' where
  clean := hclean
  lt := hlt
  args w hw := by rw [hargs] at hw; cases hw
  flushing w hw := by rw [hfl] at hw; cases hw
  argv w hw := by rw [hargv] at hw; cases hw
  stuck := hstuck
  sent := hsent
  unsent m hm := by rw [hunsent] at hm; cases hm

/-- A full block is flushed, so the current one is never full. -/
theorem filled_lt {L : Lane} {b : BlkParam} (hf : L.Filled p b A') (hb : b.size = cfg.blkSize p) :
    A'.tx.blkWrIdx < cfg.blkSize p ∧ A'.acc = L.acc := by
  have hsize := (blkSize_bounds cfg p).1
  rcases hf with ⟨-, ⟨rfl, hlt⟩ | ⟨-, -, -, rfl⟩⟩
  · exact ⟨by omega, rfl⟩
  · refine ⟨?_, rfl⟩
    simp only [Lane.flush, Lane.next, Lane.post]
    omega

/-- The arguments of a call fit its block in one piece. -/
theorem arg_chunk (h : Sender cfg p A t) {d chunk : List Qw} {n : ℕ} {b : BlkParam}
    (hpc : t.pc = .callData d n) (hn : n < d.length) (hb : b.size = cfg.blkSize p)
    (hchunk : chunk = (d.drop n).take (b.size - A.tx.blkWrIdx)) :
    A.tx.blkWrIdx = n ∧ n + chunk.length = d.length ∧ d.length < cfg.blkSize p ∧ chunk = d.drop n := by
  have hw := (h.args (d.take n) (by simp [hpc, Pc.view])).1
  rw [List.length_take_of_le hn.le] at hw
  have hfit := h.argv d (by simp [hpc, Pc.view])
  have hall : chunk = d.drop n := by
    rw [hchunk, List.take_of_length_le]
    rw [List.length_drop]
    omega
  refine ⟨hw, ?_, hfit, hall⟩
  rw [hall, List.length_drop]
  omega

/-- **A move of the sender.** -/
theorem own (h : Sender cfg p A t) (hx : TxKnown cfg p A.tx)
    (hm : Move p a A B t A' B' t') (hfit : ∀ x, a.argv = some x → x.length < cfg.blkSize p) :
    Sender cfg p A' t' := by
  have hsize := (blkSize_bounds cfg p).1
  have hb_size : ∀ b, A.tx.param = some b → b.size = cfg.blkSize p := by
    intro b hb
    rw [(hx.known b hb).1]
    rfl
  -- a receiving operation that goes on or returns
  have hrecv : ∀ m, t'.pc.view = { rxMode := m } → t.pc.view.prog = [] → t'.done = t.done →
      A'.tx.blkWrIdx = A.tx.blkWrIdx → A'.acc = A.acc → Sender cfg p A' t' := by
    intro m hv hprog hdone hw hacc
    refine of_plain (by rw [hw]; exact h.lt) ?_ ?_ ?_ ?_ ?_ ?_ ?_
    · rw [hacc, h.sent, Thread.sent, Thread.sent, hprog, hdone, hv]
    all_goals simp [hv]
  cases hm with
  | skip hk hcl hfl => exact h.of_keeps hk hfit ⟨rfl, le_rfl⟩ rfl hcl (.inr hfl)
  | exhaust hpc hn h0 =>
    rename_i argv n
    have hav := (h.args (argv.take n) (by simp [hpc, Pc.view])).2
    rw [h0] at hav
    exact absurd hav (lt_irrefl 0)
  | ctor hpc =>
    rename_i m ms
    have hw := h.clean (by simp [hpc, Pc.view])
    refine ⟨fun _ => hw, h.lt, ?_, ?_, ?_, rfl, ?_, ?_⟩
    · intro w hw'; cases hw'
    · intro w hw'; cases hw'
    · intro w hw'; cases hw'
    · exact h.sent.trans (by simp [Thread.sent, hpc, Pc.view, Thread.goto])
    · intro x hx
      have hmem : x ∈ m :: ms := List.mem_cons_of_mem m hx
      exact h.unsent x (by simpa [hpc, Pc.view] using hmem)
  | flush hk hfl _ hstuck hu hf =>
    have hargs : t.pc.view.args = none := by
      by_contra hne
      have := hstuck (Option.isSome_iff_ne_none.2 hne)
      rw [h.stuck] at this
      cases this
    have hzero : A'.tx.blkWrIdx = 0 ∧ A'.acc = A.acc := by
      rcases hf with ⟨h0, rfl⟩ | ⟨-, -, b, -, rfl⟩
      · exact ⟨h0, rfl⟩
      · exact ⟨rfl, rfl⟩
    refine ⟨fun _ => hzero.1, by omega, ?_, ?_, ?_, ?_, ?_, ?_⟩
    · intro w hw
      rw [hk.args, hargs] at hw
      cases hw
    · intro w hw
      rw [hfl] at hw
      cases hw
    · intro w hw
      rcases hk.argv w hw with hw' | hw'
      · exact h.argv w hw'
      · exact hfit w hw'
    · by_contra hs
      have := hk.stuck (by simpa using hs)
      rw [h.stuck] at this
      cases this
    · rw [hzero.2, hk.sent]
      exact h.sent
    · rw [hk.unsent, hu]
      simp
  | ctl x hpc hpc' _ _ hdone =>
    have hprog : t.pc.view.prog = [] := by rcases hpc with hpc | hpc <;> simp [hpc, Pc.view]
    refine of_plain (show 0 < _ by omega) ?_ ?_ ?_ ?_ ?_ ?_ (fun _ => rfl)
    · simp only [Lane.accept, Lane.flush, Lane.next, Lane.post, Thread.sent, hdone, hpc', Pc.view]
      rw [h.sent, Thread.sent, hprog]
      simp
    all_goals simp [hpc', Pc.view]
  | user m hpc =>
    have hw := h.clean (by simp [hpc, Pc.view])
    refine of_plain (show A.tx.blkWrIdx < _ from h.lt) ?_ rfl rfl rfl rfl rfl (fun hc => hw)
    simp only [Lane.accept, Lane.post, h.sent, Thread.sent, hpc, Pc.view, Thread.finish]
    simp
  | data hpc hn hpos hb hchunk hf =>
    rename_i d n b chunk
    obtain ⟨hlt, hacc⟩ := filled_lt hf (hb_size b hb)
    refine of_plain hlt ?_ rfl rfl rfl rfl rfl (by simp [Thread.goto, Pc.view])
    have htake : d.take (n + chunk.length) = d.take n ++ chunk := by
      rw [List.take_add, hchunk, List.length_take, ← List.take_take, List.take_of_length_le
        (l := List.drop n d) (i := (List.drop n d).length) le_rfl]
    rw [hacc]
    simp only [Lane.accept, Lane.write, h.sent, Thread.sent, hpc, Pc.view, Thread.goto, htake,
      List.map_append, List.append_assoc]
  | arg hpc hn hpos hb hchunk hf =>
    rename_i d n b chunk
    obtain ⟨hw, hlen, hfit', -⟩ := h.arg_chunk hpc hn (hb_size b hb) hchunk
    have hA : A' = A.write chunk := by
      rcases hf with ⟨-, ⟨rfl, -⟩ | ⟨hfull, -⟩⟩
      · rfl
      · -- a full block would mean that the arguments do not fit
        simp only [Lane.write] at hfull
        have := hb_size b hb
        omega
    subst hA
    refine ⟨?_, ?_, ?_, ?_, ?_, rfl, ?_, ?_⟩
    · simp [Thread.goto, Pc.view]
    · simp only [Lane.write]
      omega
    · intro w hw'
      obtain rfl : d.take (n + chunk.length) = w := by simpa [Thread.goto, Pc.view] using hw'
      refine ⟨?_, hpos⟩
      simp only [Lane.write, List.length_take]
      omega
    · simp [Thread.goto, Pc.view]
    · intro w hw'
      obtain rfl : d = w := by simpa [Thread.goto, Pc.view] using hw'
      exact hfit'
    · exact h.sent.trans (by simp [Thread.sent, hpc, Pc.view, Thread.goto])
    · simp [Thread.goto, Pc.view]
  | take hpc htwo hb =>
    rename_i b argv
    refine ⟨?_, show 0 < _ by omega, ?_, ?_, ?_, rfl, ?_, ?_⟩
    · simp [Thread.goto, Pc.view]
    · intro w hw
      obtain rfl : [] = w := by simpa [Thread.goto, Pc.view] using hw
      exact ⟨rfl, by simp only [Lane.next]; omega⟩
    · simp [Thread.goto, Pc.view]
    · intro w hw
      obtain rfl : argv = w := by simpa [Thread.goto, Pc.view] using hw
      exact h.argv argv (by rcases hpc with hpc | hpc <;> simp [hpc, Pc.view])
    · refine h.sent.trans ?_
      rcases hpc with hpc | hpc <;> simp [Thread.sent, hpc, Pc.view, Thread.goto]
    · simp [Thread.goto, Pc.view]
  | postCall hpc =>
    rename_i argv
    have hw := (h.args argv (by simp [hpc, Pc.view])).1
    refine ⟨?_, h.lt, ?_, ?_, ?_, rfl, ?_, ?_⟩
    · simp [Thread.goto, Pc.view]
    · simp [Thread.goto, Pc.view]
    · intro w hw'
      obtain rfl : argv = w := by simpa [Thread.goto, Pc.view] using hw'
      exact hw
    · intro w hw'
      obtain rfl : argv = w := by simpa [Thread.goto, Pc.view] using hw'
      exact h.argv argv (by simp [hpc, Pc.view])
    · simp only [Lane.accept, Lane.post, h.sent, Thread.sent, hpc, Pc.view, Thread.goto]
      simp
    · simp [Thread.goto, Pc.view]
  | credit hlive hcmd =>
    exact h.of_keeps (a := a) .rfl' hfit ⟨rfl, by simp [Lane.credit]⟩ rfl id (.inr rfl)
  | que hlive hcmd => exact h.of_keeps (a := a) .rfl' hfit ⟨rfl, le_rfl⟩ rfl id (.inr rfl)
  | setup hq hs hhost =>
    rename_i m ms
    obtain ⟨h1, h2, -⟩ := setup_tx A.tx m
    exact h.of_keeps (a := a) .rfl' hfit ⟨h2, h1.ge⟩ rfl id (.inr rfl)
  | announce hr hk hfl hcl =>
    exact h.of_keeps hk hfit ⟨rfl, le_rfl⟩ rfl (by simp [hcl]) (.inl hfl)
  | resume hpc => exact hrecv _ rfl (by simp [hpc, Pc.view]) rfl rfl rfl
  | msg hr => exact hrecv _ rfl hr.prog (by simp [Thread.finish]) rfl rfl
  | ctlBlk x hr hk _ hfl hcl =>
    exact h.of_keeps hk hfit ⟨rfl, le_rfl⟩ rfl (by simp [hcl]) (.inl hfl)
  | call0 hr => exact hrecv _ rfl hr.prog (by simp [Thread.finish]) rfl rfl
  | callHdr hr => exact hrecv _ rfl hr.prog rfl rfl rfl
  | again _ _ hr => exact hrecv _ rfl hr.prog rfl rfl rfl
  | abandon _ hpc => exact hrecv _ rfl (by simp [hpc, Pc.view]) (by simp [Thread.finish]) rfl rfl
  | part hpc => exact hrecv _ rfl (by simp [hpc, Pc.view]) rfl rfl rfl
  | whole hpc => exact hrecv _ rfl (by simp [hpc, Pc.view]) rfl rfl rfl
  | args hpc => exact hrecv _ rfl (by simp [hpc, Pc.view]) (by simp [Thread.finish]) rfl rfl

/-- A move of the receiver. -/
theorem peer (h : Sender cfg p A t) (hm : Move p.other a B A u B' A' u') : Sender cfg p A' t := by
  have htx : A'.tx = A.tx := hm.tx_peer
  have hacc : A'.acc = A.acc := by
    cases hm with
    | _ => rfl
  exact ⟨by rw [htx]; exact h.clean, by rw [htx]; exact h.lt, by rw [htx]; exact h.args,
    by rw [htx]; exact h.flushing, h.argv, h.stuck, hacc.trans h.sent, h.unsent⟩

end Sender

theorem init_sender (cfg : Cfg) (p : Party) :
    Sender cfg p ((Sys.init cfg).core.lane p) ((Sys.init cfg).thr p) := by
  have hsize := (blkSize_bounds cfg p).1
  cases p with
  | host =>
    refine ⟨fun _ => rfl, show 0 < _ by omega, ?_, ?_, ?_, rfl, rfl, ?_⟩
    · intro w hw; cases hw
    · intro w hw; cases hw
    · intro w hw; cases hw
    · intro m hm
      exact mem_ctorMsgs hm
  | model => exact Sender.of_plain (show 0 < _ by omega) rfl rfl rfl rfl rfl rfl (fun _ => rfl)

/-- **The sending half of `p`**, in every run whose calls fit. -/
theorem reach_sender (h9 : cfg.params.ctlQueW = 9) (hok : ∀ s a, ok s a → CallsFit cfg p s a)
    (hr : Reach (exec cfg) ok (Sys.init cfg) s) : Sender cfg p (s.core.lane p) (s.thr p) := by
  refine Reach.invariant (I := fun s => Sender cfg p (s.core.lane p) (s.thr p)) (init_sender cfg p) ?_ s hr
  intro s s' a hs h hoka he
  rcases exec_dir p h9 (reach_rings h9 hs) he with ⟨hp, -, hm⟩ | ⟨-, ht, hm⟩
  · exact h.own (reach_txKnown h9 hs p) hm (hok s a hoka hp)
  · rw [ht]
    exact h.peer hm

end OpenHT.Host
