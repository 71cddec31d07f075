import OpenHT.Host.Conservation
import OpenHT.Host.Coproc
import OpenHT.Host.Delivery

/-!
# Calls and returns

* `Framed`: in the history of a ring, a call message with arguments is followed at once by
  the message of their block, or is the last one and its sender is about to announce it.
* `calls_carry_arguments`: with arguments that fill less than a block, calls and returns
  arrive as they were sent.
* `full_block_call`: a whole block of arguments is announced before its call message.
-/

namespace OpenHT.Host

open Host.Core Lts

variable {cfg : Cfg} {p : Party} {a : Act} {A A' B B' : Lane} {t t' u u' : Thread} {s s' : Sys}

/-- A call message with arguments. -/
def CtrlMsg.IsCall (m : CtrlMsg) (p : Party) : Prop := m.cmd = p.cmdRdy ∧ m.dq = hifDqCall ∧ 0 < m.cnt

/-- The messages of a call or return with arguments `argv`. -/
def Party.callMsgs (p : Party) (argv : List Qw) : List CtrlMsg :=
  p.rdyMsg argv.length hifDqCall :: if argv = [] then [] else [p.rdyMsg argv.length 0]

/-- The messages `w` sent so far, with the sender at a point with view `v`. -/
structure Framed (p : Party) (w : List CtrlMsg) (v : PcView) : Prop where
  next : ∀ l m r, w = l ++ m :: r → m.IsCall p →
    (∃ r', r = p.rdyMsg m.cnt 0 :: r') ∨ (r = [] ∧ v.hdr = some m.cnt)
  last : ∀ argv, v.flushing = some argv → ∃ l, w = l ++ [p.rdyMsg argv.length hifDqCall]

namespace Framed

variable {w : List CtrlMsg} {v v' : PcView} {m : CtrlMsg}

/-- Another point of the sender, nothing sent. -/
theorem of_view (h : Framed p w v) (hhdr : v'.hdr = v.hdr)
    (hfl : v'.flushing = none ∨ v'.flushing = v.flushing) : Framed p w v' := by
  refine ⟨by rw [hhdr]; exact h.next, ?_⟩
  intro argv hv
  rcases hfl with hfl | hfl
  · rw [hfl] at hv
    cases hv
  · exact h.last argv (hfl ▸ hv)

/-- One more message: the arguments if they are due. -/
theorem snoc (h : Framed p w v) (hdue : ∀ n, v.hdr = some n → m = p.rdyMsg n 0)
    (hcall : m.IsCall p → v'.hdr = some m.cnt)
    (hfl : ∀ argv, v'.flushing = some argv → m = p.rdyMsg argv.length hifDqCall) :
    Framed p (w ++ [m]) v' := by
  refine ⟨?_, fun argv hv => ⟨w, by rw [hfl argv hv]⟩⟩
  intro l m' r hw hm'
  rcases List.eq_nil_or_concat r with rfl | ⟨r0, x, rfl⟩
  · -- the new message itself
    obtain ⟨-, hmm⟩ := List.append_inj' hw rfl
    obtain rfl : m = m' := by simpa using hmm
    exact .inr ⟨rfl, hcall hm'⟩
  · rw [List.concat_eq_append, ← List.cons_append, ← List.append_assoc] at hw
    obtain ⟨hw0, hx⟩ := List.append_inj' hw rfl
    obtain rfl : m = x := by simpa using hx
    rcases h.next l m' r0 hw0 hm' with ⟨r', rfl⟩ | ⟨rfl, hhdr⟩
    · exact .inl ⟨r' ++ [m], by simp⟩
    · exact .inl ⟨[], by simp [hdue _ hhdr]⟩

/-- **A move of the sender.** -/
theorem own (h : Framed p A.wrote t.pc.view) (hs : Sender cfg p A t) (hm : Move p a A B t A' B' t') :
    Framed p A'.wrote t'.pc.view := by
  have hrdy : ∀ n dq, dq < 8 → dq ≠ hifDqCall → ¬ (p.rdyMsg n dq).IsCall p := by
    rintro n dq hdq hne ⟨-, hcall, -⟩
    rw [Party.dq_rdyMsg p n hdq] at hcall
    exact hne hcall
  have hcmd : ∀ {m : CtrlMsg}, m.cmd ≠ p.cmdRdy → ¬ m.IsCall p := fun hne hcall => hne hcall.1
  have havl : ∀ i, ¬ (p.avlMsg i).IsCall p := by
    intro i
    exact hcmd (by rw [Party.cmd_avlMsg]; exact (Party.cmdRdy_ne_cmdAvl p p).symm)
  -- a message outside of calls
  have hpost : ∀ {w' : List CtrlMsg} {m : CtrlMsg}, w' = A.wrote ++ [m] → ¬ m.IsCall p →
      t.pc.view.flushing = none → t'.pc.view.flushing = none → Framed p w' t'.pc.view := by
    rintro w' m rfl hm hf hf'
    refine h.snoc ?_ (fun hc => absurd hc hm) (by simp [hf'])
    intro n hn
    rw [PcView.hdr_none hf] at hn
    cases hn
  have hquiet : t.pc.view.flushing = none → t'.pc.view.flushing = none → Framed p A.wrote t'.pc.view := by
    intro hf hf'
    exact h.of_view (by rw [PcView.hdr_none hf, PcView.hdr_none hf']) (.inl hf')
  cases hm with
  | skip hk hcl hfl => exact h.of_view (by rw [PcView.hdr, hfl, PcView.hdr]) (.inr hfl)
  | exhaust hpc => exact hquiet (by simp [hpc, Pc.view]) rfl
  | ctor hpc =>
    rename_i m ms
    refine hpost rfl (hcmd ?_) (by simp [hpc, Pc.view]) rfl
    rcases hs.unsent m (by simp [hpc, Pc.view]) with hset | havl
    · exact isSetup_ne hset
    · rw [havl]
      exact (Party.cmdRdy_ne_cmdAvl p p).symm
  | flush hk hfl _ _ _ hf =>
    rcases hf with ⟨h0, rfl⟩ | ⟨h0, -, b, -, rfl⟩
    · refine h.of_view ?_ (.inl hfl)
      -- with an empty block no arguments are due
      rw [PcView.hdr_none hfl]
      cases hh : t.pc.view.hdr with
      | none => rfl
      | some n =>
        obtain ⟨x, hx, hne, -⟩ := PcView.hdr_some hh
        have hlen := hs.flushing x hx
        rw [h0] at hlen
        exact absurd (List.length_eq_zero_iff.1 hlen.symm) hne
    · refine h.snoc ?_ (fun hc => absurd hc (hrdy _ 0 (by omega) (by decide))) (by simp [hfl])
      intro n hn
      obtain ⟨x, hx, -, hlen⟩ := PcView.hdr_some hn
      rw [← hlen, ← hs.flushing x hx]
  | ctl x hpc hpc' =>
    refine hpost rfl (hrdy _ x.dq ?_ ?_) ?_ (by simp [hpc', Pc.view])
    · cases x <;> decide
    · cases x <;> decide
    · rcases hpc with hpc | hpc <;> simp [hpc, Pc.view]
  | user m hpc =>
    refine hpost rfl (hcmd ?_) (by simp [hpc, Pc.view]) rfl
    rw [CtrlMsg.cmd_make_user m.type_ge m.type_lt]
    cases p <;> simp [Party.cmdRdy]
  | data hpc _ _ _ _ hf =>
    rcases hf with ⟨-, ⟨rfl, -⟩ | ⟨-, -, -, rfl⟩⟩
    · exact hquiet (by simp [hpc, Pc.view]) rfl
    · exact hpost rfl (hrdy _ 0 (by omega) (by decide)) (by simp [hpc, Pc.view]) rfl
  | arg hpc _ _ _ _ hf =>
    rcases hf with ⟨-, ⟨rfl, -⟩ | ⟨-, -, -, rfl⟩⟩
    · exact hquiet (by simp [hpc, Pc.view]) rfl
    · exact hpost rfl (hrdy _ 0 (by omega) (by decide)) (by simp [hpc, Pc.view]) rfl
  | take hpc => exact hquiet (by rcases hpc with hpc | hpc <;> simp [hpc, Pc.view]) rfl
  | postCall hpc =>
    rename_i argv
    have hfl : t.pc.view.flushing = none := by simp [hpc, Pc.view]
    have hlt := hs.argv argv (by simp [hpc, Pc.view])
    have hsize := (blkSize_bounds cfg p).2
    refine h.snoc ?_ ?_ ?_
    · intro n hn
      rw [PcView.hdr_none hfl] at hn
      cases hn
    · rintro ⟨-, -, hpos⟩
      rw [Party.cnt_rdyMsg p (by omega) (by decide)] at hpos ⊢
      simp [PcView.hdr, Thread.goto, Pc.view, List.length_pos_iff.1 hpos]
    · intro x hx
      obtain rfl : argv = x := by simpa [Thread.goto, Pc.view] using hx
      rfl
  | credit => exact h
  | que => exact h
  | setup => exact h
  | announce hr hk hfl => exact hquiet hr.flushing hfl
  | resume hpc => exact hquiet (by simp [hpc, Pc.view]) rfl
  | msg hr => exact hquiet hr.flushing rfl
  | ctlBlk x hr hk _ hfl => exact hpost rfl (havl _) hr.flushing hfl
  | call0 hr => exact hpost rfl (havl _) hr.flushing rfl
  | callHdr hr => exact hpost rfl (havl _) hr.flushing rfl
  | again _ _ hr => exact hquiet hr.flushing rfl
  | abandon _ hpc => exact hquiet (by simp [hpc, Pc.view]) rfl
  | part hpc => exact hquiet (by simp [hpc, Pc.view]) rfl
  | whole hpc => exact hpost rfl (havl _) (by simp [hpc, Pc.view]) rfl
  | args hpc => exact hpost rfl (havl _) (by simp [hpc, Pc.view]) rfl

end Framed

/-- **Every call message is followed by its arguments**, in every run whose calls fit. -/
theorem reach_framed (h9 : cfg.params.ctlQueW = 9) (hr : Reach (exec cfg) (CallsFit cfg p) (Sys.init cfg) s) :
    Framed p (s.core.wrote p) (s.thr p).pc.view := by
  refine Reach.invariant (I := fun s => Framed p (s.core.wrote p) (s.thr p).pc.view) ?_ ?_ s hr
  · refine ⟨?_, ?_⟩
    · intro l m r hw
      exact absurd (hw.symm.trans (show (Sys.init cfg).core.wrote p = [] from rfl)) (by simp)
    · intro argv hv
      cases p <;> cases hv
  · intro s s' a hs h hok he
    rcases exec_dir p h9 (reach_rings h9 hs) he with ⟨-, -, hm⟩ | ⟨-, ht, hm⟩
    · exact h.own (reach_sender h9 (fun _ _ h => h) hs) hm
    · rw [ht, show s'.core.wrote p = s.core.wrote p from hm.wrote_peer]
      exact h

/-! ### What the operations do -/

/-- A receiving operation that returns arguments has just delivered them. -/
theorem Move.args_ret (hm : Move p a A B t A' B' t') {buf : List Qw} (h : t'.ret = some (.args (some buf)))
    (hne : t.ret ≠ some (.args (some buf))) : ∃ argv, B'.got = B.got ++ [.call argv] ∧ argv <+: buf := by
  have hkeeps : Keeps a t t' → ∃ argv, B'.got = B.got ++ [.call argv] ∧ argv <+: buf := by
    intro hk
    exact absurd ((hk.ret (by rw [h]; trivial)).symm.trans h) hne
  have hno : ¬ Ret.isArgs t'.ret → ∃ argv, B'.got = B.got ++ [.call argv] ∧ argv <+: buf := by
    intro hno
    exact absurd (by rw [h]; trivial) hno
  have hsame : t'.ret = t.ret → ∃ argv, B'.got = B.got ++ [.call argv] ∧ argv <+: buf := by
    intro he
    exact absurd (he.symm.trans h) hne
  cases hm with
  | skip hk => exact hkeeps hk
  | flush hk => exact hkeeps hk
  | ctl _ _ _ _ _ _ hret => exact hno hret
  | user => exact hno (by simp [Thread.finish])
  | announce _ hk => exact hkeeps hk
  | msg _ _ _ hret => exact hno hret
  | ctlBlk _ _ hk => exact hkeeps hk
  | call0 =>
    obtain rfl : [] = buf := by simpa [Thread.finish] using h
    exact ⟨[], rfl, List.prefix_rfl⟩
  | abandon => exact hno (by simp [Thread.finish])
  | args hpc hq hcmd hdq hn hb hargv =>
    rename_i argc n m ms b argv
    obtain rfl : argv = buf := by simpa [Thread.finish] using h
    exact ⟨argv.take n, rfl, List.take_prefix n argv⟩
  | _ => exact hsame rfl

/-- The last step of `SendCall` / `SendReturn` announces what is in the current block. -/
theorem callFlush_step (h9 : cfg.params.ctlQueW = 9) (hw : s.core.RingsOk) {argv : List Qw}
    (hpc : (s.thr p).pc = .callFlush argv) (he : exec cfg s (.run p) = .ok s') :
    (s'.thr p).ret = some (.bool true) ∧ (s'.thr p).done = (s.thr p).done ++ [.call argv] ∧
      (((s.core.tx p).blkWrIdx = 0 ∧ s'.core.wrote p = s.core.wrote p) ∨
        ((s.core.tx p).blkWrIdx ≠ 0 ∧
          s'.core.wrote p = s.core.wrote p ++ [p.rdyMsg (s.core.tx p).blkWrIdx 0])) := by
  obtain ⟨x, hx, hs'⟩ := bind_ok.1 he
  simp only [Act.exec, Act.party, run, hpc] at hx
  obtain ⟨c1, hc1, hx⟩ := bind_ok.1 hx
  split at hx
  · cases hx
  cases hx
  cases hs'
  obtain ⟨-, -, hf⟩ := flushTxBlk_lane (ctlQueCnt_eq h9 _) hw hc1
  refine ⟨by simp [Sys.set, Act.party, Thread.finish], by simp [Sys.set, Act.party, Thread.finish], ?_⟩
  rcases hf with ⟨h0, -, hl⟩ | ⟨h0, -, b, -, hl⟩
  · exact .inl ⟨h0, congrArg Lane.wrote hl⟩
  · exact .inr ⟨h0.resolve_right (by simp), congrArg Lane.wrote hl⟩

/-- Calls of `p` and their arguments: in the ring, when the operation returns, at the
receiver, and in order. -/
structure CallsOk (cfg : Cfg) (p : Party) (s : Sys) : Prop where
  adjacent : ∀ l m r, s.core.wrote p = l ++ m :: r → m.IsCall p →
    (∃ r', r = p.rdyMsg m.cnt 0 :: r') ∨
      (r = [] ∧ ∃ argv, (s.thr p).pc = .callFlush argv ∧ argv.length = m.cnt)
  returns : ∀ argv s', (s.thr p).pc = .callFlush argv → exec cfg s (.run p) = .ok s' →
    (s'.thr p).ret = some (.bool true) ∧ (s'.thr p).done = (s.thr p).done ++ [.call argv] ∧
      ∃ l, s'.core.wrote p = l ++ p.callMsgs argv
  stored : ∀ a s' buf, a.party = p.other → exec cfg s a = .ok s' →
    (s'.thr p.other).ret = some (.args (some buf)) → (s.thr p.other).ret ≠ some (.args (some buf)) →
      ∃ argv, s'.core.got p = s.core.got p ++ [.call argv] ∧ argv <+: buf
  order : s.core.got p <+: (s.thr p).sent

/-- **Calls and returns carry their arguments**, in every run in which those of `p` have
fewer quadwords than a block. -/
theorem calls_carry_arguments (h9 : cfg.params.ctlQueW = 9)
    (hr : Reach (exec cfg) (CallsFit cfg p) (Sys.init cfg) s) : CallsOk cfg p s := by
  have hw := reach_rings h9 hr
  have hf := reach_framed h9 hr
  have hs := reach_sender (p := p) h9 (fun _ _ h => h) hr
  refine ⟨?_, ?_, ?_, reach_prefix h9 (fun _ _ h => h) hr⟩
  · intro l m r hl hm
    rcases hf.next l m r hl hm with hr' | ⟨hr', hhdr⟩
    · exact .inl hr'
    · obtain ⟨argv, hfl, -, hlen⟩ := PcView.hdr_some hhdr
      refine .inr ⟨hr', argv, ?_, hlen⟩
      cases hpc : (s.thr p).pc with
      | callFlush x => simpa [hpc, Pc.view] using hfl
      | que k => cases k <;> simp [hpc, Pc.view] at hfl
      | _ => simp [hpc, Pc.view] at hfl
  · intro argv s' hpc he
    obtain ⟨hret, hdone, hwrote⟩ := callFlush_step h9 hw hpc he
    have hfl : (s.thr p).pc.view.flushing = some argv := by simp [hpc, Pc.view]
    have hlen : (s.core.tx p).blkWrIdx = argv.length := hs.flushing argv hfl
    obtain ⟨l, hl⟩ := hf.last argv hfl
    refine ⟨hret, hdone, l, ?_⟩
    rcases hwrote with ⟨h0, hw'⟩ | ⟨h0, hw'⟩
    · have hnil : argv = [] := List.length_eq_zero_iff.1 (hlen.symm.trans h0)
      rw [hw', hl, Party.callMsgs, if_pos hnil]
    · have hne : argv ≠ [] := fun hnil => h0 (by rw [hlen, hnil]; rfl)
      rw [hw', hl, Party.callMsgs, if_neg hne, hlen, List.append_assoc]
      rfl
  · intro a s' buf hp he hret hne
    rcases exec_dir p h9 hw he with ⟨hp', -, -⟩ | ⟨-, -, hm⟩
    · rw [hp] at hp'
      exact absurd hp' (Party.other_ne p)
    · exact hm.args_ret hret hne

/-- The constructor, a call with three quadwords of arguments, and `RecvCall` with room for
five. -/
def callDemo : List Act :=
  List.replicate 22 (.run .host) ++ [.call .host (.sendCall [[1, 2], [3]])] ++
    List.replicate 5 (.run .host) ++ [.call .model (.recvArgs 5)] ++ List.replicate 31 (.run .model)

theorem callDemo_end : (match Lts.run (exec Cfg.default) (Sys.init Cfg.default) callDemo with
    | .ok s => ((s.thr .model).ret, s.core.got .host)
    | .error _ => (none, [])) = (some (.args (some [1, 2, 3, 0, 0])), [.call [1, 2, 3]]) := by
  decide +kernel

theorem calls_carry_arguments_demo : ∃ s, Lts.run (exec Cfg.default) (Sys.init Cfg.default) callDemo = .ok s ∧
    s.core.got .host = [.call [1, 2, 3]] ∧ CallsOk Cfg.default .host s := by
  have hend := callDemo_end
  have hfit : ∀ a ∈ callDemo, ∀ s, CallsFit Cfg.default .host s a := by
    have hsize : 3 < Cfg.default.blkSize .host := by decide
    simp [callDemo, CallsFit, Act.argv, hsize]
  cases h : Lts.run (exec Cfg.default) (Sys.init Cfg.default) callDemo with
  | error e =>
    rw [h] at hend
    cases hend
  | ok s =>
    rw [h] at hend
    exact ⟨s, rfl, (Prod.mk.inj hend).2, calls_carry_arguments rfl (Reach.init.run callDemo hfit h)⟩

/-- **A call with a whole block of arguments.** `SendDataInternal` flushes the full block
before the call message is sent, so the call message is the last one when `SendCall`
returns true. -/
theorem full_block_call : ∃ (cfg : Cfg) (s s' : Sys) (argv : List Qw), cfg.params.ctlQueW = 9 ∧
    Reach (exec cfg) (fun _ a => ∀ x, a.argv = some x → x.length ≤ cfg.blkSize .host) (Sys.init cfg) s ∧
    argv.length ≤ cfg.blkSize .host ∧ (s.thr .host).pc = .callFlush argv ∧
    exec cfg s (.run .host) = .ok s' ∧ (s'.thr .host).ret = some (.bool true) ∧
    ¬ ∃ l, s'.core.wrote .host = l ++ Party.host.callMsgs argv := by
  have h9 : Cfg.default.params.ctlQueW = 9 := rfl
  have hcnt : Cfg.default.blkCnt .host = 14 + 2 := by decide
  have hsize : Cfg.default.blkSize .host = 8192 := by decide
  have hlen : (List.replicate 8192 (0 : Qw)).length = 8192 := List.length_replicate
  obtain ⟨argv, hargv⟩ : ∃ argv : List Qw, argv.length = 8192 := ⟨_, hlen⟩
  -- the constructor, the empty block, the block of arguments
  obtain ⟨s1, h1⟩ := Between.ctor h9 _ _ (between_init (N := 8192) Cfg.default)
  rw [hcnt] at h1
  obtain ⟨s2, h2⟩ := h1.sendCall h9 argv hargv.le
  obtain ⟨s3, h3⟩ := h2.chunk h9 (by omega) (by omega)
  obtain ⟨s4, h4⟩ := h3.next (a := .run .host) (t := (s3.thr .host).goto (.callPost argv)) Quiet.run rfl
    (by
      have hle : argv.length ≤ 0 + Cfg.default.blkSize .host := by omega
      simp only [Act.exec, run, h3.pc, hle, if_true]) rfl ⟨h3.avail, h3.wrIdx, h3.param⟩
  replace h4 : Between Cfg.default 8192 14 (.callPost argv) s4 := h4
  -- the call message
  obtain ⟨c, hc⟩ := sendMsgInternal_ok h9 (h4.room h9) (Party.host.rdyMsg argv.length hifDqCall)
  obtain ⟨-, hl, -⟩ := sendMsgInternal_lane (ctlQueCnt_eq h9 _) (h4.room h9).rings hc
  have htx := congrArg Lane.tx hl
  have hwrote := congrArg Lane.wrote hl
  simp only [lane, Lane.post] at htx hwrote
  have he5 : Act.exec Cfg.default (.run .host) s4.core (s4.thr .host) = .ok
      (c.accept .host [.call argv], (s4.thr .host).goto (.callFlush argv)) := by
    simp only [Act.exec, run, h4.pc, hc]
    rfl
  have hexec5 : exec Cfg.default s4 (.run .host) = .ok
      (s4.set .host (c.accept .host [.call argv], (s4.thr .host).goto (.callFlush argv))) := by
    simp only [exec, Act.party, he5]
    rfl
  have hreach5 := h4.reach.next (.run .host) Quiet.run hexec5
  generalize hs5 : s4.set .host (c.accept .host [.call argv], (s4.thr .host).goto (.callFlush argv)) = s5 at hreach5
  have hpc5 : (s5.thr .host).pc = .callFlush argv := by
    rw [← hs5]
    simp [Sys.set, Thread.goto]
  have htx5 : s5.core.tx .host = c.tx .host := by
    rw [← hs5]
    rfl
  have hwr5 : s5.core.wrote .host = s4.core.wrote .host ++ [Party.host.rdyMsg argv.length hifDqCall] := by
    rw [← hs5]
    exact hwrote
  -- the flush finds an empty block
  have hwr0 : (s5.core.tx .host).blkWrIdx = 0 := by
    rw [htx5, htx]
    exact h4.wrIdx
  have hav : ¬ (s5.core.tx .host).blkAvailCnt < 0 := by
    have hk := h4.avail
    rw [htx5, htx]
    show ¬ (s4.core.tx .host).blkAvailCnt < 0
    omega
  have hexec6 : exec Cfg.default s5 (.run .host) = .ok
      (s5.set .host (s5.core, (s5.thr .host).finish (.bool true) [.call argv])) := by
    simp [exec, Act.exec, Act.party, run, hpc5, flushTxBlk, hwr0, hav, bind, Except.bind]
  refine ⟨Cfg.default, s5, _, argv, h9, hreach5.mono (fun _ _ h x hx => (h.2 x hx).trans hsize.ge),
    by omega, hpc5, hexec6, by simp [Sys.set, Thread.finish], ?_⟩
  rintro ⟨l, hl'⟩
  have hne : argv ≠ [] := by
    rintro rfl
    cases hargv
  rw [show (s5.set .host _).core.wrote .host = s5.core.wrote .host from rfl, hwr5, Party.callMsgs, if_neg hne,
    show l ++ [Party.host.rdyMsg argv.length hifDqCall, Party.host.rdyMsg argv.length 0] =
      (l ++ [Party.host.rdyMsg argv.length hifDqCall]) ++ [Party.host.rdyMsg argv.length 0] by simp] at hl'
  have hlast := (List.append_inj' hl' rfl).2
  rw [hargv] at hlast
  have hdq := congrArg (List.map CtrlMsg.dq) hlast
  revert hdq
  decide

end OpenHT.Host
