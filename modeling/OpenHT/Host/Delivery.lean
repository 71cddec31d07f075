import OpenHT.Host.Stream

/-!
# Delivery

In every run whose calls fit one block, what the receiver of a direction got is a prefix of
what the sender's operations took over (`reach_prefix`); for the host's data, markers and
messages this is `host_stream_prefix`.
-/

namespace OpenHT.Host

open Host.Core Lts

variable {cfg : Cfg} {p : Party} {a : Act} {s s' : Sys} {ok : Sys → Act → Prop}

/-- Credits and stream of direction `p`. -/
structure LinkOk (cfg : Cfg) (p : Party) (s : Sys) : Prop where
  credit : CreditOk cfg p s
  stream : Stream cfg p (s.core.lane p) (s.thr p) (s.thr p.other)

theorem init_link (cfg : Cfg) (p : Party) : LinkOk cfg p (Sys.init cfg) := by
  refine ⟨init_credit cfg p, ?_⟩
  have hpend : ((Sys.init cfg).core.lane p).pend p = [] := by
    rw [Lane.pend, init_live]
    cases p <;> rfl
  have hmode : ((Sys.init cfg).thr p.other).pc.view.rxMode = .none := by cases p <;> rfl
  have hhdr : ((Sys.init cfg).thr p).pc.view.hdr = none := by cases p <;> rfl
  have hargs : ((Sys.init cfg).thr p).pc.view.args = none := by cases p <;> rfl
  have hsize : ((Sys.init cfg).core.lane p).rx.blkDataSize = 0 := by cases p <;> rfl
  have hrd : ((Sys.init cfg).core.lane p).rx.blkRdIdx = 0 := by cases p <;> rfl
  refine ⟨?_, ⟨[], ?_, ?_⟩, ?_, ?_, ?_⟩
  · rw [hpend, hmode, hhdr]
    exact ⟨_, rfl⟩
  · rw [hrd]
    cases p <;> rfl
  · rw [hpend, tail_empty hargs hhdr (by cases p <;> rfl)]
    cases p <;> rfl
  · intro w hw
    rw [hargs] at hw
    cases hw
  · intro hb
    rw [hmode] at hb
    cases hb
  · intro argc n hn
    rw [hmode] at hn
    cases hn

/-- While the messages are legal frames, `RecvReturn` finds the arguments it waits for. -/
theorem Stream.uninterrupted (h : Stream cfg .model (s.core.lane .model) (s.thr .model) (s.thr .host)) :
    ¬ s.Interrupted := by
  rintro ⟨argc, n, m, ms, hpc, hq, hcmd⟩
  have hmode : (s.thr .host).pc.view.rxMode = .args argc n := by simp [hpc, Pc.view]
  exact hcmd (h.args_front hmode hq).1

/-- **Credits and stream** of `p`, in every run whose calls fit. -/
theorem reach_link (h9 : cfg.params.ctlQueW = 9) (hok : ∀ s a, ok s a → CallsFit cfg p s a)
    (hr : Reach (exec cfg) ok (Sys.init cfg) s) : LinkOk cfg p s := by
  refine Reach.invariant (I := LinkOk cfg p) (init_link cfg p) ?_ s hr
  intro s s' a hs h hoka he
  have hw := reach_rings h9 hs
  refine ⟨exec_credit h9 hw h.credit ?_ he, ?_⟩
  · rintro rfl
    exact h.stream.uninterrupted
  rcases exec_dir p h9 hw he with ⟨-, ht, hm⟩ | ⟨-, ht, hm⟩ <;> rw [ht]
  · exact h.stream.own h.credit (reach_sender h9 hok hs) (reach_txKnown h9 hs p) hm
  · exact h.stream.peer h.credit (reach_rxKnown h9 hs p) hm

/-- **What was received is a prefix of what was sent**, in every run whose calls fit. -/
theorem reach_prefix (h9 : cfg.params.ctlQueW = 9) (hok : ∀ s a, ok s a → CallsFit cfg p s a)
    (hr : Reach (exec cfg) ok (Sys.init cfg) s) : s.core.got p <+: (s.thr p).sent := by
  have h := reach_link h9 hok hr
  have hacc : s.core.acc p = (s.thr p).sent := (reach_sender h9 hok hr).sent
  rw [← hacc]
  exact h.stream.isPrefix h.credit

/-- **Host-to-coprocessor stream integrity.** In every interleaving the model unit has
received a prefix of the quadwords, markers and messages (and calls) the host has sent. -/
theorem host_stream_prefix (h9 : cfg.params.ctlQueW = 9)
    (hr : Reach (exec cfg) (CallsFit cfg .host) (Sys.init cfg) s) :
    s.core.got .host <+: (s.thr .host).sent :=
  reach_prefix h9 (fun _ _ h => h) hr

theorem demo_got : ∃ s, Lts.run (exec Cfg.default) (Sys.init Cfg.default) demo = .ok s ∧
    s.core.got .host = [.qw 1, .qw 2, .qw 3] := by
  have hget : (Lts.run (exec Cfg.default) (Sys.init Cfg.default) demo).toOption.map (·.core.got .host) =
      some [.qw 1, .qw 2, .qw 3] := by decide +kernel
  cases h : Lts.run (exec Cfg.default) (Sys.init Cfg.default) demo with
  | error e =>
    rw [h] at hget
    cases hget
  | ok s =>
    rw [h] at hget
    exact ⟨s, rfl, Option.some.inj hget⟩

theorem host_stream_prefix_demo : ∃ s, Lts.run (exec Cfg.default) (Sys.init Cfg.default) demo = .ok s ∧
    s.core.got .host = [.qw 1, .qw 2, .qw 3] ∧ s.core.got .host <+: (s.thr .host).sent := by
  obtain ⟨s, hs, hgot⟩ := demo_got
  have hcalls : ∀ a ∈ demo, ∀ s, CallsFit Cfg.default .host s a := by
    simp [demo, CallsFit, Act.argv]
  exact ⟨s, hs, hgot, host_stream_prefix rfl (Reach.init.run demo hcalls hs)⟩

end OpenHT.Host
