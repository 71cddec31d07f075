import OpenHT.Host.LinkSafety

/-!
# Draining a unit at shutdown

The destructor of `CHtHifLib` calls `HaltLoop` until the coprocessor is done: each call runs
`MsgLoop` once and throws away what it finds. The coprocessor has sent its last message by then,
so a call is one function here, from `QueOutMsgs` to the block that goes back.

* `haltLoop`: one call.
* `pending`: the messages not taken yet, oldest first. `Undrained`: what an application can leave
  behind, a half-read block or a half-received return included.
* `haltLoop_pops`, `haltLoop_marker`, `haltLoop_leaves`, `haltLoop_asserts`: what a call does.
* `haltLoop_drains`: exactly which sequences are drained.
-/

namespace OpenHT.Host

open Host.Core

variable (cfg : Cfg)

/-- `QueOutMsgs`. Every turn empties a slot of the ring. -/
def queOutMsgs : ℕ → Core → Core
  | 0, c => c
  | n + 1, c =>
    match queMsg cfg .host c with
    | none => c
    | some c => queOutMsgs n c

/-- The coprocessor takes the oldest message out of the inbound ring. -/
def coprocTake (c : Core) : Core :=
  let r := c.rx .model
  let i := r.ctlRdIdx &&& (cfg.ctlQueCnt .host - 1)
  { c.setRx .model { r with ctlRdIdx := r.ctlRdIdx + 1 } with
    ring := Function.update c.ring .host (Function.update (c.ring .host) i none) }

/-- `NextOutMsgQue` and `NextOutBlk(true)`. On an occupied slot `SendMsgInternal` waits until
the coprocessor has taken the message. -/
def finishOutBlk (c : Core) : Except Stop Core :=
  match finishBlk cfg .host c with
  | .error .slot => finishBlk cfg .host (coprocTake cfg c)
  | r => r

/-- The loop of `MsgLoop(false)`. A turn that goes round again has taken a message from the
local queue. -/
def msgLoopTurns : ℕ → Core → Except Stop (RecvType × Core)
  | 0, _ => .error .spin
  | n + 1, c =>
    match hostTurn c with
    | .idle => .ok (.idle, c)
    | .recv ty c => .ok (ty, c)
    | .next c => msgLoopTurns n c
    | .halt => do
      let c ← finishOutBlk cfg c
      .ok (.halt, c)
    | .fail => .error .assert

/-- `MsgLoop(false)`. -/
def hostMsgLoop (c : Core) : Except Stop (RecvType × Core) :=
  let c := queOutMsgs cfg (cfg.ctlQueCnt .host) c
  msgLoopTurns cfg ((c.rx .host).msgQue.length + 1) c

/-- The `switch` of `HaltLoop`. -/
def haltSwitch (ty : RecvType) (c : Core) : Except Stop Core :=
  match ty with
  | .idle => .ok c
  | .halt => .ok c
  | .return => finishOutBlk cfg c
  | .hostData => finishOutBlk cfg c
  | .hostMsg => nextMsgQue .host c
  | _ => .error .assert

/-- `HaltLoop`. -/
def haltLoop (c : Core) : Except Stop Core := do
  let x ← hostMsgLoop cfg c
  haltSwitch cfg x.1 x.2

/-- `n` calls of `HaltLoop`. -/
def haltLoops : ℕ → Core → Except Stop Core
  | 0, c => .ok c
  | n + 1, c => do
    let c ← haltLoop cfg c
    haltLoops n c

/-! ## What is pending -/

namespace CtrlMsg

variable (m : CtrlMsg)

/-- An assertion of the personality, which `MsgLoop` drops. -/
def IsAssert : Prop := m.cmd = .assert ∨ m.cmd = .assertColl

instance : DecidablePred IsAssert := fun m => inferInstanceAs (Decidable (m.cmd = .assert ∨ m.cmd = .assertColl))

/-- A host data marker. -/
def IsMarker : Prop := m.cmd = .oblkRdy ∧ m.dq = hifDqNull

/-- A return whose arguments follow in a block of their own. -/
def NeedsArgs : Prop := m.cmd = .oblkRdy ∧ m.dq = hifDqCall ∧ m.cnt ≠ 0

instance : DecidablePred NeedsArgs := fun m =>
  inferInstanceAs (Decidable (m.cmd = .oblkRdy ∧ m.dq = hifDqCall ∧ m.cnt ≠ 0))

instance : DecidablePred IsMarker := fun m => inferInstanceAs (Decidable (m.cmd = .oblkRdy ∧ m.dq = hifDqNull))

/-- The queue entries `MsgLoop` looks for before it reports `m`. -/
def entries : ℕ := if m.NeedsArgs then 2 else 1

/-- What the coprocessor sends besides block-available messages. -/
def Outbound : Prop :=
  m.IsAssert ∨ (∃ ty, m.cmd = .user ty) ∨
    m.cmd = .oblkRdy ∧ (m.dq = 0 ∨ m.dq = hifDqNull ∨ m.dq = hifDqCall ∨ m.dq = hifDqHalt)

theorem entries_pos : 1 ≤ m.entries := by unfold entries; split <;> omega

end CtrlMsg

/-- Without the block-available messages, which never reach the local queue. -/
def dropAvls (l : List CtrlMsg) : List CtrlMsg := l.filter (·.cmd ≠ .iblkAvl)

/-- The messages the application has not received: the local queue, then the ring. -/
def pending (c : Core) : List CtrlMsg := (c.lane .model (cfg.ctlQueCnt .host)).pend .model

/-- A unit at shutdown. The coprocessor sends the arguments of a return right behind it. -/
structure Undrained (c : Core) : Prop where
  rings : c.RingsOk (cfg.ctlQueCnt .host)
  que : (c.rx .host).msgQue.length < cfg.ctlQueCnt .host
  param : ∃ b, (c.rx .host).param = some b
  sent : ∀ m ∈ pending cfg c, m.Outbound
  args : ∀ l m, pending cfg c = l ++ [m] → ¬ m.NeedsArgs

/-- **One call**: the oldest message besides asserts is gone, and if it announced a block, that
block has gone back. With nothing but asserts pending no block goes back. -/
def OneCall (c c' : Core) : Prop :=
  (∃ l m rest, pending cfg c = l ++ m :: rest ∧ (∀ a ∈ l, a.IsAssert) ∧ ¬ m.IsAssert ∧
    pending cfg c' = rest ∧ c'.wrote .host = c.wrote .host ++
      if m.cmd = .oblkRdy then [Party.host.avlMsg (c.rx .host).blkIdx] else []) ∨
  (∀ a ∈ pending cfg c, a.IsAssert) ∧ (∀ a ∈ pending cfg c', a.IsAssert) ∧
    c'.wrote .host = c.wrote .host

/-- Every call returns and does what a call should, and some number of calls drains the unit. -/
def Drains (c : Core) : Prop :=
  (∀ n, ∃ d d', haltLoops cfg n c = .ok d ∧ haltLoop cfg d = .ok d' ∧ OneCall cfg d d') ∧
    ∃ n d, haltLoops cfg n c = .ok d ∧ pending cfg d = []

/-- No host data marker is pending, and the local queue always takes a run of asserts together
with the message behind it, and a return with its arguments. -/
def Drainable (c : Core) : Prop :=
  ∀ before l m rest, pending cfg c = before ++ l ++ m :: rest → (∀ a ∈ l, a.IsAssert) → ¬ m.IsAssert →
    ¬ m.IsMarker ∧ l.length + m.entries < cfg.ctlQueCnt .host

/-! ## The host's side of a state -/

/-- The host's local queue is `Q`, the ring it reads holds `L`, it has sent `W`, and its next block
is `i`. -/
structure Holds (N : ℕ) (c : Core) (Q L W : List CtrlMsg) (i : ℕ) : Prop where
  rings : c.RingsOk N
  que : (c.rx .host).msgQue = Q
  ring : c.live .model N = L
  wrote : c.wrote .host = W
  idx : (c.rx .host).blkIdx = i
  param : ∃ b, (c.rx .host).param = some b

variable {cfg} {N : ℕ} {c c' : Core} {Q L W : List CtrlMsg} {m : CtrlMsg} {i : ℕ}

namespace Holds

/-- What the lane says about the receiver. -/
theorem of_rx {r : Rx} (hrx : c'.rx .host = r) (hw : c'.RingsOk N) (hque : r.msgQue = Q)
    (hring : c'.live .model N = L) (hwrote : c'.wrote .host = W) (hidx : r.blkIdx = i)
    (hparam : ∃ b, r.param = some b) : Holds N c' Q L W i := by
  subst hrx
  exact ⟨hw, hque, hring, hwrote, hidx, hparam⟩

/-- The receiver changes, its place in the ring does not. -/
theorem withRx (h : Holds N c Q L W i) {r : Rx} (hrd : r.ctlRdIdx = (c.rx .host).ctlRdIdx) {Q' : List CtrlMsg}
    (hque : r.msgQue = Q') (hidx : r.blkIdx = i) (hparam : ∃ b, r.param = some b) :
    Holds N (c.setRx .host r) Q' L W i := by
  refine of_rx (r := r) (by simp [setRx]) (setRx_rings hrd h.rings) hque ?_ h.wrote hidx hparam
  rw [← h.ring]
  simp [live, setRx, Party.other, hrd]

/-- The local queue is replaced. -/
theorem setQue (h : Holds N c Q L W i) (Q' : List CtrlMsg) :
    Holds N (c.setRx .host { c.rx .host with msgQue := Q' }) Q' L W i :=
  h.withRx (r := { c.rx .host with msgQue := Q' }) rfl rfl h.idx h.param

/-- `MsgLoop` notes the size of a data block. -/
theorem setSize (h : Holds N c Q L W i) (n : ℕ) :
    Holds N (c.setRx .host { c.rx .host with blkDataSize := n }) Q L W i :=
  h.withRx (r := { c.rx .host with blkDataSize := n }) rfl h.que h.idx h.param

/-! ### The ring -/

/-- With a message in the ring and room in the queue, `QueOutMsgs` takes the message. -/
theorem queMsg_some (hN : cfg.ctlQueCnt .host = N) (h : Holds N c Q (m :: L) W i) (hQ : Q.length + 1 < N) :
    ∃ c', queMsg cfg .host c = some c' ∧ Holds N c' (Q ++ dropAvls [m]) L W i := by
  have hsome : (queMsg cfg .host c).isSome := by
    have hslot : c.ring .model ((c.rx .host).ctlRdIdx % N) ≠ none := by
      intro hs
      have hnil := (h.rings .model).live_nil hs
      have hlive := h.ring
      simp only [live, Party.other] at hlive hnil
      rw [hnil] at hlive
      cases hlive
    obtain ⟨x, hx⟩ := Option.ne_none_iff_exists'.1 hslot
    simp only [queMsg, hN, slot_eq hN, Party.other, hx, h.que]
    rw [if_neg (by omega)]
    split <;> rfl
  obtain ⟨c', hc'⟩ := Option.isSome_iff_exists.1 hsome
  obtain ⟨x, l, hlive, hw', hcases⟩ := queMsg_lane hN h.rings hc'
  have hxl : x = m ∧ l = L := List.cons.inj (hlive.symm.trans h.ring)
  obtain ⟨rfl, rfl⟩ := hxl
  refine ⟨c', hc', ?_⟩
  have hQ' : (c.rx .host).msgQue = Q := h.que
  rcases hcases with ⟨hcmd, hown, hpeer⟩ | ⟨hcmd, hown, hpeer⟩
  · have hcmd' : x.cmd = .iblkAvl := hcmd
    refine of_rx (congrArg Lane.rx hpeer) hw' ?_ (congrArg Lane.live hpeer) ((congrArg Lane.wrote hown).trans h.wrote)
      h.idx h.param
    simpa [dropAvls, hcmd', Lane.fetch, lane, Party.other] using hQ'
  · have hcmd' : x.cmd ≠ .iblkAvl := hcmd
    refine of_rx (congrArg Lane.rx hpeer) hw' ?_ (congrArg Lane.live hpeer) ((congrArg Lane.wrote hown).trans h.wrote)
      h.idx h.param
    simp [dropAvls, hcmd', Lane.setQue, lane, Party.other, hQ']

/-- `QueOutMsgs` ends at an empty ring. -/
theorem queMsg_nil (hN : cfg.ctlQueCnt .host = N) (h : Holds N c Q [] W i) : queMsg cfg .host c = none := by
  cases hq : queMsg cfg .host c with
  | none => rfl
  | some c' =>
    obtain ⟨x, l, hlive, -⟩ := queMsg_lane hN h.rings hq
    cases h.ring.symm.trans hlive

/-- `QueOutMsgs` ends with a full queue. -/
theorem queMsg_full (hN : cfg.ctlQueCnt .host = N) (h : Holds N c Q L W i) (hQ : N ≤ Q.length + 1) :
    queMsg cfg .host c = none := by
  simp only [queMsg]
  split
  · rfl
  · rw [if_pos (by rw [hN, h.que]; exact hQ)]

/-- The ring holds at most `N` messages. -/
theorem length_le (h : Holds N c Q L W i) : L.length ≤ N := by
  have hlen := (h.rings .model).length_live
  have hroom := (h.rings .model).room
  have hring := h.ring
  rw [live] at hring
  rw [hring] at hlen
  omega

/-- **`QueOutMsgs`** moves messages into the queue until it is full or the ring is empty. -/
theorem queOutMsgs (hN : cfg.ctlQueCnt .host = N) {n : ℕ} (hn : L.length ≤ n) (h : Holds N c Q L W i)
    (hQ : Q.length < N) : ∃ Q' L', Holds N (queOutMsgs cfg n c) Q' L' W i ∧ Q'.length < N ∧
      Q' ++ dropAvls L' = Q ++ dropAvls L ∧ (L' = [] ∨ Q'.length + 1 = N) ∧
        queMsg cfg .host (queOutMsgs cfg n c) = none := by
  induction L generalizing c Q n with
  | nil =>
    have hnone := h.queMsg_nil hN
    refine ⟨Q, [], ?_, hQ, rfl, .inl rfl, ?_⟩ <;> cases n <;> simp [Host.queOutMsgs, hnone, h]
  | cons m L ih =>
    obtain ⟨n, rfl⟩ : ∃ k, n = k + 1 := ⟨n - 1, by simp at hn; omega⟩
    by_cases hroom : Q.length + 1 < N
    · obtain ⟨c', hc', h'⟩ := h.queMsg_some hN hroom
      have hlen : (Q ++ dropAvls [m]).length < N := by
        have := List.length_filter_le (fun x : CtrlMsg => decide (x.cmd ≠ .iblkAvl)) [m]
        simp only [dropAvls, List.length_append, List.length_singleton] at this ⊢
        omega
      obtain ⟨Q', L', h1, h2, h3, h4, h5⟩ := ih (n := n) (by simpa using hn) h' hlen
      refine ⟨Q', L', by simpa [Host.queOutMsgs, hc'] using h1, h2, ?_, h4, by simpa [Host.queOutMsgs, hc'] using h5⟩
      rw [h3, List.append_assoc, dropAvls, dropAvls, dropAvls, ← List.filter_append]
      rfl
    · have hnone := h.queMsg_full hN (by omega)
      refine ⟨Q, m :: L, ?_, hQ, rfl, .inr (by omega), ?_⟩ <;> simp [Host.queOutMsgs, hnone, h]

/-! ### The block that goes back -/

theorem coprocTake (hN : cfg.ctlQueCnt .host = N) (h : Holds N c Q L W i)
    (hs : (c.ring .host ((c.tx .host).ctlWrIdx % N)).isSome) : Holds N (coprocTake cfg c) Q L W i ∧
      (coprocTake cfg c).ring .host (((coprocTake cfg c).tx .host).ctlWrIdx % N) = none := by
  have hpos := ctlQueCnt_pos hN
  have hwf : Ring.Wf N (c.ring .host) (c.rx .model).ctlRdIdx (c.tx .host).ctlWrIdx := h.rings .host
  -- an occupied slot means a full ring, so that the oldest message is the one in the way
  have hfull : (c.tx .host).ctlWrIdx = (c.rx .model).ctlRdIdx + N := by
    by_contra hne
    have hlt : (Ring.live N (c.ring .host) (c.rx .model).ctlRdIdx (c.tx .host).ctlWrIdx).length < N := by
      rw [hwf.length_live]
      have := hwf.room
      have := hwf.le
      omega
    rw [hwf.slot_free hlt] at hs
    cases hs
  have hslot : (c.tx .host).ctlWrIdx % N = (c.rx .model).ctlRdIdx % N := by rw [hfull, Nat.add_mod_right]
  obtain ⟨x, hx⟩ := Option.isSome_iff_exists.1 hs
  obtain ⟨hwf', -⟩ := hwf.take (hslot ▸ hx) hpos
  refine ⟨⟨RingsOk.intro (p := .host) ?_ ?_, ?_, ?_, h.wrote, ?_, ?_⟩, ?_⟩
  · simpa [Host.coprocTake, setRx, hN, slot_eq hN, Party.other] using hwf'
  · simpa [Host.coprocTake, setRx, Party.other] using h.rings .model
  · simpa [Host.coprocTake, setRx] using h.que
  · rw [← h.ring]
    simp [Host.coprocTake, setRx, live, Party.other]
  · simpa [Host.coprocTake, setRx] using h.idx
  · simpa [Host.coprocTake, setRx] using h.param
  · simp [Host.coprocTake, setRx, hN, slot_eq hN, hslot]

theorem finishBlk_free (hN : cfg.ctlQueCnt .host = N) (h : Holds N c (m :: Q) L W i)
    (hs : c.ring .host ((c.tx .host).ctlWrIdx % N) = none) : ∃ c', finishBlk cfg .host c = .ok c' := by
  obtain ⟨b, hb⟩ := h.param
  have hque := h.que
  simp [finishBlk, nextMsgQue, hque, nextRxBlk, sendMsgInternal, hN, slot_eq hN, setRx, setTx, hs, hb, bind, Except.bind]

/-- **`NextOutMsgQue` and `NextOutBlk`** pop a message and send one block back. -/
theorem finishOutBlk (hN : cfg.ctlQueCnt .host = N) (h : Holds N c (m :: Q) L W i) :
    ∃ c', finishOutBlk cfg c = .ok c' ∧ Holds N c' Q L (W ++ [Party.host.avlMsg i]) (i + 1) := by
  have hok : ∀ {d d' : Core}, Holds N d (m :: Q) L W i → finishBlk cfg .host d = .ok d' →
      Holds N d' Q L (W ++ [Party.host.avlMsg i]) (i + 1) := by
    intro d d' hd hd'
    obtain ⟨x, xs, b, hq, hb, hw, hown, hpeer⟩ := finishBlk_lane hN hd.rings hd'
    have hque : x :: xs = m :: Q := hq.symm.trans hd.que
    cases hque
    have hidx : (d.lane .model N).rx.blkIdx = i := hd.idx
    have hwr : d'.wrote .host = d.wrote .host ++ [Party.host.avlMsg (d.lane .model N).rx.blkIdx] :=
      congrArg Lane.wrote hown
    refine of_rx (congrArg Lane.rx hpeer) hw rfl ((congrArg Lane.live hpeer).trans hd.ring) ?_ ?_ hd.param
    · rw [hwr, hd.wrote, hidx]
    · rw [← hidx]
      rfl
  cases hs : c.ring .host ((c.tx .host).ctlWrIdx % N) with
  | none =>
    obtain ⟨c', hc'⟩ := h.finishBlk_free hN hs
    exact ⟨c', by rw [Host.finishOutBlk, hc'], hok h hc'⟩
  | some x =>
    obtain ⟨htake, hfree⟩ := h.coprocTake hN (by rw [hs]; rfl)
    obtain ⟨c', hc'⟩ := htake.finishBlk_free hN hfree
    have hslot : finishBlk cfg .host c = .error .slot := by
      simp [finishBlk, nextMsgQue, h.que, nextRxBlk, sendMsgInternal, hN, slot_eq hN, setRx, hs, bind, Except.bind]
    exact ⟨c', by rw [Host.finishOutBlk, hslot]; exact hc', hok htake hc'⟩

/-! ### The message loop -/

/-- `MsgLoop` drops asserts. -/
theorem skip (cfg : Cfg) {l : List CtrlMsg} (h : Holds N c (l ++ Q) L W i) (hl : ∀ a ∈ l, a.IsAssert) :
    ∃ c', Holds N c' Q L W i ∧ ∀ n, msgLoopTurns cfg (l.length + n) c = msgLoopTurns cfg n c' := by
  induction l generalizing c with
  | nil => exact ⟨c, h, fun n => by simp⟩
  | cons a l ih =>
    obtain ⟨c', h', hrun⟩ := ih (h.setQue (l ++ Q)) (fun x hx => hl x (List.mem_cons_of_mem a hx))
    have hturn : hostTurn c = .next (c.setRx .host { c.rx .host with msgQue := l ++ Q }) := by
      rcases hl a List.mem_cons_self with ha | ha <;> simp [hostTurn, h.que, ha]
    refine ⟨c', h', fun n => ?_⟩
    rw [List.length_cons, Nat.add_right_comm, msgLoopTurns, hturn]
    exact hrun n

theorem idle (h : Holds N c [] L W i) (n : ℕ) : msgLoopTurns cfg (n + 1) c = .ok (.idle, c) := by
  simp [msgLoopTurns, hostTurn, h.que]

/-- A return is not reported before its arguments are queued. -/
theorem waits (h : Holds N c [m] L W i) (hm : m.NeedsArgs) (n : ℕ) :
    msgLoopTurns cfg (n + 1) c = .ok (.idle, c) := by
  obtain ⟨hcmd, hdq, hcnt⟩ := hm
  simp [msgLoopTurns, hostTurn, h.que, hcmd, rdyTurn, hdq, hifDqCall, hcnt]

/-- With asserts only, `MsgLoop` empties the queue and reports nothing. -/
theorem drops (cfg : Cfg) (h : Holds N c Q L W i) (hQ : ∀ a ∈ Q, a.IsAssert) :
    ∃ c', (msgLoopTurns cfg (Q.length + 1) c >>= fun x => haltSwitch cfg x.1 x.2) = .ok c' ∧
      Holds N c' [] L W i := by
  have h' : Holds N c (Q ++ []) L W i := by rwa [List.append_nil]
  obtain ⟨c', hc', hrun⟩ := h'.skip cfg hQ
  refine ⟨c', ?_, hc'⟩
  rw [hrun, hc'.idle]
  rfl

/-- `HaltLoop` has no case for a host data marker. -/
theorem marker (h : Holds N c (m :: Q) L W i) (hm : m.IsMarker) (n : ℕ) :
    (msgLoopTurns cfg (n + 1) c >>= fun x => haltSwitch cfg x.1 x.2) = .error .assert := by
  obtain ⟨hcmd, hdq⟩ := hm
  simp only [msgLoopTurns, hostTurn, h.que, hcmd, rdyTurn, hdq, hifDqNull]
  by_cases hcnt : m.cnt = 0 <;> simp [hcnt, haltSwitch, bind, Except.bind]

/-- Any other message is popped, and a block it announced goes back. -/
theorem takes (hN : cfg.ctlQueCnt .host = N) (h : Holds N c (m :: Q) L W i) (hm : ¬ m.IsAssert)
    (hout : m.Outbound) (hmk : ¬ m.IsMarker) (hargs : m.NeedsArgs → Q ≠ []) (n : ℕ) :
    ∃ c' j, (msgLoopTurns cfg (n + 1) c >>= fun x => haltSwitch cfg x.1 x.2) = .ok c' ∧
      Holds N c' Q L (W ++ if m.cmd = .oblkRdy then [Party.host.avlMsg i] else []) j := by
  rcases hout with ha | ⟨ty, hcmd⟩ | ⟨hcmd, hdq⟩
  · exact absurd ha hm
  · refine ⟨_, i, ?_, by simpa [hcmd] using h.setQue Q⟩
    simp [msgLoopTurns, hostTurn, h.que, hcmd, haltSwitch, nextMsgQue, bind, Except.bind]
  rw [if_pos hcmd]
  rcases hdq with hdq | hdq | hdq | hdq
  · -- plain data, or the arguments of a return that was begun
    have hsize := h.setSize (if (c.rx .host).blkDataSize = 0 then m.cnt else (c.rx .host).blkDataSize)
    obtain ⟨c', hc', h'⟩ := hsize.finishOutBlk hN
    refine ⟨c', i + 1, ?_, h'⟩
    simp only [msgLoopTurns, hostTurn, h.que, hcmd, rdyTurn, hdq, bind, Except.bind]
    by_cases hrtn : 0 < (c.rx .host).recvRtnArgc <;> simpa [hrtn, haltSwitch, h.que] using hc'
  · exact absurd ⟨hcmd, hdq⟩ hmk
  · obtain ⟨c', hc', h'⟩ := h.finishOutBlk hN
    refine ⟨c', i + 1, ?_, h'⟩
    have hready : m.cnt = 0 ∨ 2 ≤ (m :: Q).length := by
      by_cases hcnt : m.cnt = 0
      · exact .inl hcnt
      · have hlen := List.length_pos_iff.2 (hargs ⟨hcmd, hdq, hcnt⟩)
        exact .inr (by simp only [List.length_cons]; omega)
    simp only [msgLoopTurns, hostTurn, h.que, hcmd, rdyTurn, hdq, hifDqCall, if_pos hready, bind, Except.bind]
    exact hc'
  · obtain ⟨c', hc', h'⟩ := h.finishOutBlk hN
    refine ⟨c', i + 1, ?_, h'⟩
    simp [msgLoopTurns, hostTurn, h.que, hcmd, rdyTurn, hdq, hifDqHalt, hc', haltSwitch, bind, Except.bind]

end Holds

/-! ## One call -/

theorem pending_eq (h : Holds (cfg.ctlQueCnt .host) c Q L W i) : pending cfg c = Q ++ dropAvls L := by
  have hpend : pending cfg c = (c.rx .host).msgQue ++ dropAvls (c.live .model (cfg.ctlQueCnt .host)) := rfl
  rw [hpend, h.que, h.ring]

/-- A call in terms of the queue that `QueOutMsgs` leaves. -/
theorem Undrained.haltLoop (h : Undrained cfg c) : ∃ Q L d,
    Holds (cfg.ctlQueCnt .host) d Q L (c.wrote .host) (c.rx .host).blkIdx ∧
      pending cfg c = Q ++ dropAvls L ∧ Q.length < cfg.ctlQueCnt .host ∧
      (L = [] ∨ Q.length + 1 = cfg.ctlQueCnt .host) ∧
      haltLoop cfg c = (msgLoopTurns cfg (Q.length + 1) d >>= fun x => haltSwitch cfg x.1 x.2) := by
  have h0 : Holds (cfg.ctlQueCnt .host) c _ _ (c.wrote .host) (c.rx .host).blkIdx :=
    ⟨h.rings, rfl, rfl, rfl, rfl, h.param⟩
  obtain ⟨Q, L, hd, hlen, hpend, hend, -⟩ := h0.queOutMsgs rfl h0.length_le h.que
  refine ⟨Q, L, _, hd, hpend.symm, hlen, hend, ?_⟩
  rw [Host.haltLoop, hostMsgLoop, hd.que]

/-- What is left is again a unit at shutdown. -/
theorem Undrained.of_suffix (h : Undrained cfg c) (h' : Holds (cfg.ctlQueCnt .host) c' Q L W i)
    (hlen : Q.length < cfg.ctlQueCnt .host) (hsuf : (Q ++ dropAvls L).IsSuffix (pending cfg c)) :
    Undrained cfg c' := by
  obtain ⟨before, hbefore⟩ := hsuf
  refine ⟨h'.rings, by rw [h'.que]; exact hlen, h'.param, ?_, ?_⟩
  · intro m hm
    rw [pending_eq h'] at hm
    exact h.sent m (by rw [← hbefore]; exact List.mem_append_right before hm)
  · intro l m hlm
    rw [pending_eq h'] at hlm
    exact h.args (before ++ l) m (by rw [← hbefore, hlm, List.append_assoc])

section Front

variable {l rest : List CtrlMsg}

/-- A run of asserts and the message behind it are in the local queue when they fit. -/
theorem front_queued (h : Undrained cfg c) (hp : pending cfg c = l ++ m :: rest)
    (hpend : pending cfg c = Q ++ dropAvls L) (hend : L = [] ∨ Q.length + 1 = cfg.ctlQueCnt .host)
    (hfit : l.length + m.entries < cfg.ctlQueCnt .host) :
    ∃ Q', Q = l ++ m :: Q' ∧ rest = Q' ++ dropAvls L ∧ (m.NeedsArgs → Q' ≠ []) := by
  have hpos := m.entries_pos
  rcases hend with rfl | hfull
  · have hQ : l ++ m :: rest = Q := by rw [← hp, hpend]; simp [dropAvls]
    refine ⟨rest, hQ.symm, by simp [dropAvls], ?_⟩
    rintro hm rfl
    exact h.args l m hp hm
  · have heq : l ++ m :: rest = Q ++ dropAvls L := hp.symm.trans hpend
    have hfront : (l ++ [m]).IsPrefix (Q ++ dropAvls L) := ⟨rest, by rw [← heq]; simp⟩
    have hpre : (l ++ [m]).IsPrefix Q := by
      refine List.prefix_of_prefix_length_le hfront (List.prefix_append _ _) ?_
      simp only [List.length_append, List.length_singleton]
      omega
    obtain ⟨Q', rfl⟩ := hpre
    refine ⟨Q', by simp, ?_, ?_⟩
    · simpa using heq
    · rintro hm rfl
      rw [CtrlMsg.entries, if_pos hm] at hfit
      simp only [List.append_nil, List.length_append, List.length_singleton] at hfull
      omega

/-- **A call pops the oldest message besides asserts.** -/
theorem haltLoop_pops (h : Undrained cfg c) (hp : pending cfg c = l ++ m :: rest)
    (hl : ∀ a ∈ l, a.IsAssert) (hm : ¬ m.IsAssert) (hmk : ¬ m.IsMarker)
    (hfit : l.length + m.entries < cfg.ctlQueCnt .host) :
    ∃ c', haltLoop cfg c = .ok c' ∧ Undrained cfg c' ∧ pending cfg c' = rest ∧
      c'.wrote .host = c.wrote .host ++
        if m.cmd = .oblkRdy then [Party.host.avlMsg (c.rx .host).blkIdx] else [] := by
  obtain ⟨Q, L, d, hd, hpend, hlen, hend, hrun⟩ := h.haltLoop
  obtain ⟨Q', rfl, hrest, hargs⟩ := front_queued h hp hpend hend hfit
  obtain ⟨d', hd', hskip⟩ := hd.skip cfg hl
  have hout := h.sent m (by rw [hp]; simp)
  obtain ⟨c', j, htake, hc'⟩ := hd'.takes rfl hm hout hmk hargs (m :: Q').length
  refine ⟨c', ?_, ?_, (pending_eq hc').trans hrest.symm, hc'.wrote⟩
  · rw [hrun, List.length_append, Nat.add_assoc, hskip]
    exact htake
  · refine h.of_suffix hc' ?_ ⟨l ++ [m], by rw [hp, ← hrest]; simp⟩
    simp only [List.length_append, List.length_cons] at hlen
    omega

/-- **A host data marker** runs into the `assert(0)` of `HaltLoop`. -/
theorem haltLoop_marker (h : Undrained cfg c) (hp : pending cfg c = l ++ m :: rest)
    (hl : ∀ a ∈ l, a.IsAssert) (hmk : m.IsMarker) (hfit : l.length + m.entries < cfg.ctlQueCnt .host) :
    haltLoop cfg c = .error .assert := by
  obtain ⟨Q, L, d, hd, hpend, -, hend, hrun⟩ := h.haltLoop
  obtain ⟨Q', rfl, -⟩ := front_queued h hp hpend hend hfit
  obtain ⟨d', hd', hskip⟩ := hd.skip cfg hl
  rw [hrun, List.length_append, Nat.add_assoc, hskip]
  exact hd'.marker hmk _

/-- A message that does not fit into the queue behind its asserts is not popped. -/
theorem haltLoop_leaves (h : Undrained cfg c) (hp : pending cfg c = l ++ m :: rest)
    (hl : ∀ a ∈ l, a.IsAssert) (hfit : ¬ l.length + m.entries < cfg.ctlQueCnt .host) :
    ∃ c' l', haltLoop cfg c = .ok c' ∧ pending cfg c' = l' ++ m :: rest := by
  obtain ⟨Q, L, d, hd, hpend, hlen, hend, hrun⟩ := h.haltLoop
  have heq : l ++ m :: rest = Q ++ dropAvls L := hp.symm.trans hpend
  rcases List.append_eq_append_iff.1 heq with ⟨Q', rfl, hrest⟩ | ⟨l', rfl, hrest⟩
  · cases Q' with
    | nil =>
      -- the queue ends behind the asserts
      obtain ⟨d', hrun', hd'⟩ := hd.drops cfg (by simpa using hl)
      exact ⟨d', [], hrun.trans hrun', (pending_eq hd').trans (by simpa using hrest.symm)⟩
    | cons x Q' =>
      -- the message is the last one in the queue, its arguments are in the ring
      obtain ⟨rfl, hrest'⟩ := List.cons.inj hrest
      simp only [List.length_append, List.length_cons] at hlen
      have hargs : m.NeedsArgs := by
        by_contra hno
        rw [CtrlMsg.entries, if_neg hno] at hfit
        omega
      rw [CtrlMsg.entries, if_pos hargs] at hfit
      have hnil : Q' = [] := List.length_eq_zero_iff.1 (by omega)
      subst hnil
      obtain ⟨d', hd', hskip⟩ := hd.skip cfg hl
      refine ⟨d', [], ?_, (pending_eq hd').trans (by rw [hrest']; rfl)⟩
      rw [hrun, List.length_append, Nat.add_assoc, hskip, List.length_singleton, hd'.waits hargs]
      rfl
  · -- the queue ends among the asserts
    obtain ⟨d', hrun', hd'⟩ := hd.drops cfg (fun a ha => hl a (List.mem_append_left l' ha))
    exact ⟨d', l', hrun.trans hrun', (pending_eq hd').trans hrest⟩

theorem one_lt_ctlQueCnt (cfg : Cfg) : 1 < cfg.ctlQueCnt .host := by
  obtain ⟨-, ⟨h9, -⟩, -⟩ := HifParams.admitted_iff.1 cfg.admitted
  rw [Cfg.ctlQueCnt, Nat.one_shiftLeft]
  exact Nat.one_lt_two_pow (by omega)

/-- **With nothing but asserts pending** a call drops some of them. -/
theorem haltLoop_asserts (h : Undrained cfg c) (ha : ∀ a ∈ pending cfg c, a.IsAssert) :
    ∃ c', haltLoop cfg c = .ok c' ∧ Undrained cfg c' ∧ (pending cfg c').IsSuffix (pending cfg c) ∧
      c'.wrote .host = c.wrote .host ∧
      (pending cfg c ≠ [] → (pending cfg c').length < (pending cfg c).length) := by
  obtain ⟨Q, L, d, hd, hpend, hlen, hend, hrun⟩ := h.haltLoop
  have hQ : ∀ a ∈ Q, a.IsAssert := fun a haQ => ha a (by rw [hpend]; exact List.mem_append_left _ haQ)
  obtain ⟨d', hrun', hd'⟩ := hd.drops cfg hQ
  have hpend' : pending cfg d' = dropAvls L := pending_eq hd'
  have hsuf : (dropAvls L).IsSuffix (pending cfg c) := ⟨Q, hpend.symm⟩
  refine ⟨d', hrun.trans hrun', h.of_suffix hd' ?_ (by simpa using hsuf), by rwa [hpend'], hd'.wrote, ?_⟩
  · exact Nat.lt_of_le_of_lt (Nat.zero_le _) hlen
  · intro hne
    have hpos : 0 < Q.length := by
      rw [List.length_pos_iff]
      rintro rfl
      rcases hend with rfl | hfull
      · exact hne (by simpa [dropAvls] using hpend)
      · have := one_lt_ctlQueCnt cfg
        simp only [List.length_nil] at hfull
        omega
    rw [hpend', hpend, List.length_append]
    omega

end Front

/-! ## All calls -/

section All

variable {l l' rest rest' : List CtrlMsg} {m' : CtrlMsg}

/-- The oldest message besides asserts. -/
theorem exists_first {S : List CtrlMsg} (h : ¬ ∀ a ∈ S, a.IsAssert) :
    ∃ l m rest, S = l ++ m :: rest ∧ (∀ a ∈ l, a.IsAssert) ∧ ¬ m.IsAssert := by
  have hsome : (S.find? (fun a => decide ¬ a.IsAssert)).isSome := by
    rw [List.find?_isSome]
    simpa using h
  obtain ⟨m, hm⟩ := Option.isSome_iff_exists.1 hsome
  obtain ⟨hm', l, rest, hS, hl⟩ := List.find?_eq_some_iff_append.1 hm
  exact ⟨l, m, rest, hS, fun a ha => by simpa using hl a ha, by simpa using hm'⟩

theorem first_unique (h : l ++ m :: rest = l' ++ m' :: rest') (hl : ∀ a ∈ l, a.IsAssert) (hm : ¬ m.IsAssert)
    (hl' : ∀ a ∈ l', a.IsAssert) (hm' : ¬ m'.IsAssert) : l = l' ∧ m = m' ∧ rest = rest' := by
  rcases List.append_eq_append_iff.1 h with ⟨x, rfl, hx⟩ | ⟨x, rfl, hx⟩
  · cases x with
    | nil => simpa using hx
    | cons a x =>
      obtain ⟨rfl, -⟩ := List.cons.inj hx
      exact absurd (hl' m (by simp)) hm
  · cases x with
    | nil =>
      obtain ⟨rfl, rfl⟩ := List.cons.inj hx
      exact ⟨by simp, rfl, rfl⟩
    | cons a x =>
      obtain ⟨rfl, -⟩ := List.cons.inj hx
      exact absurd (hl m' (by simp)) hm'

theorem Drainable.of_suffix (h : Drainable cfg c) (hsuf : (pending cfg c').IsSuffix (pending cfg c)) :
    Drainable cfg c' := by
  obtain ⟨pre, hpre⟩ := hsuf
  intro before l m rest hp
  exact h (pre ++ before) l m rest (by rw [← hpre, hp]; simp)

/-- **A call on a drainable unit.** -/
theorem haltLoop_step (h : Undrained cfg c) (hd : Drainable cfg c) :
    ∃ c', haltLoop cfg c = .ok c' ∧ OneCall cfg c c' ∧ Undrained cfg c' ∧ Drainable cfg c' ∧
      (pending cfg c ≠ [] → (pending cfg c').length < (pending cfg c).length) := by
  by_cases ha : ∀ a ∈ pending cfg c, a.IsAssert
  · obtain ⟨c', hc', hu, hsuf, hwrote, hlt⟩ := haltLoop_asserts h ha
    exact ⟨c', hc', .inr ⟨ha, fun a hx => ha a (hsuf.subset hx), hwrote⟩, hu, hd.of_suffix hsuf, hlt⟩
  · obtain ⟨l, m, rest, hp, hl, hm⟩ := exists_first ha
    obtain ⟨hmk, hfit⟩ := hd [] l m rest (by simpa using hp) hl hm
    obtain ⟨c', hc', hu, hrest, hwrote⟩ := haltLoop_pops h hp hl hm hmk hfit
    refine ⟨c', hc', .inl ⟨l, m, rest, hp, hl, hm, hrest, hwrote⟩, hu, hd.of_suffix ?_, fun _ => ?_⟩
    · exact ⟨l ++ [m], by rw [hrest, hp]; simp⟩
    · rw [hrest, hp, List.length_append, List.length_cons]
      omega

/-- A drainable unit is drained. -/
theorem Drainable.drains (h : Undrained cfg c) (hd : Drainable cfg c) : Drains cfg c := by
  refine ⟨fun n => ?_, ?_⟩
  · induction n generalizing c with
    | zero =>
      obtain ⟨c', hc', hone, -⟩ := haltLoop_step h hd
      exact ⟨c, c', rfl, hc', hone⟩
    | succ n ih =>
      obtain ⟨c', hc', -, hu, hd', -⟩ := haltLoop_step h hd
      obtain ⟨d, d', hrun, hcall⟩ := ih hu hd'
      exact ⟨d, d', by rw [haltLoops, hc']; exact hrun, hcall⟩
  · -- every call leaves fewer messages
    generalize hk : (pending cfg c).length = k
    induction k using Nat.strongRecOn generalizing c with
    | ind k ih =>
      by_cases hnil : pending cfg c = []
      · exact ⟨0, c, rfl, hnil⟩
      · obtain ⟨c', hc', -, hu, hd', hlt⟩ := haltLoop_step h hd
        obtain ⟨n, d, hrun, hend⟩ := ih _ (hk ▸ hlt hnil) hu hd' rfl
        exact ⟨n + 1, d, by rw [haltLoops, hc']; exact hrun, hend⟩

/-- A call that returns and pops its message found it in the queue, and no marker. -/
theorem OneCall.fits (h : Undrained cfg c) (hc : haltLoop cfg c = .ok c') (hone : OneCall cfg c c')
    (hp : pending cfg c = l ++ m :: rest) (hl : ∀ a ∈ l, a.IsAssert) (hm : ¬ m.IsAssert) :
    pending cfg c' = rest ∧ ¬ m.IsMarker ∧ l.length + m.entries < cfg.ctlQueCnt .host := by
  have hrest : pending cfg c' = rest := by
    rcases hone with ⟨l1, m1, rest1, hp1, hl1, hm1, hrest1, -⟩ | ⟨ha, -⟩
    · obtain ⟨-, -, rfl⟩ := first_unique (hp.symm.trans hp1) hl hm hl1 hm1
      exact hrest1
    · exact absurd (ha m (by rw [hp]; simp)) hm
  have hfit : l.length + m.entries < cfg.ctlQueCnt .host := by
    by_contra hno
    obtain ⟨d, l', hd, hleft⟩ := haltLoop_leaves h hp hl hno
    cases hc.symm.trans hd
    have hlen := congrArg List.length (hrest.symm.trans hleft)
    simp only [List.length_append, List.length_cons] at hlen
    omega
  refine ⟨hrest, fun hmk => ?_, hfit⟩
  cases hc.symm.trans (haltLoop_marker h hp hl hmk hfit)

theorem Drains.next (h : Drains cfg c) (hc : haltLoop cfg c = .ok c') (hne : pending cfg c ≠ []) : Drains cfg c' := by
  have hrun : ∀ n, haltLoops cfg (n + 1) c = haltLoops cfg n c' := fun n => by rw [haltLoops, hc]; rfl
  obtain ⟨hall, n, d, hn, hend⟩ := h
  refine ⟨fun k => ?_, ?_⟩
  · obtain ⟨e, e', he, hcall⟩ := hall (k + 1)
    exact ⟨e, e', (hrun k).symm.trans he, hcall⟩
  · cases n with
    | zero =>
      cases hn
      exact absurd hend hne
    | succ n => exact ⟨n, d, (hrun n).symm.trans hn, hend⟩

/-- A unit that is drained is drainable: by induction on what stands before the message. -/
theorem Drains.drainable (h : Undrained cfg c) (hd : Drains cfg c) : Drainable cfg c := by
  intro before l m rest hp hl hm
  generalize hk : before.length = k
  induction k using Nat.strongRecOn generalizing c before with
  | ind k ih =>
    have hne : pending cfg c ≠ [] := by rw [hp]; simp
    obtain ⟨d, c', hd0, hc, hone⟩ := hd.1 0
    cases hd0
    by_cases hb : ∀ a ∈ before, a.IsAssert
    · obtain ⟨-, hmk, hfit⟩ := hone.fits h hc hp (fun a ha => (List.mem_append.1 ha).elim (hb a) (hl a)) hm
      rw [List.length_append] at hfit
      exact ⟨hmk, by omega⟩
    · obtain ⟨b1, x, b2, rfl, hb1, hx⟩ := exists_first hb
      have hp1 : pending cfg c = b1 ++ x :: (b2 ++ l ++ m :: rest) := by rw [hp]; simp
      obtain ⟨hrest, hmk, hfit⟩ := hone.fits h hc hp1 hb1 hx
      obtain ⟨c1, hc1, hu, -⟩ := haltLoop_pops h hp1 hb1 hx hmk hfit
      cases hc.symm.trans hc1
      exact ih b2.length (by rw [← hk]; simp; omega) hu (hd.next hc hne) b2 hrest rfl

end All

/-- **Which units are drained.** -/
theorem haltLoop_drains (h : Undrained cfg c) : Drains cfg c ↔ Drainable cfg c :=
  ⟨fun hd => hd.drainable h, fun hd => hd.drains h⟩

/-- Few messages are drained as soon as no marker is among them. -/
theorem drainable_of_short (hmk : ∀ m ∈ pending cfg c, ¬ m.IsMarker)
    (hlen : (pending cfg c).length + 1 < cfg.ctlQueCnt .host) : Drainable cfg c := by
  intro before l m rest hp _ _
  have hentries : m.entries ≤ 2 := by unfold CtrlMsg.entries; split <;> omega
  refine ⟨hmk m (by rw [hp]; simp), ?_⟩
  rw [hp] at hlen
  simp only [List.length_append, List.length_cons] at hlen
  omega

/-- A unit with `l` in its local queue and nothing else. -/
def leftUnread (cfg : Cfg) (l : List CtrlMsg) : Core :=
  (Core.init cfg).setRx .host { (Core.init cfg).rx .host with msgQue := l }

/-- Three quadwords, a return with two arguments, a user message and the halt. -/
def demoUnread : List CtrlMsg :=
  [Party.model.rdyMsg 3 0, Party.model.rdyMsg 2 hifDqCall, Party.model.rdyMsg 2 0, .make 16 7,
    Party.model.rdyMsg 0 hifDqHalt]

theorem haltLoop_drains_demo : Drains Cfg.default (leftUnread Cfg.default demoUnread) := by
  have hpend : pending Cfg.default (leftUnread Cfg.default demoUnread) = demoUnread := rfl
  have hu : Undrained Cfg.default (leftUnread Cfg.default demoUnread) := by
    refine ⟨setRx_rings rfl (init_rings Cfg.default), by decide, ⟨_, rfl⟩, ?_, ?_⟩
    · intro m hm
      rw [hpend, demoUnread] at hm
      simp only [List.mem_cons, List.not_mem_nil, or_false] at hm
      rcases hm with rfl | rfl | rfl | rfl | rfl
      · exact .inr (.inr (by decide))
      · exact .inr (.inr (by decide))
      · exact .inr (.inr (by decide))
      · exact .inr (.inl ⟨16, rfl⟩)
      · exact .inr (.inr (by decide))
    · intro l m hp
      have hlast : demoUnread.getLast? = some m := by rw [← hpend, hp]; simp
      obtain rfl : Party.model.rdyMsg 0 hifDqHalt = m := Option.some.inj hlast
      decide
  refine (haltLoop_drains hu).2 (drainable_of_short ?_ ?_)
  · rw [hpend]
    decide
  · rw [hpend]
    decide

/-- The model unit sets up and sends a host data marker, which the application never receives. -/
def markerDemo : List Act :=
  List.replicate 22 (.run .host) ++ [.call .model (.recvPoll false false false)] ++
    List.replicate 28 (.run .model) ++ [.call .model .sendHostDataMarker, .run .model]

/-- **A pending marker stops the shutdown.** -/
theorem haltLoop_marker_demo : ∃ s, Lts.run (exec Cfg.default) (Sys.init Cfg.default) markerDemo = .ok s ∧
    haltLoop Cfg.default s.core = .error .assert ∧ ¬ Drains Cfg.default s.core := by
  have hstop : (Lts.run (exec Cfg.default) (Sys.init Cfg.default) markerDemo).toOption.map (fun s =>
      stopOf (haltLoop Cfg.default s.core)) = some (some .assert) := by decide +kernel
  cases h : Lts.run (exec Cfg.default) (Sys.init Cfg.default) markerDemo with
  | error e =>
    rw [h] at hstop
    cases hstop
  | ok s =>
    rw [h] at hstop
    have hstop := Option.some.inj hstop
    cases he : haltLoop Cfg.default s.core with
    | ok c =>
      simp only [he] at hstop
      cases hstop
    | error e =>
      simp only [he] at hstop
      obtain rfl : e = .assert := Option.some.inj hstop
      refine ⟨s, rfl, he, fun hd => ?_⟩
      obtain ⟨d, d', hd0, hcall, -⟩ := hd.1 0
      cases hd0
      cases he.symm.trans hcall

end OpenHT.Host
