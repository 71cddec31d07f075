import OpenHT.Host.Step
import OpenHT.Lib.Ring

/-!
# A link as two lanes

A lane is one direction of a link, seen as a queue: the sending half of one unit, the
receiving half of the other, the messages in the ring between them (oldest first), and
the blocks they announce. Every primitive of a unit changes its own lane (`c.lane p`)
and the opposite one (`c.lane p.other`) as stated here; the slots, valid bits and
running indices of the rings do not occur above this module. A ring has `N` slots, 512
(`modelHifCtlQueCnt`) unless said otherwise.

* `RingsOk`: both rings are well formed.
* `sendMsgInternal_lane`, `nextTxBlk_lane`, `flushTxBlk_lane`, `queMsg_lane`,
  `finishBlk_lane`: what each primitive does to the lanes.
* `sendMsgInternal_slot`: a send only waits when the ring holds all its messages.
-/

namespace OpenHT.Host

/-- One direction of a link. -/
structure Lane where
  tx : Tx
  rx : Rx
  /-- the messages in the ring, oldest first -/
  live : List CtrlMsg
  mem : Mem Qw
  wrote : List CtrlMsg
  acc : List Item
  got : List Item

namespace Lane

variable (L : Lane)

/-- A message is sent. -/
def post (m : CtrlMsg) : Lane :=
  { L with
    tx := { L.tx with ctlWrIdx := L.tx.ctlWrIdx + 1 }
    live := L.live ++ [m]
    wrote := L.wrote ++ [m] }

/-- The sender gives up its current block. -/
def next (b : BlkParam) : Lane :=
  { L with tx := { L.tx with
      blkAvailCnt := L.tx.blkAvailCnt - 1
      blkWrIdx := 0
      blkIdx := L.tx.blkIdx + 1
      blk := b.addr L.tx.blkBase (L.tx.blkIdx + 1) } }

/-- The sender writes into its current block. -/
def write (chunk : List Qw) : Lane :=
  { L with
    tx := { L.tx with blkWrIdx := L.tx.blkWrIdx + chunk.length }
    mem := L.mem.write (L.tx.blk + L.tx.blkWrIdx) chunk }

/-- A block comes back to the sender. -/
def credit : Lane := { L with tx := { L.tx with blkAvailCnt := L.tx.blkAvailCnt + 1 } }

/-- The receiver takes a message out of the ring; `l` stay in it. -/
def fetch (l : List CtrlMsg) : Lane :=
  { L with rx := { L.rx with ctlRdIdx := L.rx.ctlRdIdx + 1 }, live := l }

/-- The receiver's local queue becomes `ms`. -/
def setQue (ms : List CtrlMsg) : Lane := { L with rx := { L.rx with msgQue := ms } }

/-- The receiver goes on to its next block. -/
def nextRx (b : BlkParam) : Lane :=
  { L with rx := { L.rx with
      blkIdx := L.rx.blkIdx + 1
      blk := b.addr L.rx.blkBase (L.rx.blkIdx + 1)
      blkRdIdx := 0 } }

/-- The receiver reads `n` quadwords of its block. -/
def read (n : ℕ) : Lane :=
  { L with
    rx := { L.rx with blkRdIdx := L.rx.blkRdIdx + n, blkDataSize := L.rx.blkDataSize - n }
    got := L.got ++ (L.mem.read (L.rx.blk + L.rx.blkRdIdx) n).map .qw }

def accept (l : List Item) : Lane := { L with acc := L.acc ++ l }

def deliver (l : List Item) : Lane := { L with got := L.got ++ l }

end Lane

namespace Core

variable (c : Core)

/-- The messages in the ring written by `p`. -/
def live (p : Party) (N : optParam ℕ modelHifCtlQueCnt) : List CtrlMsg :=
  Ring.live N (c.ring p) (c.rx p.other).ctlRdIdx (c.tx p).ctlWrIdx

/-- The direction from `p` to its peer. -/
def lane (p : Party) (N : optParam ℕ modelHifCtlQueCnt) : Lane :=
  ⟨c.tx p, c.rx p.other, c.live p N, c.mem p, c.wrote p, c.acc p, c.got p⟩

/-- Both rings are well formed. -/
def RingsOk (N : optParam ℕ modelHifCtlQueCnt) : Prop :=
  ∀ p, Ring.Wf N (c.ring p) (c.rx p.other).ctlRdIdx (c.tx p).ctlWrIdx

variable {c} {p : Party} {N : ℕ}

theorem RingsOk.intro (h1 : Ring.Wf N (c.ring p) (c.rx p.other).ctlRdIdx (c.tx p).ctlWrIdx)
    (h2 : Ring.Wf N (c.ring p.other) (c.rx p).ctlRdIdx (c.tx p.other).ctlWrIdx) :
    c.RingsOk N := by
  intro r
  rcases p.eq_or_other r with rfl | rfl
  · exact h1
  · simpa using h2

/-! ### Record updates -/

theorem setTx_lane {t : Tx} (h : t.ctlWrIdx = (c.tx p).ctlWrIdx) :
    (c.setTx p t).lane p N = { c.lane p N with tx := t } ∧ (c.setTx p t).lane p.other N = c.lane p.other N := by
  simp [lane, live, setTx, h]

theorem setRx_lane {r : Rx} (h : r.ctlRdIdx = (c.rx p).ctlRdIdx) :
    (c.setRx p r).lane p N = c.lane p N ∧ (c.setRx p r).lane p.other N = { c.lane p.other N with rx := r } := by
  simp [lane, live, setRx, h]

theorem setTx_rings {t : Tx} (h : t.ctlWrIdx = (c.tx p).ctlWrIdx) (hw : c.RingsOk N) :
    (c.setTx p t).RingsOk N := by
  apply RingsOk.intro (p := p)
  · simpa [setTx, h] using hw p
  · simpa [setTx] using hw p.other

theorem setRx_rings {r : Rx} (h : r.ctlRdIdx = (c.rx p).ctlRdIdx) (hw : c.RingsOk N) :
    (c.setRx p r).RingsOk N := by
  apply RingsOk.intro (p := p)
  · simpa [setRx] using hw p
  · simpa [setRx, h] using hw p.other

theorem accept_lane (l : List Item) :
    (c.accept p l).lane p N = (c.lane p N).accept l ∧ (c.accept p l).lane p.other N = c.lane p.other N := by
  simp [lane, live, accept, Lane.accept]

theorem deliver_lane (l : List Item) :
    (c.deliver p.other l).lane p N = c.lane p N ∧
      (c.deliver p.other l).lane p.other N = (c.lane p.other N).deliver l := by
  simp [lane, live, deliver, Lane.deliver]

end Core

open Host.Core

variable {cfg : Cfg} {p : Party} {c c' : Core} {N : ℕ}

/-- With `m_ctlQueW = 9` both units see rings of the same size. -/
theorem ctlQueCnt_eq (h9 : cfg.params.ctlQueW = 9) (p : Party) :
    cfg.ctlQueCnt p = modelHifCtlQueCnt := by
  cases p <;> simp [Cfg.ctlQueCnt, modelHifCtlQueCnt, h9]

/-- The number of slots is a power of two. -/
theorem ctlQueCnt_pow (cfg : Cfg) (p : Party) : ∃ w, cfg.ctlQueCnt p = 2 ^ w := by
  cases p with
  | host => exact ⟨cfg.params.ctlQueW, Nat.one_shiftLeft _⟩
  | model => exact ⟨9, rfl⟩

theorem slot_eq (hN : cfg.ctlQueCnt p = N) (i : ℕ) : i &&& (N - 1) = i % N := by
  obtain ⟨w, hw⟩ := ctlQueCnt_pow cfg p
  rw [← hN, hw, Nat.and_two_pow_sub_one_eq_mod]

theorem ctlQueCnt_pos (hN : cfg.ctlQueCnt p = N) : 0 < N := by
  obtain ⟨w, hw⟩ := ctlQueCnt_pow cfg p
  rw [← hN, hw]
  exact Nat.two_pow_pos w

/-! ### Sending -/

theorem sendMsgInternal_lane (hN : cfg.ctlQueCnt p = N) (hw : c.RingsOk N) {m : CtrlMsg}
    (h : sendMsgInternal cfg p m c = .ok c') :
    c'.RingsOk N ∧ c'.lane p N = (c.lane p N).post m ∧ c'.lane p.other N = c.lane p.other N := by
  simp only [sendMsgInternal, hN, slot_eq hN] at h
  split at h
  · cases h
  rename_i hfree
  cases h
  have hfree' : c.ring p ((c.tx p).ctlWrIdx % N) = none := by simpa using hfree
  obtain ⟨hwf, hlive⟩ := (hw p).put (ctlQueCnt_pos hN) hfree' m
  refine ⟨RingsOk.intro (p := p) (by simpa [setTx] using hwf) (by simpa [setTx] using hw p.other), ?_, ?_⟩
  · simp [lane, live, setTx, Lane.post, hlive]
  · simp [lane, live, setTx]

/-- A send waits for its slot only while the ring is full. -/
theorem sendMsgInternal_slot (hN : cfg.ctlQueCnt p = N) (hw : c.RingsOk N)
    (hlen : (c.lane p N).live.length < N) (m : CtrlMsg) :
    sendMsgInternal cfg p m c ≠ .error .slot := by
  have hfree := (hw p).slot_free hlen
  simp [sendMsgInternal, hN, slot_eq hN, hfree]

theorem nextTxBlk_lane (hw : c.RingsOk N) (h : nextTxBlk p c = .ok c') :
    0 < (c.lane p N).tx.blkAvailCnt ∧ ∃ b, (c.lane p N).tx.param = some b ∧
      c'.RingsOk N ∧ c'.lane p N = (c.lane p N).next b ∧ c'.lane p.other N = c.lane p.other N := by
  simp only [nextTxBlk] at h
  split at h
  · cases h
  rename_i hpos
  cases hb : (c.tx p).param with
  | none => simp [hb] at h
  | some b =>
    simp only [hb, Except.ok.injEq] at h
    subst h
    refine ⟨by simpa [lane] using hpos, b, hb, setTx_rings (by rfl) hw, ?_, (setTx_lane (by rfl)).2⟩
    refine (setTx_lane (by rfl)).1.trans ?_
    simp [lane, Lane.next, hb]

/-- The lane after a block is announced with `ctl`. -/
def Lane.flush (L : Lane) (p : Party) (b : BlkParam) (ctl : ℕ) : Lane :=
  (L.next b).post (p.rdyMsg L.tx.blkWrIdx ctl)

/-- A flush does nothing or announces the current block. -/
theorem flushTxBlk_lane (hN : cfg.ctlQueCnt p = N) (hw : c.RingsOk N) {ctl : ℕ}
    (h : flushTxBlk cfg p ctl c = .ok c') :
    c'.RingsOk N ∧ c'.lane p.other N = c.lane p.other N ∧
      (((c.lane p N).tx.blkWrIdx = 0 ∧ ctl = 0 ∧ c'.lane p N = c.lane p N) ∨
        ((c.lane p N).tx.blkWrIdx ≠ 0 ∨ ctl ≠ 0) ∧ 0 < (c.lane p N).tx.blkAvailCnt ∧
          ∃ b, (c.lane p N).tx.param = some b ∧ c'.lane p N = (c.lane p N).flush p b ctl) := by
  simp only [flushTxBlk] at h
  split at h
  · rename_i h0
    cases h
    exact ⟨hw, rfl, .inl ⟨h0.1, h0.2, rfl⟩⟩
  · rename_i h0
    obtain ⟨c1, h1, h2⟩ := bind_ok.1 h
    obtain ⟨hpos, b, hb, hw1, hl1, ho1⟩ := nextTxBlk_lane hw h1
    obtain ⟨hw2, hl2, ho2⟩ := sendMsgInternal_lane hN hw1 h2
    refine ⟨hw2, ho2.trans ho1, .inr ⟨by simpa [lane, imp_iff_not_or] using h0, hpos, b, hb, ?_⟩⟩
    rw [hl2, hl1]
    rfl

theorem copyToBlk_lane (hw : c.RingsOk N) {rest chunk : List Qw}
    (h : copyToBlk p rest c = .ok (chunk, c')) :
    ∃ b, (c.lane p N).tx.param = some b ∧ chunk = rest.take (b.size - (c.lane p N).tx.blkWrIdx) ∧
      c'.RingsOk N ∧ c'.lane p N = (c.lane p N).write chunk ∧ c'.lane p.other N = c.lane p.other N := by
  simp only [copyToBlk] at h
  cases hb : (c.tx p).param with
  | none => simp [hb] at h
  | some b =>
    simp only [hb, Except.ok.injEq, Prod.mk.injEq] at h
    obtain ⟨rfl, rfl⟩ := h
    refine ⟨b, hb, rfl, RingsOk.intro (p := p) (by simpa [setTx] using hw p)
      (by simpa [setTx] using hw p.other), ?_, ?_⟩
    · simp [lane, live, setTx, Lane.write, hb]
    · simp [lane, live, setTx]

/-! ### Receiving -/

/-- `queMsg` takes the oldest message of the ring: a credit, or a message to queue. -/
theorem queMsg_lane (hN : cfg.ctlQueCnt p = N) (hw : c.RingsOk N) (h : queMsg cfg p c = some c') :
    ∃ m l, (c.lane p.other N).live = m :: l ∧ c'.RingsOk N ∧
      ((m.cmd = p.other.cmdAvl ∧ c'.lane p N = (c.lane p N).credit ∧
          c'.lane p.other N = (c.lane p.other N).fetch l) ∨
        (m.cmd ≠ p.other.cmdAvl ∧ c'.lane p N = c.lane p N ∧
          c'.lane p.other N = ((c.lane p.other N).fetch l).setQue ((c.lane p.other N).rx.msgQue ++ [m]))) := by
  simp only [queMsg, hN, slot_eq hN] at h
  cases hm : c.ring p.other ((c.rx p).ctlRdIdx % N) with
  | none => simp [hm] at h
  | some m =>
    simp only [hm] at h
    split at h
    · cases h
    have hwo := hw p.other
    rw [Party.other_other] at hwo
    obtain ⟨hwf, hlive⟩ := hwo.take hm (ctlQueCnt_pos hN)
    refine ⟨m, _, by simpa [lane, live] using hlive, ?_⟩
    split at h
    · rename_i hcmd
      cases h
      refine ⟨RingsOk.intro (p := p) (by simpa [setTx, setRx] using hw p)
        (by simpa [setTx, setRx] using hwf), .inl ⟨hcmd, ?_, ?_⟩⟩
      · simp [lane, live, setTx, setRx, Lane.credit]
      · simp [lane, live, setTx, setRx, Lane.fetch]
    · rename_i hcmd
      cases h
      refine ⟨RingsOk.intro (p := p) (by simpa [setRx] using hw p)
        (by simpa [setRx] using hwf), .inr ⟨hcmd, ?_, ?_⟩⟩
      · simp [lane, live, setRx]
      · simp [lane, live, setRx, Lane.fetch, Lane.setQue]

theorem nextMsgQue_lane (hw : c.RingsOk N) (h : nextMsgQue p c = .ok c') :
    ∃ m ms, (c.lane p.other N).rx.msgQue = m :: ms ∧ c'.RingsOk N ∧ c'.lane p N = c.lane p N ∧
      c'.lane p.other N = (c.lane p.other N).setQue ms := by
  simp only [nextMsgQue] at h
  cases hq : (c.rx p).msgQue with
  | nil => simp [hq] at h
  | cons m ms =>
    simp only [hq, Except.ok.injEq] at h
    subst h
    obtain ⟨h1, h2⟩ := setRx_lane (c := c) (p := p) (r := { c.rx p with msgQue := ms }) rfl
    exact ⟨m, ms, by simpa [lane] using hq, setRx_rings rfl hw, h1, by simpa [Lane.setQue, lane] using h2⟩

/-- **Finishing with a block** pops the message and sends the block back. -/
theorem finishBlk_lane (hN : cfg.ctlQueCnt p = N) (hw : c.RingsOk N) (h : finishBlk cfg p c = .ok c') :
    ∃ m ms b, (c.lane p.other N).rx.msgQue = m :: ms ∧ (c.lane p.other N).rx.param = some b ∧
      c'.RingsOk N ∧ c'.lane p N = (c.lane p N).post (p.avlMsg (c.lane p.other N).rx.blkIdx) ∧
      c'.lane p.other N = ((c.lane p.other N).setQue ms).nextRx b := by
  obtain ⟨c1, h1, h2⟩ := bind_ok.1 h
  obtain ⟨m, ms, hq, hw1, hl1, ho1⟩ := nextMsgQue_lane hw h1
  have hrx : ∀ d : Core, (d.lane p.other N).rx = d.rx p := by intro d; simp [lane]
  obtain ⟨c2, h3, h4⟩ := bind_ok.1 h2
  obtain ⟨hw2, hl2, ho2⟩ := sendMsgInternal_lane hN hw1 h3
  cases hb : (c2.rx p).param with
  | none => simp [hb] at h4
  | some b =>
    simp only [hb, Except.ok.injEq] at h4
    subst h4
    have hidx : (c1.rx p).blkIdx = (c.lane p.other N).rx.blkIdx := by
      rw [← hrx, ho1]; rfl
    refine ⟨m, ms, b, hq, ?_, setRx_rings (by rfl) hw2, ?_, ?_⟩
    · rw [← hb, ← hrx, ho2, ho1]; rfl
    · exact (setRx_lane (by rfl)).1.trans (by rw [hl2, hl1, hidx])
    · refine (setRx_lane (by rfl)).2.trans ?_
      rw [← hb, ← hrx c2, ho2, ho1]; rfl

theorem copyFromBlk_lane (hw : c.RingsOk N) (n : ℕ) :
    (copyFromBlk p n c).2.RingsOk N ∧
      (copyFromBlk p n c).1.length = min (c.lane p.other N).rx.blkDataSize n ∧
      (copyFromBlk p n c).2.lane p N = c.lane p N ∧
      (copyFromBlk p n c).2.lane p.other N =
        (c.lane p.other N).read (min (c.lane p.other N).rx.blkDataSize n) := by
  refine ⟨RingsOk.intro (p := p) ?_ ?_, ?_, ?_, ?_⟩
  · simpa [copyFromBlk, deliver, setRx] using hw p
  · simpa [copyFromBlk, deliver, setRx] using hw p.other
  · simp [copyFromBlk, lane]
  · simp [copyFromBlk, deliver, setRx, lane, live]
  · simp [copyFromBlk, deliver, setRx, lane, live, Lane.read]

end OpenHT.Host
