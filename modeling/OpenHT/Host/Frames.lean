import OpenHT.Host.Credit
import OpenHT.Lib.Transducer

/-!
# What the messages of a lane stand for

The messages of a direction form frames: a data block, a marker, the halt, a user message,
a call without arguments, or a call message followed by the block of its arguments. A
block-ready message carries no block number: the `i`-th one is for the `i`-th block.

* `frames`: the transducer from messages to `Ref`s (items, with the data still in blocks).
* `Ref.items_write`: filling the current block does not change announced data.
* `pend`: the messages of a lane, queued or in the ring, without returned blocks.
-/

namespace OpenHT.Host

open Host.Core

/-- An item whose data is still in block `i`. -/
inductive Ref
  | data (i n : ℕ)
  | args (i n : ℕ)
  | item (x : Item)

/-- The items of a reference, `blk i n` being the first `n` quadwords of block `i`. -/
def Ref.items (blk : ℕ → ℕ → List Qw) : Ref → List Item
  | data i n => (blk i n).map .qw
  | args i n => [.call (blk i n)]
  | item x => [x]

/-- Where a receiver of frames is: the count of a call whose arguments come next, and the
number of the next block. -/
structure FrameSt where
  hdr : Option ℕ
  idx : ℕ

/-- The frame transducer of the messages of `p`, for blocks of `size` quadwords. -/
def frames (p : Party) (size : ℕ) : Transducer FrameSt CtrlMsg Ref where
  next s m :=
    if m.cmd = p.cmdRdy then
      ⟨if s.hdr = none ∧ m.dq = hifDqCall ∧ 0 < m.cnt then some m.cnt else none, s.idx + 1⟩
    else s
  out s m :=
    if m.cmd = p.cmdRdy then
      match s.hdr with
      | some n => [.args s.idx n]
      | none =>
        if m.dq = 0 then [.data s.idx m.cnt]
        else if m.dq = hifDqNull then [.item .marker]
        else if m.dq = hifDqHalt then [.item .halt]
        else if m.cnt = 0 then [.item (.call [])]
        else []
    else match m.cmd with
      | .user _ => [.item (.msg m.msgType.toNat m.data)]
      | _ => []
  ok s m :=
    if m.cmd = p.cmdRdy then
      match s.hdr with
      | some n => m.dq = 0 ∧ m.cnt = n ∧ n < size
      | none => (m.dq = 0 ∧ 0 < m.cnt ∧ m.cnt ≤ size) ∨ m.dq = hifDqNull ∨ m.dq = hifDqHalt ∨
          (m.dq = hifDqCall ∧ m.cnt < size)
    else s.hdr = none ∧ (m.cmd.isSetup ∨ ∃ ty, m.cmd = .user ty)

section Frames

variable {p : Party} {size n : ℕ} {s s' : FrameSt} {m : CtrlMsg} {l : List CtrlMsg}

/-- Every block-ready message is for the next block. -/
theorem frames_idx (h : (frames p size).Path s l s') :
    s'.idx = s.idx + l.countP (·.cmd = p.cmdRdy) := by
  induction l generalizing s with
  | nil => cases h; rfl
  | cons m l ih =>
    have := ih h.2
    by_cases hm : m.cmd = p.cmdRdy
    · simp only [frames, hm, if_true] at this
      simp only [List.countP_cons, hm, decide_true, if_true]
      omega
    · simp only [frames, hm, if_false] at this
      simp only [List.countP_cons, hm, decide_false, Bool.false_eq_true, if_false]
      omega

/-- The blocks and counts of the references of a legal run. -/
theorem frames_refs (h : (frames p size).Path s l s') : ∀ r ∈ (frames p size).output s l,
    ∀ i n, r = .data i n ∨ r = .args i n →
      s.idx ≤ i ∧ i < s.idx + l.countP (·.cmd = p.cmdRdy) ∧ n ≤ size := by
  induction l generalizing s with
  | nil => intro r hr; cases hr
  | cons m l ih =>
    intro r hr i n hi
    rw [Transducer.output_cons, List.mem_append] at hr
    rcases hr with hr | hr
    · have hok := h.1
      by_cases hm : m.cmd = p.cmdRdy
      · simp only [List.countP_cons, hm, decide_true, if_true]
        simp only [frames, hm, if_true] at hr hok
        cases hh : s.hdr with
        | some k =>
          rw [hh] at hr hok
          simp only [List.mem_singleton] at hr
          subst hr
          simp only [reduceCtorEq, Ref.args.injEq, false_or] at hi
          obtain ⟨rfl, rfl⟩ := hi
          exact ⟨le_rfl, by omega, hok.2.2.le⟩
        | none =>
          rw [hh] at hr hok
          simp only at hr hok
          split_ifs at hr with h1 h2 h3 h4 <;> simp only [List.mem_singleton, List.not_mem_nil] at hr
          · subst hr
            simp only [Ref.data.injEq, reduceCtorEq, or_false] at hi
            obtain ⟨rfl, rfl⟩ := hi
            rcases hok with hok | hok | hok | hok
            · exact ⟨le_rfl, by omega, hok.2.2⟩
            · exact absurd (h1.symm.trans hok) (by decide)
            · exact absurd (h1.symm.trans hok) (by decide)
            · exact absurd (h1.symm.trans hok.1) (by decide)
          all_goals
            subst hr
            simp at hi
      · simp only [frames, hm, if_false] at hr
        split at hr
        · simp only [List.mem_singleton] at hr
          subst hr
          simp at hi
        · cases hr
    · have h1 := ih h.2 r hr i n hi
      have hstep : (frames p size).Path s [m] ((frames p size).next s m) := ⟨h.1, rfl⟩
      have h2 := frames_idx hstep
      simp only [List.countP_cons, List.countP_nil] at h1 h2 ⊢
      omega

end Frames

/-! ### The blocks of a direction -/

/-- The start of block `i` of the blocks written by `p`. -/
def Cfg.addr (cfg : Cfg) (p : Party) (i : ℕ) : ℕ := (cfg.blkParam p).addr (cfg.blkBase p) i

/-- The first `n` quadwords of block `i`. -/
def Lane.blk (cfg : Cfg) (p : Party) (L : Lane) (i n : ℕ) : List Qw := L.mem.read (cfg.addr p i) n

section Blocks

variable (cfg : Cfg) (p : Party)

theorem addr_eq (i : ℕ) : cfg.addr p i = cfg.blkBase p + i % cfg.blkCnt p * cfg.blkSize p := by
  rw [← mask_eq]
  rfl

theorem addr_zero : cfg.addr p 0 = cfg.blkBase p := by simp [addr_eq]

variable {cfg p}

/-- Different blocks do not overlap. -/
theorem addr_disjoint {i j n k : ℕ} (hne : i % cfg.blkCnt p ≠ j % cfg.blkCnt p)
    (hn : n ≤ cfg.blkSize p) (hk : k ≤ cfg.blkSize p) :
    cfg.addr p i + n ≤ cfg.addr p j ∨ cfg.addr p j + k ≤ cfg.addr p i := by
  rw [addr_eq, addr_eq]
  rcases Nat.lt_or_gt_of_ne hne with h | h
  · have := Nat.mul_le_mul_right (cfg.blkSize p) (Nat.succ_le_of_lt h)
    rw [Nat.succ_mul] at this
    omega
  · have := Nat.mul_le_mul_right (cfg.blkSize p) (Nat.succ_le_of_lt h)
    rw [Nat.succ_mul] at this
    omega

variable {L L' : Lane} {j w : ℕ} {chunk : List Qw}

/-- Filling block `j` leaves the others alone. -/
theorem blk_write {i n : ℕ} (hm : L'.mem = L.mem.write (cfg.addr p j + w) chunk)
    (hw : w + chunk.length ≤ cfg.blkSize p) (hne : i % cfg.blkCnt p ≠ j % cfg.blkCnt p)
    (hn : n ≤ cfg.blkSize p) : L'.blk cfg p i n = L.blk cfg p i n := by
  rw [Lane.blk, Lane.blk, hm]
  apply Mem.read_write_disjoint
  rcases addr_disjoint hne hn hw with h | h
  · exact .inl (by omega)
  · exact .inr (by omega)

/-- Filling block `j` appends to what is in it. -/
theorem blk_write_self (hm : L'.mem = L.mem.write (cfg.addr p j + w) chunk) :
    L'.blk cfg p j (w + chunk.length) = L.blk cfg p j w ++ chunk := by
  rw [Lane.blk, Lane.blk, hm, Mem.read_write_append]

/-- **Filling the current block does not change announced data.** -/
theorem items_write {size : ℕ} {s s' : FrameSt} {l : List CtrlMsg}
    (h : (frames p size).Path s l s') (hsize : size ≤ cfg.blkSize p)
    (hj : s'.idx ≤ j) (hcnt : j < s.idx + cfg.blkCnt p)
    (hm : L'.mem = L.mem.write (cfg.addr p j + w) chunk) (hw : w + chunk.length ≤ cfg.blkSize p) :
    ((frames p size).output s l).flatMap (Ref.items (L'.blk cfg p)) =
      ((frames p size).output s l).flatMap (Ref.items (L.blk cfg p)) := by
  have hidx := frames_idx h
  have hblk : ∀ r ∈ (frames p size).output s l, ∀ i n, r = .data i n ∨ r = .args i n →
      L'.blk cfg p i n = L.blk cfg p i n := by
    intro r hr i n hi
    obtain ⟨h1, h2, h3⟩ := frames_refs h r hr i n hi
    refine blk_write hm hw ?_ (h3.trans hsize)
    intro hmod
    have := Ring.window_inj h1 (show s.idx ≤ j by omega) (by omega) hcnt hmod
    omega
  rw [List.flatMap_def, List.flatMap_def]
  congr 1
  apply List.map_congr_left
  intro r hr
  cases r with
  | data i n => rw [Ref.items, Ref.items, hblk _ hr i n (.inl rfl)]
  | args i n => rw [Ref.items, Ref.items, hblk _ hr i n (.inr rfl)]
  | item x => rfl

end Blocks

/-! ### The messages of a lane -/

/-- The messages of `p` on their way, without the blocks it gives back. -/
def Lane.pend (L : Lane) (p : Party) : List CtrlMsg :=
  L.rx.msgQue ++ L.live.filter (fun m => m.cmd ≠ p.cmdAvl)

section Pend

variable {L L' : Lane} {p : Party} {m : CtrlMsg} {l : List CtrlMsg}

theorem rdys_eq (L : Lane) (p : Party) : L.rdys p = (L.pend p).countP (·.cmd = p.cmdRdy) := by
  rw [Lane.rdys, Lane.pend, List.countP_append, List.countP_append, List.countP_filter]
  congr 1
  apply List.countP_congr
  intro m _
  by_cases hm : m.cmd = p.cmdRdy
  · simp [hm]
  · simp [hm]

/-- One more message in the ring. -/
theorem pend_snoc (hm : m.cmd ≠ p.cmdAvl) (hrx : L'.rx.msgQue = L.rx.msgQue) (hl : L'.live = L.live ++ [m]) :
    L'.pend p = L.pend p ++ [m] := by
  simp [Lane.pend, hrx, hl, List.filter_append, hm]

theorem pend_post_avl (L : Lane) (i : ℕ) : (L.post (p.avlMsg i)).pend p = L.pend p := by
  simp [Lane.pend, Lane.post, List.filter_append]

theorem pend_congr (hq : L'.rx.msgQue = L.rx.msgQue) (hl : L'.live = L.live) :
    L'.pend p = L.pend p := by
  rw [Lane.pend, Lane.pend, hq, hl]

/-- Popping the front of the local queue. -/
theorem pend_pop (h : L.rx.msgQue = m :: l) (hq : L'.rx.msgQue = l) (hl : L'.live = L.live) :
    L.pend p = m :: L'.pend p := by
  rw [Lane.pend, Lane.pend, h, hq, hl, List.cons_append]

theorem pend_fetch (h : L.live = m :: l) (hm : m.cmd = p.cmdAvl) : (L.fetch l).pend p = L.pend p := by
  simp [Lane.pend, Lane.fetch, h, hm]

theorem pend_que (h : L.live = m :: l) (hm : m.cmd ≠ p.cmdAvl) :
    ((L.fetch l).setQue (L.rx.msgQue ++ [m])).pend p = L.pend p := by
  simp [Lane.pend, Lane.fetch, Lane.setQue, h, hm]

end Pend

end OpenHT.Host
