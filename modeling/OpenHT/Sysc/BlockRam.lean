import OpenHT.Sysc.Ram

/-!
# Reading a block RAM

The read address and the collision flag are signals, the array and the output register are not. A
cycle makes at most one read and one write and then calls both clocks, in either order.

* `HtBlockRam`: the write side with the read side beside it.
* `HtBlockRam.cycle`: one cycle with its clocks and the update of the signals.
* `committed`: the values a run of cycles has committed.
* `Clocked`: what a cycle leaves for the next one.
* `block_ram_read`: what a read returns, one cycle later and through the output register.
-/

namespace OpenHT.Sysc

structure HtBlockRam (T : Type) extends WrPort ℕ T where
  doReg : T
  bRdAddr : Bool
  rdAddr : ℕ
  rbRdAddr : ScSignal Bool
  rbRdAddr2 : Bool
  rRdAddr : ScSignal ℕ
  rbWrData : ScSignal Bool
  rWrAddr : ScSignal ℕ

/-- A cycle of the design: the index pair read, the index pair and value written, which clock is
called first, and the `bReset` both get. -/
structure RamCycle (T : Type) where
  rd : Option (ℕ × ℕ)
  wr : Option (ℕ × ℕ × T)
  bWriteFirst : Bool
  bReset : Bool

namespace HtBlockRam

variable {T : Type} (d : RamDims) (bad : T) (r : HtBlockRam T)

/-- The constructor; the other fields start with whatever they hold. -/
def init (mem : ℕ → T) (wrData doReg : T) (wrAddr rdAddr : ℕ) (rbRdAddr2 : Bool) : HtBlockRam T :=
  { WrPort.init mem wrData wrAddr with
    doReg := doReg, bRdAddr := false, rdAddr := rdAddr, rbRdAddr := ⟨true, true⟩
    rbRdAddr2 := rbRdAddr2, rRdAddr := ⟨0, 0⟩, rbWrData := ⟨false, false⟩, rWrAddr := ⟨0, 0⟩ }

def readAddr (rdIdx1 rdIdx2 : ℕ) : Except AssertFail (HtBlockRam T) := do
  htAssert (r.bReset || !r.bRdAddr)
  return { r with bRdAddr := true, rdAddr := d.addr rdIdx1 rdIdx2 }

/-- `write_addr`, then `write_mem(wrData)`. -/
def write (wrIdx1 wrIdx2 : ℕ) (wrData : T) : Except AssertFail (HtBlockRam T) := do
  let w ← (htBlockRam T d).writeAddr r.toWrPort 0 wrIdx1 wrIdx2
  let w ← (htBlockRam T d).writeMem w 0 wrData
  return { r with toWrPort := w }

/-- What the array shows for the registered address: bad data if it was written on the same edge. -/
def arrayOut : T :=
  if r.rbRdAddr.read && r.rbWrData.read && r.rRdAddr.read == r.rWrAddr.read then bad
  else r.mem r.rRdAddr.read

def readMem (bDoReg : Bool) : Except AssertFail T :=
  if r.bReset then .ok (r.mem 0)
  else do
    htAssert (if bDoReg then r.rbRdAddr2 else r.rbRdAddr.read)
    return if bDoReg then r.doReg else r.arrayOut bad

def readClock (bReset : Bool) : HtBlockRam T :=
  { r with
    bReset := bReset
    doReg := if !bReset && r.rbRdAddr.read then r.arrayOut bad else r.doReg
    rbRdAddr2 := r.rbRdAddr.read
    rbRdAddr := r.rbRdAddr.write r.bRdAddr
    bRdAddr := false
    rRdAddr := r.rRdAddr.write r.rdAddr }

def writeClock (bReset : Bool) : HtBlockRam T :=
  { r with
    toWrPort := r.toWrPort.close bReset
    rbWrData := r.rbWrData.write r.bWrData
    rWrAddr := r.rWrAddr.write r.wrAddr }

/-- The update phase. -/
def update : HtBlockRam T :=
  { r with rbRdAddr := r.rbRdAddr.update, rRdAddr := r.rRdAddr.update
           rbWrData := r.rbWrData.update, rWrAddr := r.rWrAddr.update }

/-- The two clock calls. -/
def clocks (bWriteFirst bReset : Bool) : HtBlockRam T :=
  if bWriteFirst then ((r.writeClock bReset).readClock bad bReset).update
  else ((r.readClock bad bReset).writeClock bReset).update

def cycle (c : RamCycle T) : Except AssertFail (HtBlockRam T) := do
  let r ← match c.rd with
    | some (i, j) => r.readAddr d i j
    | none => .ok r
  let r ← match c.wr with
    | some (i, j, v) => r.write d i j v
    | none => .ok r
  return r.clocks bad c.bWriteFirst c.bReset

def run (cs : List (RamCycle T)) : Except AssertFail (HtBlockRam T) :=
  cs.foldlM (fun r c => r.cycle d bad c) r

end HtBlockRam

/-! ## What has been committed -/

namespace RamCycle

variable {T : Type} (d : RamDims) (c : RamCycle T)

/-- The value the cycle writes to address `a`, if it does. -/
def wrAt (a : ℕ) : Option T :=
  match c.wr with
  | some (i, j, v) => if d.addr i j = a then some v else none
  | none => none

/-- The memory after the clock edge of the cycle: a write in reset is dropped. -/
def commit (mem : ℕ → T) : ℕ → T :=
  match c.wr with
  | some (i, j, v) => if c.bReset then mem else Function.update mem (d.addr i j) v
  | none => mem

variable {d c} in
theorem commit_apply (h : c.bReset = false) (mem : ℕ → T) (a : ℕ) :
    c.commit d mem a = (c.wrAt d a).getD (mem a) := by
  rcases c with ⟨rd, _ | ⟨k, l, v⟩, first, bReset⟩
  · rfl
  · have hb : bReset = false := h
    by_cases ha : d.addr k l = a
    · simp [commit, wrAt, hb, ← ha]
    · simp [commit, wrAt, hb, ha, Function.update_of_ne (Ne.symm ha)]

end RamCycle

/-- The memory after the edges of `cs`: at each address the last value committed there. -/
def committed {T : Type} (d : RamDims) (mem : ℕ → T) (cs : List (RamCycle T)) : ℕ → T :=
  cs.foldl (fun m c => c.commit d m) mem

namespace HtBlockRam

variable {T : Type} {d : RamDims} {bad : T} {r : HtBlockRam T} {c : RamCycle T}

/-- Between two cycles: nothing is pending on either side. -/
structure Idle (r : HtBlockRam T) : Prop where
  wr : r.toWrPort.Idle
  rd : r.bRdAddr = false

/-- What the cycle `c` leaves, `r` being the RAM before it. -/
structure Clocked (d : RamDims) (bad : T) (r : HtBlockRam T) (c : RamCycle T) (r' : HtBlockRam T) :
    Prop where
  idle : r'.Idle
  bReset : r'.bReset = c.bReset
  mem : r'.mem = c.commit d r.mem
  rbRdAddr : r'.rbRdAddr.read = c.rd.isSome
  rRdAddr : ∀ i j, c.rd = some (i, j) → r'.rRdAddr.read = d.addr i j
  collides : ∀ a, (r'.rbWrData.read && a == r'.rWrAddr.read) = (c.wrAt d a).isSome
  rbRdAddr2 : r'.rbRdAddr2 = r.rbRdAddr.read
  doReg : c.bReset = false → r.rbRdAddr.read = true → r'.doReg =
    if r.rbWrData.read && r.rRdAddr.read == r.rWrAddr.read then bad
    else if c.bWriteFirst then c.commit d r.mem r.rRdAddr.read else r.mem r.rRdAddr.read

/-- The clocks of a port with read address `rdAddr` and write `wrData` at `wrAddr` pending. -/
theorem clocks_mem (bWriteFirst bReset : Bool) :
    (r.clocks bad bWriteFirst bReset).mem = r.commit bReset := by
  unfold clocks
  cases bWriteFirst <;> rfl

theorem clocks_doReg {bWriteFirst : Bool} (h : r.rbRdAddr.read = true) :
    (r.clocks bad bWriteFirst false).doReg =
      if r.rbWrData.read && r.rRdAddr.read == r.rWrAddr.read then bad
      else if bWriteFirst then r.commit false r.rRdAddr.read else r.mem r.rRdAddr.read := by
  unfold clocks
  cases bWriteFirst with
  | false => simp [update, writeClock, readClock, arrayOut, h]
  | true =>
    have hw : (r.writeClock false).rbRdAddr.read = true := h
    simp only [if_true, update, readClock, Bool.not_false, Bool.true_and, hw, arrayOut]
    rfl

/-- The read and the write of a cycle, pending. -/
def pend (d : RamDims) (r : HtBlockRam T) (c : RamCycle T) : HtBlockRam T :=
  { r with
    toWrPort := match c.wr with
      | some (i, j, v) => { r.toWrPort with wrAddr := d.addr i j, wrData := v, bWrAddr := true, bWrData := true }
      | none => r.toWrPort
    bRdAddr := c.rd.isSome
    rdAddr := match c.rd with
      | some (i, j) => d.addr i j
      | none => r.rdAddr }

/-- A cycle from an idle RAM stops at no assertion. -/
theorem cycle_eq (h : r.Idle) :
    r.cycle d bad c = .ok ((pend d r c).clocks bad c.bWriteFirst c.bReset) := by
  have hread : ∀ i j, r.readAddr d i j = .ok { r with bRdAddr := true, rdAddr := d.addr i j } := by
    intro i j
    simp [readAddr, h.rd, bind, Except.bind, pure, Except.pure]
  have hwrite : ∀ (q : HtBlockRam T) i j v, q.toWrPort = r.toWrPort → q.write d i j v =
      .ok { q with toWrPort :=
        { r.toWrPort with wrAddr := d.addr i j, wrData := v, bWrAddr := true, bWrData := true } } := by
    intro q i j v hq
    simp [write, hq, OpenHT.Sysc.htBlockRam, h.wr.1, bind, Except.bind, pure, Except.pure]
  have hrd := h.rd
  rcases c with ⟨_ | ⟨i, j⟩, _ | ⟨k, l, v⟩, first, bReset⟩
  · simp only [cycle, pend, Option.isSome_none, ← hrd]
    rfl
  · simp only [cycle, pend, Option.isSome_none, ← hrd, bind, Except.bind]
    rw [hwrite r k l v rfl]
    rfl
  · simp only [cycle, pend, Option.isSome_some, hread]
    rfl
  · simp only [cycle, pend, Option.isSome_some, hread, bind, Except.bind]
    rw [hwrite { r with bRdAddr := true, rdAddr := d.addr i j } k l v rfl]
    rfl

theorem pend_commit (h : r.Idle) : (pend d r c).commit c.bReset = c.commit d r.mem := by
  have hw := h.wr.2
  rcases c with ⟨rd, _ | ⟨k, l, v⟩, first, _ | _⟩ <;>
    simp [pend, WrPort.commit, RamCycle.commit, hw]

/-- **One cycle.** -/
theorem cycle_clocked (d : RamDims) (bad : T) (c : RamCycle T) (h : r.Idle) :
    ∃ r', r.cycle d bad c = .ok r' ∧ Clocked d bad r c r' := by
  have hproj : ∀ q : HtBlockRam T, (q.clocks bad c.bWriteFirst c.bReset).Idle ∧
      (q.clocks bad c.bWriteFirst c.bReset).bReset = c.bReset ∧
      (q.clocks bad c.bWriteFirst c.bReset).rbRdAddr.read = q.bRdAddr ∧
      (q.clocks bad c.bWriteFirst c.bReset).rRdAddr.read = q.rdAddr ∧
      (q.clocks bad c.bWriteFirst c.bReset).rbWrData.read = q.bWrData ∧
      (q.clocks bad c.bWriteFirst c.bReset).rWrAddr.read = q.wrAddr ∧
      (q.clocks bad c.bWriteFirst c.bReset).rbRdAddr2 = q.rbRdAddr.read := by
    intro q
    unfold clocks
    cases c.bWriteFirst <;> exact ⟨⟨⟨rfl, rfl⟩, rfl⟩, rfl, rfl, rfl, rfl, rfl, rfl⟩
  obtain ⟨h1, h2, h3, h4, h5, h6, h7⟩ := hproj (pend d r c)
  have hcommit := pend_commit (d := d) (c := c) h
  refine ⟨_, cycle_eq h, h1, h2, ?_, ?_, ?_, ?_, ?_, ?_⟩
  · rw [clocks_mem, hcommit]
  · rw [h3]
    rfl
  · intro i j hc
    rw [h4]
    simp [pend, hc]
  · intro a
    rw [h5, h6]
    have hw := h.wr.2
    rcases c with ⟨rd, _ | ⟨k, l, v⟩, first, bReset⟩
    · simp [pend, RamCycle.wrAt, hw]
    · by_cases ha : d.addr k l = a
      · simp [pend, RamCycle.wrAt, ha]
      · simp [pend, RamCycle.wrAt, ha, Ne.symm ha]
  · rw [h7]
    rfl
  · intro hreset hrd
    have hrd' : (pend d r c).rbRdAddr.read = true := hrd
    rw [hreset] at hcommit
    rw [hreset, clocks_doReg hrd', hcommit]
    have hmem : (pend d r c).mem = r.mem := by
      unfold pend
      cases c.wr <;> rfl
    rw [hmem]
    rfl

/-- **Runs.** The memory of an idle RAM after a run holds the committed values. -/
theorem run_mem (d : RamDims) (bad : T) (cs : List (RamCycle T)) (h : r.Idle) :
    ∃ r', r.run d bad cs = .ok r' ∧ r'.Idle ∧ r'.mem = committed d r.mem cs := by
  induction cs generalizing r with
  | nil => exact ⟨r, rfl, h, rfl⟩
  | cons c cs ih =>
    obtain ⟨r1, h1, hc⟩ := cycle_clocked d bad c h
    obtain ⟨r2, h2, hi, hm⟩ := ih hc.idle
    refine ⟨r2, ?_, hi, ?_⟩
    · unfold run
      rw [List.foldlM_cons, h1]
      exact h2
    · rw [hm, hc.mem]
      rfl

theorem run_append (cs ds : List (RamCycle T)) {r' : HtBlockRam T} (h : r.run d bad cs = .ok r') :
    r.run d bad (cs ++ ds) = r'.run d bad ds := by
  unfold run at h ⊢
  rw [List.foldlM_append, h]
  rfl

end HtBlockRam

open HtBlockRam

/-- What a read of address `a` in cycle `c` after the cycles `pre` should return: the last value
committed to `a`, or bad data if `c` writes `a` as well. -/
def readValue {T : Type} (d : RamDims) (bad : T) (mem : ℕ → T) (pre : List (RamCycle T)) (c : RamCycle T)
    (a : ℕ) : T :=
  if (c.wrAt d a).isSome then bad else committed d mem pre a

/-- **Block RAM read latency.** After any run of cycles `pre`, for a read of `a` in cycle `c`: without
the output register the next cycle reads `readValue`. With it, the cycle after `c'` does so unless
`c'` calls `write_clock` first and writes `a`, without a collision in `c`, another value. -/
theorem block_ram_read {T : Type} (d : RamDims) (bad : T) (mem : ℕ → T) (wrData doReg : T)
    (wrAddr rdAddr : ℕ) (rbRdAddr2 : Bool) (pre : List (RamCycle T)) (c : RamCycle T) (i j : ℕ)
    (hc : c.rd = some (i, j)) (hreset : c.bReset = false) :
    (∃ r, (init mem wrData doReg wrAddr rdAddr rbRdAddr2).run d bad (pre ++ [c]) = .ok r ∧
      r.readMem bad false = .ok (readValue d bad mem pre c (d.addr i j))) ∧
    ∀ c' : RamCycle T, c'.bReset = false →
      ∃ r v, (init mem wrData doReg wrAddr rdAddr rbRdAddr2).run d bad (pre ++ [c, c']) = .ok r ∧
        r.readMem bad true = .ok v ∧
        (v = readValue d bad mem pre c (d.addr i j) ↔
          c'.bWriteFirst = false ∨ (c.wrAt d (d.addr i j)).isSome ∨
            ∀ w, c'.wrAt d (d.addr i j) = some w → w = committed d mem pre (d.addr i j)) := by
  obtain ⟨r0, h0, hi0, hm0⟩ := run_mem d bad pre
    (r := init mem wrData doReg wrAddr rdAddr rbRdAddr2) ⟨⟨rfl, rfl⟩, rfl⟩
  have hm0' : r0.mem = committed d mem pre := hm0
  obtain ⟨r1, h1, hc1⟩ := cycle_clocked d bad c hi0
  have hrd1 : r1.rbRdAddr.read = true := by
    rw [hc1.rbRdAddr, hc]
    rfl
  have haddr := hc1.rRdAddr i j hc
  have hcoll := hc1.collides (d.addr i j)
  -- without a collision the edge of `c` leaves entry `a` alone
  have hkeep : (c.wrAt d (d.addr i j)).isSome = false → r1.mem (d.addr i j) = committed d mem pre (d.addr i j) := by
    intro hno
    rw [Option.isSome_eq_false_iff, Option.isNone_iff_eq_none] at hno
    rw [hc1.mem, hm0', RamCycle.commit_apply hreset, hno]
    rfl
  constructor
  · refine ⟨r1, ?_, ?_⟩
    · rw [run_append pre [c] h0]
      unfold run
      rw [List.foldlM_cons, h1]
      rfl
    · unfold readMem arrayOut readValue
      rw [hc1.bReset, hreset]
      simp only [hrd1, haddr, hcoll, Bool.true_and, Bool.false_eq_true, if_false, htAssert_true]
      by_cases hcol : (c.wrAt d (d.addr i j)).isSome = true
      · rw [if_pos hcol, if_pos hcol]
        rfl
      · rw [if_neg hcol, if_neg hcol, hkeep (by simpa using hcol)]
        rfl
  · intro c' hreset'
    obtain ⟨r2, h2, hc2⟩ := cycle_clocked d bad c' hc1.idle
    refine ⟨r2, r2.doReg, ?_, ?_, ?_⟩
    · rw [run_append pre [c, c'] h0]
      unfold run
      rw [List.foldlM_cons, h1]
      show (r1.run d bad [c'] : Except AssertFail (HtBlockRam T)) = _
      unfold run
      rw [List.foldlM_cons, h2]
      rfl
    · unfold readMem
      rw [hc2.bReset, hreset', hc2.rbRdAddr2, hrd1]
      rfl
    · rw [hc2.doReg hreset' hrd1, haddr, hcoll]
      unfold readValue
      by_cases hcol : (c.wrAt d (d.addr i j)).isSome = true
      · simp [hcol]
      · have hk := hkeep (by simpa using hcol)
        rw [if_neg hcol, if_neg hcol]
        by_cases hfirst : c'.bWriteFirst = true
        · rw [if_pos hfirst]
          -- the output register takes what the edge of `c'` has just committed
          have hval : c'.commit d r1.mem (d.addr i j) =
              (c'.wrAt d (d.addr i j)).getD (committed d mem pre (d.addr i j)) := by
            rw [RamCycle.commit_apply hreset', hk]
          rw [hval]
          cases hw : c'.wrAt d (d.addr i j) with
          | none => simp
          | some w => simp [hfirst, hcol]
        · rw [if_neg hfirst, hk]
          simp [hfirst]

/-- A cycle of the examples: a read of entry 3, and a cycle that writes 7 to it. -/
def readThree : RamCycle ℕ := ⟨some (3, 0), none, false, false⟩

def writeThree (bWriteFirst : Bool) : RamCycle ℕ := ⟨none, some (3, 0, 7), bWriteFirst, false⟩

theorem block_ram_read_demo :
    (∃ r, (init (fun _ => 0) 0 0 0 0 false).run ⟨2, 0, 0⟩ 99 ([] ++ [readThree]) = .ok r ∧
      r.readMem 99 false = .ok 0) ∧
    ∃ r v, (init (fun _ => 0) 0 0 0 0 false).run ⟨2, 0, 0⟩ 99 ([] ++ [readThree, writeThree false]) = .ok r ∧
      r.readMem 99 true = .ok v ∧ v = 0 := by
  have h := block_ram_read ⟨2, 0, 0⟩ 99 (fun _ => 0) 0 0 0 0 false [] readThree 3 0 rfl rfl
  refine ⟨h.1, ?_⟩
  obtain ⟨r, v, h1, h2, h3⟩ := h.2 (writeThree false) rfl
  exact ⟨r, v, h1, h2, h3.2 (.inl rfl)⟩

/-- **The order of the clocks shows.** Entry 3 holds 0 when it is read; with the output register and
`write_clock` called first the read returns the 7 that the edge after commits. -/
theorem write_first_read :
    committed ⟨2, 0, 0⟩ (fun _ => 0) [] 3 = 0 ∧
    ∃ r, (init (fun _ => 0) 0 0 0 0 false).run ⟨2, 0, 0⟩ 99 [readThree, writeThree true] = .ok r ∧
      r.readMem 99 true = .ok 7 :=
  ⟨rfl, _, rfl, rfl⟩

end OpenHT.Sysc
