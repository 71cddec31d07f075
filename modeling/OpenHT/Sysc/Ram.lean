import Mathlib.Algebra.Group.Nat.Defs
import Mathlib.Logic.Function.Basic
import OpenHT.Lib.Lts
import OpenHT.Sysc.Signal

/-!
# The write side of the RAM models

A cycle of a write port is `write_addr`, then `write_mem` in one of two forms (a value, or a
reference to the entry for a field write), then `write_clock`.

* `WrPort`: the fields of the write side. `K` names the entries, `E` is what an entry holds.
* `htDistRam`, `htBlockRam`, `htMrdBlockRam`, `htMwrBlockRam`: the four classes.
* `RamOps.cycle`: the calls of a cycle and its clock.
* `Opened.calls`: what a port holds after `write_addr` and edits through the reference.
* `ref_write_commits`: when the clock commits them.
-/

namespace OpenHT.Sysc

/-- `AW1`, `AW2` and the select width `SW`. -/
structure RamDims where
  aw1 : ℕ
  aw2 : ℕ
  sw : ℕ

/-- The masked address of an index pair. -/
def RamDims.addr (d : RamDims) (wrIdx1 wrIdx2 : ℕ) : ℕ :=
  ((wrIdx1 + wrIdx2 <<< d.aw1) % 2 ^ 64) &&& (2 ^ d.aw1 * 2 ^ d.aw2 - 1)

structure WrPort (K E : Type) where
  mem : K → E
  bReset : Bool
  bWrAddr : Bool
  bWrData : Bool
  wrData : E
  wrAddr : K

/-- A port as its constructor leaves it. -/
def WrPort.init {K E : Type} (mem : K → E) (wrData : E) (wrAddr : K) : WrPort K E :=
  ⟨mem, true, false, false, wrData, wrAddr⟩

/-- The calls of a cycle: `write_mem()` with the edit made through its reference, `write_mem(v)`
with its select where the class has one, and the clock of the read side. -/
inductive RamCall (E T : Type)
  | writeAddr (wrSel wrIdx1 wrIdx2 : ℕ)
  | writeMemRef (f : E → E)
  | writeMem (wrSel : ℕ) (wrData : T)
  | readClock (bReset : Bool)

/-- The methods of a RAM class. -/
structure RamOps (K E T : Type) where
  key : (wrSel wrIdx1 wrIdx2 : ℕ) → K
  writeAddr : WrPort K E → (wrSel wrIdx1 wrIdx2 : ℕ) → Except AssertFail (WrPort K E)
  writeMemRef : WrPort K E → (E → E) → Except AssertFail (WrPort K E)
  writeMem : WrPort K E → (wrSel : ℕ) → T → Except AssertFail (WrPort K E)
  writeClock : WrPort K E → (bReset : Bool) → Except AssertFail (WrPort K E)

namespace WrPort

variable {K E : Type} (r : WrPort K E)

/-- `m_wrData` after `write_addr`: the entry is loaded once a cycle, entry `origin` in reset. -/
def load (origin k : K) : E :=
  if r.bWrAddr then r.wrData else r.mem (if r.bReset then origin else k)

/-- The commit of `write_clock`. -/
def commit [DecidableEq K] (bReset : Bool) : K → E :=
  if !bReset && r.bWrData then Function.update r.mem r.wrAddr r.wrData else r.mem

/-- The end of `write_clock`. -/
def close [DecidableEq K] (bReset : Bool) : WrPort K E :=
  { r with bReset := bReset, mem := r.commit bReset, bWrData := false, bWrAddr := false }

/-- `read_clock`, as far as the write side sees it. -/
def readClock (bReset : Bool) : WrPort K E := { r with bReset := bReset }

end WrPort

variable {T : Type}

/-- `ht_dist_ram`: both forms of `write_mem` set the flag. -/
def htDistRam (T : Type) (d : RamDims) : RamOps ℕ T T where
  key _ wrIdx1 wrIdx2 := d.addr wrIdx1 wrIdx2
  writeAddr r _ wrIdx1 wrIdx2 := do
    htAssert (r.bReset || !r.bWrAddr || r.wrAddr == d.addr wrIdx1 wrIdx2)
    return { r with wrAddr := d.addr wrIdx1 wrIdx2, wrData := r.load 0 (d.addr wrIdx1 wrIdx2), bWrAddr := true }
  writeMemRef r f := .ok { r with bWrData := true, wrData := f r.wrData }
  writeMem r _ wrData := .ok { r with bWrData := true, wrData := wrData }
  writeClock r bReset := do
    if !bReset && r.bWrData then htAssert r.bWrAddr
    return r.close bReset

/-- `ht_block_ram`: `write_mem()` only returns the reference. -/
def htBlockRam (T : Type) (d : RamDims) : RamOps ℕ T T where
  key _ wrIdx1 wrIdx2 := d.addr wrIdx1 wrIdx2
  writeAddr r _ wrIdx1 wrIdx2 := do
    htAssert (r.bReset || !r.bWrAddr || r.wrAddr == d.addr wrIdx1 wrIdx2)
    return { r with wrAddr := d.addr wrIdx1 wrIdx2, wrData := r.load 0 (d.addr wrIdx1 wrIdx2), bWrAddr := true }
  writeMemRef r f := do
    htAssert r.bWrAddr
    return { r with wrData := f r.wrData }
  writeMem r _ wrData := do
    htAssert (r.bReset || r.bWrAddr)
    return { r with bWrData := true, wrData := wrData }
  writeClock r bReset := .ok (r.close bReset)

/-- `ht_mrd_block_ram`: an entry is a select of a row; the address check leaves the select out. -/
def htMrdBlockRam (T : Type) (d : RamDims) : RamOps (ℕ × ℕ) T T where
  key wrSel wrIdx1 wrIdx2 := (d.addr wrIdx1 wrIdx2, wrSel)
  writeAddr r wrSel wrIdx1 wrIdx2 := do
    htAssert (wrSel < 2 ^ d.sw)
    htAssert (r.bReset || !r.bWrAddr || r.wrAddr.1 == d.addr wrIdx1 wrIdx2)
    return { r with
      wrAddr := (d.addr wrIdx1 wrIdx2, wrSel)
      wrData := r.load (0, 0) (d.addr wrIdx1 wrIdx2, wrSel)
      bWrAddr := true }
  writeMemRef r f := do
    htAssert r.bWrAddr
    return { r with wrData := f r.wrData }
  writeMem r _ wrData := do
    htAssert (r.bReset || r.bWrAddr)
    return { r with bWrData := true, wrData := wrData }
  writeClock r bReset := .ok (r.close bReset)

/-- `ht_mwr_block_ram`: an entry is a row, which `write_addr` clears. Its `write_mem()` is declared
to return a `T &` and names the whole row. -/
def htMwrBlockRam (T : Type) [Zero T] (d : RamDims) : RamOps ℕ (ℕ → T) T where
  key _ wrIdx1 wrIdx2 := d.addr wrIdx1 wrIdx2
  writeAddr r _ wrIdx1 wrIdx2 := do
    htAssert (r.bReset || !r.bWrAddr || r.wrAddr == d.addr wrIdx1 wrIdx2)
    return { r with wrAddr := d.addr wrIdx1 wrIdx2, wrData := fun _ => 0, bWrAddr := true }
  writeMemRef r f := do
    htAssert r.bWrAddr
    return { r with wrData := f r.wrData }
  writeMem r wrSel wrData := do
    htAssert (r.bReset || wrSel < 2 ^ d.sw)
    htAssert (r.bReset || r.bWrAddr)
    return { r with
      bWrData := true
      wrData := Function.update r.wrData (if r.bReset then 0 else wrSel) wrData }
  writeClock r bReset := .ok (r.close bReset)

namespace RamOps

variable {K E : Type} (ops : RamOps K E T)

def call (r : WrPort K E) : RamCall E T → Except AssertFail (WrPort K E)
  | .writeAddr wrSel wrIdx1 wrIdx2 => ops.writeAddr r wrSel wrIdx1 wrIdx2
  | .writeMemRef f => ops.writeMemRef r f
  | .writeMem wrSel wrData => ops.writeMem r wrSel wrData
  | .readClock bReset => .ok (r.readClock bReset)

/-- A cycle: some calls, then `write_clock`. -/
def cycle (r : WrPort K E) (c : List (RamCall E T) × Bool) : Except AssertFail (WrPort K E) := do
  let r ← c.1.foldlM ops.call r
  ops.writeClock r c.2

/-- A run of cycles. -/
def run (r : WrPort K E) (cs : List (List (RamCall E T) × Bool)) : Except AssertFail (WrPort K E) :=
  cs.foldlM ops.cycle r

end RamOps

/-! ## Cycles that write through the reference -/

variable {K E : Type}

/-- What a call does to the value behind the reference. -/
def RamCall.edit : RamCall E T → E → E
  | .writeMemRef f => f
  | _ => id

/-- The merged value: all edits of a cycle, in their order. -/
def edits (calls : List (RamCall E T)) (e : E) : E := calls.foldl (fun e c => c.edit e) e

/-- The calls that may follow `write_addr` in a cycle: `write_addr` of the same entry, edits through
the reference, the clock of the read side. -/
def RamCall.Follows (wrSel wrIdx1 wrIdx2 : ℕ) : RamCall E T → Prop
  | .writeAddr s i j => s = wrSel ∧ i = wrIdx1 ∧ j = wrIdx2
  | .writeMemRef _ | .readClock _ => True
  | .writeMem _ _ => False

def RamCall.isRef : RamCall E T → Bool
  | .writeMemRef _ => true
  | _ => false

/-- The rest of a cycle that edits the entry through the reference. -/
structure RefCalls (wrSel wrIdx1 wrIdx2 : ℕ) (calls : List (RamCall E T)) : Prop where
  follows : ∀ c ∈ calls, c.Follows wrSel wrIdx1 wrIdx2
  ref : calls.any RamCall.isRef = true

/-- The cycle replaces the entry by its previous value as edited, and nothing else. -/
def Commits [DecidableEq K] (ops : RamOps K E T) (r : WrPort K E) (wrSel wrIdx1 wrIdx2 : ℕ)
    (calls : List (RamCall E T)) : Prop :=
  ∃ r', ops.cycle r (.writeAddr wrSel wrIdx1 wrIdx2 :: calls, false) = .ok r' ∧
    r'.mem = Function.update r.mem (ops.key wrSel wrIdx1 wrIdx2)
      (edits calls (r.mem (ops.key wrSel wrIdx1 wrIdx2)))

/-- What the methods of a class do to a port. `loads` is `m_wrData` after `write_addr`, `refSets`
tells whether `write_mem()` sets `m_bWrData`, `valid` is the check on the select. -/
structure RamLaws [DecidableEq K] (ops : RamOps K E T) (loads : WrPort K E → K → E) (refSets : Bool)
    (valid : ℕ → Prop) : Prop where
  writeAddr : ∀ r wrSel i j, valid wrSel → (r.bWrAddr = true → r.wrAddr = ops.key wrSel i j) →
    ops.writeAddr r wrSel i j = .ok { r with
      wrAddr := ops.key wrSel i j, wrData := loads r (ops.key wrSel i j), bWrAddr := true }
  writeMemRef : ∀ r f, r.bWrAddr = true →
    ops.writeMemRef r f = .ok { r with bWrData := refSets || r.bWrData, wrData := f r.wrData }
  writeClock : ∀ r b, r.bWrAddr = true → ops.writeClock r b = .ok (r.close b)

/-- A port between `write_addr` of `k` and the clock. -/
structure Opened (mem : K → E) (k : K) (bWrData : Bool) (r : WrPort K E) : Prop where
  mem : r.mem = mem
  bWrAddr : r.bWrAddr = true
  wrAddr : r.wrAddr = k
  bWrData : r.bWrData = bWrData

section Laws

variable [DecidableEq K] {ops : RamOps K E T} {loads : WrPort K E → K → E} {refSets : Bool}
  {valid : ℕ → Prop} {mem : K → E} {wrSel i j : ℕ} {flag : Bool} {r : WrPort K E}

/-- One more call of the cycle. -/
theorem Opened.call (laws : RamLaws ops loads refSets valid) (hv : valid wrSel)
    (h : Opened mem (ops.key wrSel i j) flag r) {c : RamCall E T} (hc : c.Follows wrSel i j) :
    ∃ r', ops.call r c = .ok r' ∧ Opened mem (ops.key wrSel i j) (refSets && c.isRef || flag) r' ∧
      ((∀ r k, r.bWrAddr = true → loads r k = r.wrData) → r'.wrData = c.edit r.wrData) := by
  cases c with
  | writeAddr s a b =>
    obtain ⟨rfl, rfl, rfl⟩ := hc
    refine ⟨_, laws.writeAddr r s a b hv (fun _ => h.wrAddr), ⟨h.mem, rfl, rfl, ?_⟩, ?_⟩
    · simp [RamCall.isRef, h.bWrData]
    · intro hl
      exact hl r _ h.bWrAddr
  | writeMemRef f =>
    refine ⟨_, laws.writeMemRef r f h.bWrAddr, ⟨h.mem, h.bWrAddr, h.wrAddr, ?_⟩, fun _ => rfl⟩
    simp [RamCall.isRef, h.bWrData]
  | writeMem s v => exact hc.elim
  | readClock b =>
    refine ⟨_, rfl, ⟨h.mem, h.bWrAddr, h.wrAddr, ?_⟩, fun _ => rfl⟩
    simpa [RamCall.isRef, WrPort.readClock] using h.bWrData

/-- **The calls of a cycle** leave the memory alone; the edits gather in `m_wrData`. -/
theorem Opened.calls (laws : RamLaws ops loads refSets valid) (hv : valid wrSel)
    (calls : List (RamCall E T)) (hc : ∀ c ∈ calls, c.Follows wrSel i j)
    (h : Opened mem (ops.key wrSel i j) flag r) :
    ∃ r', calls.foldlM ops.call r = .ok r' ∧
      Opened mem (ops.key wrSel i j) (refSets && calls.any RamCall.isRef || flag) r' ∧
      ((∀ r k, r.bWrAddr = true → loads r k = r.wrData) → r'.wrData = edits calls r.wrData) := by
  induction calls generalizing r flag with
  | nil => exact ⟨r, rfl, by simpa using h, fun _ => rfl⟩
  | cons c calls ih =>
    obtain ⟨r1, h1, ho1, hd1⟩ := h.call laws hv (hc c List.mem_cons_self)
    obtain ⟨r2, h2, ho2, hd2⟩ := ih (fun x hx => hc x (List.mem_cons_of_mem c hx)) ho1
    refine ⟨r2, ?_, ?_, ?_⟩
    · rw [List.foldlM_cons, h1]
      exact h2
    · have hflag : (refSets && calls.any RamCall.isRef || (refSets && c.isRef || flag)) =
          (refSets && (c :: calls).any RamCall.isRef || flag) := by
        rw [List.any_cons]
        cases refSets <;> cases c.isRef <;> simp
      rw [← hflag]
      exact ho2
    · intro hl
      rw [hd2 hl, hd1 hl]
      rfl

/-- **A cycle through the reference.** The edited value reaches the memory if `write_mem()` sets the
flag, and the memory stays as it is if not. -/
theorem cycle_ref (laws : RamLaws ops loads refSets valid) (hv : valid wrSel)
    {calls : List (RamCall E T)} (hc : RefCalls wrSel i j calls) (h0 : r.bWrAddr = false)
    (h1 : r.bWrData = false) :
    ∃ r', ops.cycle r (.writeAddr wrSel i j :: calls, false) = .ok r' ∧
      (refSets = false → r'.mem = r.mem) ∧
      (refSets = true → (∀ r k, r.bWrAddr = true → loads r k = r.wrData) →
        r'.mem = Function.update r.mem (ops.key wrSel i j) (edits calls (loads r (ops.key wrSel i j)))) := by
  have hopen := laws.writeAddr r wrSel i j hv (by simp [h0])
  have hopened : Opened r.mem (ops.key wrSel i j) false { r with
      wrAddr := ops.key wrSel i j, wrData := loads r (ops.key wrSel i j), bWrAddr := true } :=
    ⟨rfl, rfl, rfl, h1⟩
  obtain ⟨r2, h2, ho, hd⟩ := hopened.calls laws hv calls hc.follows
  have hcycle : ops.cycle r (.writeAddr wrSel i j :: calls, false) = .ok (r2.close false) := by
    unfold RamOps.cycle
    have hfold : (RamCall.writeAddr wrSel i j :: calls).foldlM ops.call r = .ok r2 := by
      rw [List.foldlM_cons]
      show (ops.writeAddr r wrSel i j >>= _) = _
      rw [hopen]
      exact h2
    rw [hfold]
    exact laws.writeClock r2 false ho.bWrAddr
  refine ⟨_, hcycle, ?_, ?_⟩
  · intro hs
    have hflag := ho.bWrData
    rw [hs] at hflag
    show r2.commit false = r.mem
    unfold WrPort.commit
    rw [if_neg (by simpa using hflag), ho.mem]
  · intro hs hl
    have hflag := ho.bWrData
    rw [hs, hc.ref] at hflag
    show r2.commit false = _
    unfold WrPort.commit
    rw [if_pos (by simpa using hflag), ho.mem, ho.wrAddr, hd hl]

end Laws

/-! ## The four classes -/

variable (T) (d : RamDims)

theorem htDistRam_laws : RamLaws (htDistRam T d) (fun r k => r.load 0 k) true (fun _ => True) where
  writeAddr := by
    intro r wrSel i j _ h
    have hassert : (r.bReset || !r.bWrAddr || r.wrAddr == d.addr i j) = true := by
      by_cases hb : r.bWrAddr = true
      · have hk : r.wrAddr = d.addr i j := h hb
        simp [hk]
      · simp [hb]
    simp only [htDistRam, hassert, htAssert_true]
    rfl
  writeMemRef := by
    intro r f _
    rfl
  writeClock := by
    intro r b h
    simp only [htDistRam, h, htAssert_true]
    split <;> rfl

theorem htBlockRam_laws : RamLaws (htBlockRam T d) (fun r k => r.load 0 k) false (fun _ => True) where
  writeAddr := (htDistRam_laws T d).writeAddr
  writeMemRef := by
    intro r f h
    simp only [htBlockRam, h, htAssert_true]
    rfl
  writeClock := by
    intro r b _
    rfl

theorem htMrdBlockRam_laws :
    RamLaws (htMrdBlockRam T d) (fun r k => r.load (0, 0) k) false (· < 2 ^ d.sw) where
  writeAddr := by
    intro r wrSel i j hv h
    have hassert : (r.bReset || !r.bWrAddr || r.wrAddr.1 == d.addr i j) = true := by
      by_cases hb : r.bWrAddr = true
      · have hk : r.wrAddr = (d.addr i j, wrSel) := h hb
        simp [hk]
      · simp [hb]
    simp only [htMrdBlockRam, hassert, hv, decide_true, htAssert_true]
    rfl
  writeMemRef := by
    intro r f h
    simp only [htMrdBlockRam, h, htAssert_true]
    rfl
  writeClock := by
    intro r b _
    rfl

theorem htMwrBlockRam_laws [Zero T] :
    RamLaws (htMwrBlockRam T d) (fun _ _ _ => 0) false (fun _ => True) where
  writeAddr := by
    intro r wrSel i j _ h
    have hassert : (r.bReset || !r.bWrAddr || r.wrAddr == d.addr i j) = true := by
      by_cases hb : r.bWrAddr = true
      · have hk : r.wrAddr = d.addr i j := h hb
        simp [hk]
      · simp [hb]
    simp only [htMwrBlockRam, hassert, htAssert_true]
    rfl
  writeMemRef := by
    intro r f h
    simp only [htMwrBlockRam, h, htAssert_true]
    rfl
  writeClock := by
    intro r b _
    rfl

variable {T d}

/-- Without the flag, the cycle is right exactly when the edits change nothing. -/
theorem commits_iff_of_lost [DecidableEq K] {ops : RamOps K E T} {loads : WrPort K E → K → E}
    {valid : ℕ → Prop} (laws : RamLaws ops loads false valid) {r : WrPort K E} {wrSel i j : ℕ}
    (hv : valid wrSel) {calls : List (RamCall E T)} (hc : RefCalls wrSel i j calls)
    (h0 : r.bWrAddr = false) (h1 : r.bWrData = false) :
    Commits ops r wrSel i j calls ↔
      edits calls (r.mem (ops.key wrSel i j)) = r.mem (ops.key wrSel i j) := by
  obtain ⟨r', h, hmem, -⟩ := cycle_ref laws hv hc h0 h1
  constructor
  · rintro ⟨r2, h2, hm⟩
    rw [h] at h2
    cases h2
    rw [hmem rfl] at hm
    have hk := congrFun hm (ops.key wrSel i j)
    rw [Function.update_self] at hk
    exact hk.symm
  · intro he
    refine ⟨r', h, ?_⟩
    rw [hmem rfl, he, Function.update_eq_self]

/-- With the flag, it is right outside reset, and in reset when entry `origin` would do as well. -/
theorem commits_iff_of_kept [DecidableEq K] {ops : RamOps K E T} {origin : K} {valid : ℕ → Prop}
    (laws : RamLaws ops (fun r k => r.load origin k) true valid) {r : WrPort K E} {wrSel i j : ℕ}
    (hv : valid wrSel) {calls : List (RamCall E T)} (hc : RefCalls wrSel i j calls)
    (h0 : r.bWrAddr = false) (h1 : r.bWrData = false) :
    Commits ops r wrSel i j calls ↔
      (r.bReset = true → edits calls (r.mem origin) = edits calls (r.mem (ops.key wrSel i j))) := by
  obtain ⟨r', h, -, hmem⟩ := cycle_ref laws hv hc h0 h1
  have hkeep : ∀ (r : WrPort K E) k, r.bWrAddr = true → r.load origin k = r.wrData := by
    intro r k hb
    unfold WrPort.load
    rw [if_pos hb]
  have hm := hmem rfl hkeep
  have hload : r.load origin (ops.key wrSel i j) =
      r.mem (if r.bReset then origin else ops.key wrSel i j) := by
    unfold WrPort.load
    rw [if_neg (by simp [h0])]
  rw [hload] at hm
  constructor
  · rintro ⟨r2, h2, hm2⟩ hreset
    rw [h] at h2
    cases h2
    rw [hm, if_pos hreset] at hm2
    have hk := congrFun hm2 (ops.key wrSel i j)
    rwa [Function.update_self, Function.update_self] at hk
  · intro he
    refine ⟨r', h, ?_⟩
    by_cases hreset : r.bReset = true
    · rw [hm, if_pos hreset, he hreset]
    · rw [hm, if_neg hreset]

/-- No write is pending between two cycles. -/
def WrPort.Idle (r : WrPort K E) : Prop := r.bWrAddr = false ∧ r.bWrData = false

theorem RamOps.run_idle [DecidableEq K] {ops : RamOps K E T}
    (hclock : ∀ r b r', ops.writeClock r b = .ok r' → r'.Idle)
    (cs : List (List (RamCall E T) × Bool)) {r r' : WrPort K E} (h0 : r.Idle)
    (h : ops.run r cs = .ok r') : r'.Idle := by
  induction cs generalizing r with
  | nil =>
    cases h
    exact h0
  | cons c cs ih =>
    unfold RamOps.run at h
    rw [List.foldlM_cons, bind_ok] at h
    obtain ⟨r1, h1, h2⟩ := h
    unfold RamOps.cycle at h1
    rw [bind_ok] at h1
    obtain ⟨r2, -, h3⟩ := h1
    exact ih (hclock r2 c.2 r1 h3) h2

theorem htDistRam_clock (r : WrPort ℕ T) (b : Bool) (r' : WrPort ℕ T)
    (h : (htDistRam T d).writeClock r b = .ok r') : r'.Idle := by
  unfold htDistRam at h
  simp only [] at h
  split at h
  · rw [bind_ok] at h
    obtain ⟨_, -, h2⟩ := h
    cases h2
    exact ⟨rfl, rfl⟩
  · cases h
    exact ⟨rfl, rfl⟩

/-- The cleared RAM of four entries after one idle cycle. -/
def clearedRam : WrPort ℕ ℕ := ⟨fun _ => 0, false, false, false, 0, 0⟩

/-- The value form commits in every class with an entry per select: the memory is what the merged
value would give. -/
theorem value_write_commits (T : Type) (d : RamDims) (wrSel i j : ℕ) (hsel : wrSel < 2 ^ d.sw) (v : T) :
    (∀ r : WrPort ℕ T, r.Idle → ∃ r', (htDistRam T d).cycle r ([.writeAddr wrSel i j, .writeMem wrSel v], false) =
      .ok r' ∧ r'.mem = Function.update r.mem (d.addr i j) v) ∧
    (∀ r : WrPort ℕ T, r.Idle → ∃ r', (htBlockRam T d).cycle r ([.writeAddr wrSel i j, .writeMem wrSel v], false) =
      .ok r' ∧ r'.mem = Function.update r.mem (d.addr i j) v) ∧
    (∀ r : WrPort (ℕ × ℕ) T, r.Idle →
      ∃ r', (htMrdBlockRam T d).cycle r ([.writeAddr wrSel i j, .writeMem wrSel v], false) =
      .ok r' ∧ r'.mem = Function.update r.mem (d.addr i j, wrSel) v) := by
  refine ⟨?_, ?_, ?_⟩
  · intro r hr
    refine ⟨WrPort.close { r with
      wrAddr := d.addr i j, wrData := v, bWrAddr := true, bWrData := true } false, ?_, rfl⟩
    simp [RamOps.cycle, RamOps.call, htDistRam, hr.1, bind, Except.bind, pure, Except.pure]
  · intro r hr
    refine ⟨WrPort.close { r with
      wrAddr := d.addr i j, wrData := v, bWrAddr := true, bWrData := true } false, ?_, rfl⟩
    simp [RamOps.cycle, RamOps.call, htBlockRam, hr.1, bind, Except.bind, pure, Except.pure]
  · intro r hr
    refine ⟨WrPort.close { r with
      wrAddr := (d.addr i j, wrSel), wrData := v, bWrAddr := true, bWrData := true } false, ?_, rfl⟩
    simp [RamOps.cycle, RamOps.call, htMrdBlockRam, hr.1, hsel, bind, Except.bind, pure, Except.pure]

end OpenHT.Sysc
