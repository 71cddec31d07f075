import Mathlib.Algebra.Group.Nat.Defs
import OpenHT.Lib.Lts
import OpenHT.Lib.Ring
import OpenHT.Lib.Wrap
import OpenHT.Sysc.Signal

/-!
# The hardware queue models

`ht_dist_que`, `ht_block_que` and `ht_ultra_que` differ in the bound on `addrBits` and in whether
`empty` looks at the write index or at its copy of the push clock before.

* `Que`: the fields of a queue object.
* `Que.pushClock`, `Que.popClock`: the clock calls, each followed by the update of the signals.
* `QueSys.step`: a design calling the methods in any order, with the history of its calls.
* `QueInv`: the indices as running counts; the array holds the committed, unread elements.
* `que_fifo`: the queues are FIFOs.
-/

namespace OpenHT.Sysc

/-- The queue classes. -/
inductive QueClass
  | htDistQue
  | htBlockQue
  | htUltraQue
deriving DecidableEq, Repr

/-- The constructor asserts `addrBits < addrLimit`. -/
def QueClass.addrLimit : QueClass → ℕ
  | .htDistQue => 10
  | .htBlockQue | .htUltraQue => 18

/-- The class has the copy `m_cmpWrIdx2` of the write index. -/
def QueClass.bCmpWrIdx2 : QueClass → Bool
  | .htDistQue => false
  | .htBlockQue | .htUltraQue => true

structure Que (T : Type) where
  que : ℕ → T
  pushData : T
  rdIdx : ℕ
  wrIdx : ℕ
  cmpWrIdx : ScSignal ℕ
  cmpWrIdx2 : ScSignal ℕ
  cmpRdIdx : ScSignal ℕ
  bPop : Bool
  bPush : Bool
  bPopWasReset : Bool
  bPushWasReset : Bool

namespace Que

variable {T : Type} (c : QueClass) (addrBits : ℕ) (q : Que T)

/-- `uint32_t` arithmetic. -/
def u32 (x : ℕ) : ℕ := x % 2 ^ 32

theorem u32_of_lt {x : ℕ} (h : x < 2 ^ 32) : u32 x = x := Nat.mod_eq_of_lt h

/-- Assignment to an `sc_uint<addrBits+1>`. -/
def scUint (x : ℕ) : ℕ := x % 2 ^ (addrBits + 1)

def size : ℕ :=
  u32 (if q.cmpWrIdx.read ≥ q.cmpRdIdx.read then q.cmpWrIdx.read - q.cmpRdIdx.read
    else q.cmpWrIdx.read + 2 ^ (addrBits + 1) - q.cmpRdIdx.read)

def empty : Bool :=
  match c with
  | .htDistQue => q.cmpWrIdx.read == q.cmpRdIdx.read
  | .htBlockQue | .htUltraQue => q.cmpWrIdx2.read == q.cmpRdIdx.read

/-- `full()`, that is `full(0)`. -/
def full : Bool := q.size addrBits ≥ 2 ^ addrBits

def front : T := q.que (q.rdIdx % 2 ^ addrBits)

def pop : Except AssertFail (Que T) :=
  if q.bPopWasReset && q.bPushWasReset then do
    htAssert !q.empty c
    htAssert !q.bPop
    return { q with bPop := true }
  else return q

def push (data : T) : Except AssertFail (Que T) :=
  if q.bPopWasReset && q.bPushWasReset then do
    htAssert !q.full addrBits
    htAssert !q.bPush
    return { q with bPush := true, pushData := data }
  else return q

/-- The update phase of the compare indices. -/
def update : Que T :=
  { q with cmpWrIdx := q.cmpWrIdx.update, cmpWrIdx2 := q.cmpWrIdx2.update, cmpRdIdx := q.cmpRdIdx.update }

/-- The entry the pending push goes to. -/
def store : ℕ → T :=
  if q.bPush then Function.update q.que (q.wrIdx % 2 ^ addrBits) q.pushData else q.que

/-- The write index after a push clock. -/
def nextWrIdx (bReset : Bool) : ℕ :=
  if bReset then 0 else if q.bPush then u32 (q.cmpWrIdx.read + 1) else q.cmpWrIdx.read

/-- `push_clock`. The delayed copy is written last with the index before the call, also in reset. -/
def pushClock (bReset : Bool) : Que T :=
  update { q with
    que := if bReset then q.que else q.store addrBits
    bPushWasReset := bReset || q.bPushWasReset
    cmpWrIdx2 := if c.bCmpWrIdx2 then q.cmpWrIdx2.write q.cmpWrIdx.read else q.cmpWrIdx2
    wrIdx := q.nextWrIdx bReset
    cmpWrIdx := q.cmpWrIdx.write (scUint addrBits (q.nextWrIdx bReset))
    bPush := false }

/-- The read index after a pop clock. -/
def nextRdIdx (bReset : Bool) : ℕ :=
  if bReset then 0 else if q.bPop then u32 (q.cmpRdIdx.read + 1) else q.cmpRdIdx.read

/-- The assignments of `pop_clock`. -/
def setRdIdx (bReset : Bool) : Que T :=
  update { q with
    bPopWasReset := bReset || q.bPopWasReset
    rdIdx := q.nextRdIdx bReset
    cmpRdIdx := q.cmpRdIdx.write (scUint addrBits (q.nextRdIdx bReset))
    bPop := false }

def popClock (bReset : Bool) : Except AssertFail (Que T) := do
  if !bReset && q.bPop then htAssert !q.empty c
  return q.setRdIdx addrBits bReset

variable {c addrBits q} in
theorem popClock_ok {bReset : Bool} {q' : Que T} (h : q.popClock c addrBits bReset = .ok q') :
    q' = q.setRdIdx addrBits bReset := by
  unfold popClock at h
  split at h
  · obtain ⟨_, _, h⟩ := bind_ok.1 h
    exact (Except.ok.inj h).symm
  · exact (Except.ok.inj h).symm

end Que

/-- A queue and the history of the calls since the reset. -/
structure QueSys (T : Type) where
  que : Que T
  /-- The pushed elements, oldest first. -/
  pushed : List T
  /-- What `front` returned at each pop, oldest first. -/
  popped : List T
  /-- Pushes and pops whose clock call has been made. -/
  committed : ℕ
  taken : ℕ
  /-- A push, a pop was made since the last call of its clock. -/
  pushUsed : Bool
  popUsed : Bool

inductive QueAct (T : Type)
  | push (data : T)
  | pop
  | pushClock
  | popClock

namespace QueSys

variable {T : Type} (c : QueClass) (addrBits : ℕ)

/-- The start of a history. -/
def start (q : Que T) : QueSys T := ⟨q, [], [], 0, 0, false, false⟩

/-- The committed elements that have not been popped. -/
def occupancy (s : QueSys T) : ℕ := s.committed - s.taken

def step (s : QueSys T) : QueAct T → Except AssertFail (QueSys T)
  | .push data => do
    let q ← s.que.push addrBits data
    return { s with que := q, pushed := s.pushed ++ [data], pushUsed := true }
  | .pop => do
    let q ← s.que.pop c
    return { s with que := q, popped := s.popped ++ [s.que.front addrBits], popUsed := true }
  | .pushClock =>
    .ok { s with que := s.que.pushClock c addrBits false
                 committed := s.committed + s.pushUsed.toNat, pushUsed := false }
  | .popClock => do
    let q ← s.que.popClock c addrBits false
    return { s with que := q, taken := s.taken + s.popUsed.toNat, popUsed := false }

/-- The design pushes at most once before a push clock, with `full()` false, and pops at most once
before a pop clock, with `empty()` false. -/
def Allowed (s : QueSys T) : QueAct T → Prop
  | .push _ => s.que.full addrBits = false ∧ s.pushUsed = false
  | .pop => s.que.empty c = false ∧ s.popUsed = false
  | .pushClock | .popClock => True

end QueSys

/-- The two sides of a queue. -/
inductive QueSide
  | push
  | pop
deriving DecidableEq, Repr

/-- A clock call of one side with `bReset`. -/
def Que.resetClock {T : Type} (c : QueClass) (addrBits : ℕ) (q : Que T) : QueSide → Except AssertFail (Que T)
  | .push => .ok (q.pushClock c addrBits true)
  | .pop => q.popClock c addrBits true

/-! ## The invariant -/

/-- The indices are running counts. A pop sees the first `seen` elements. -/
structure QueInv {T : Type} (c : QueClass) (addrBits : ℕ) (seen : ℕ) (s : QueSys T) : Prop where
  rstPop : s.que.bPopWasReset = true
  rstPush : s.que.bPushWasReset = true
  wr : s.que.cmpWrIdx = ⟨s.committed % 2 ^ (addrBits + 1), s.committed % 2 ^ (addrBits + 1)⟩
  rd : s.que.cmpRdIdx = ⟨s.taken % 2 ^ (addrBits + 1), s.taken % 2 ^ (addrBits + 1)⟩
  wr2 : c.bCmpWrIdx2 = true → s.que.cmpWrIdx2 = ⟨seen % 2 ^ (addrBits + 1), seen % 2 ^ (addrBits + 1)⟩
  seen_eq : c.bCmpWrIdx2 = false → seen = s.committed
  wrIdx : s.que.wrIdx % 2 ^ addrBits = s.committed % 2 ^ addrBits
  rdIdx : s.que.rdIdx % 2 ^ addrBits = s.taken % 2 ^ addrBits
  taken_le : s.taken ≤ seen
  seen_le : seen ≤ s.committed
  room : s.committed + s.pushUsed.toNat ≤ s.taken + 2 ^ addrBits
  avail : s.taken + s.popUsed.toNat ≤ seen
  bPush : s.que.bPush = s.pushUsed
  bPop : s.que.bPop = s.popUsed
  length : s.pushed.length = s.committed + s.pushUsed.toNat
  data : s.pushUsed = true → s.pushed[s.committed]? = some s.que.pushData
  cells : ∀ i, s.taken ≤ i → i < s.committed → s.pushed[i]? = some (s.que.que (i % 2 ^ addrBits))
  popped : s.popped = s.pushed.take (s.taken + s.popUsed.toNat)

namespace QueInv

variable {T : Type} {c : QueClass} {addrBits seen : ℕ} {s : QueSys T}

theorem pow_lt (hab : addrBits < c.addrLimit) : 2 ^ (addrBits + 1) < 2 ^ 32 := by
  have h18 : c.addrLimit ≤ 18 := by
    cases c with
    | htDistQue => decide
    | htBlockQue => decide
    | htUltraQue => decide
  exact Nat.pow_lt_pow_right (by decide) (by omega)

/-- The window of committed elements is shorter than the range of the indices. -/
theorem window (inv : QueInv c addrBits seen s) :
    s.taken ≤ s.committed ∧ s.committed < s.taken + 2 ^ (addrBits + 1) := by
  have h1 := inv.taken_le
  have h2 := inv.seen_le
  have h3 := inv.room
  have h4 : 0 < 2 ^ addrBits := Nat.two_pow_pos addrBits
  have h5 : 2 ^ (addrBits + 1) = 2 ^ addrBits * 2 := Nat.pow_succ 2 addrBits
  omega

/-- **`size()` is the occupancy.** -/
theorem size_eq (inv : QueInv c addrBits seen s) (hab : addrBits < c.addrLimit) :
    s.que.size addrBits = s.occupancy := by
  have ⟨hle, hlt⟩ := inv.window
  have hpow := pow_lt hab
  have hdist := Wrap.dist_mod hle hlt
  unfold Wrap.dist at hdist
  unfold Que.size QueSys.occupancy ScSignal.read
  rw [inv.wr, inv.rd]
  simp only []
  rw [hdist]
  exact Que.u32_of_lt (by omega)

theorem full_iff (inv : QueInv c addrBits seen s) (hab : addrBits < c.addrLimit) :
    s.que.full addrBits = true ↔ s.taken + 2 ^ addrBits ≤ s.committed := by
  have ⟨hle, _⟩ := inv.window
  unfold Que.full
  rw [inv.size_eq hab, decide_eq_true_iff]
  unfold QueSys.occupancy
  have h4 : 0 < 2 ^ addrBits := Nat.two_pow_pos addrBits
  omega

/-- **`empty()` compares with what the pop side has seen.** -/
theorem empty_iff (inv : QueInv c addrBits seen s) :
    s.que.empty c = true ↔ seen = s.taken := by
  have hmod : seen % 2 ^ (addrBits + 1) = s.taken % 2 ^ (addrBits + 1) ↔ seen = s.taken := by
    have ⟨_, hlt⟩ := inv.window
    have h2 := inv.seen_le
    exact Wrap.mod_eq_iff inv.taken_le (by omega)
  unfold Que.empty ScSignal.read
  rw [inv.rd]
  cases c with
  | htDistQue =>
    rw [inv.wr, ← inv.seen_eq rfl]
    simp [hmod]
  | htBlockQue =>
    rw [inv.wr2 rfl]
    simp [hmod]
  | htUltraQue =>
    rw [inv.wr2 rfl]
    simp [hmod]

/-! ### The steps -/

theorem push (inv : QueInv c addrBits seen s) (hab : addrBits < c.addrLimit) (data : T)
    (hok : QueSys.Allowed c addrBits s (.push data)) :
    ∃ s', QueSys.step c addrBits s (.push data) = .ok s' ∧ QueInv c addrBits seen s' := by
  obtain ⟨hfull, hused⟩ := hok
  have hbPush : s.que.bPush = false := by rw [inv.bPush, hused]
  have hlen := inv.length
  rw [hused] at hlen
  have hroom : s.committed < s.taken + 2 ^ addrBits := by
    by_contra hge
    have h := (inv.full_iff hab).2 (by omega)
    rw [hfull] at h
    cases h
  have hstep : QueSys.step c addrBits s (.push data) =
      .ok { s with que := { s.que with bPush := true, pushData := data }
                   pushed := s.pushed ++ [data], pushUsed := true } := by
    simp [QueSys.step, Que.push, inv.rstPop, inv.rstPush, hfull, hbPush, bind, Except.bind, pure, Except.pure]
  refine ⟨_, hstep, ?_⟩
  have htake : s.popped = (s.pushed ++ [data]).take (s.taken + s.popUsed.toNat) := by
    have h1 := inv.avail
    have h2 := inv.seen_le
    rw [List.take_append_of_le_length (by omega)]
    exact inv.popped
  exact { inv with
    room := hroom
    bPush := rfl
    length := by simpa using hlen
    data := by
      intro _
      simp only [Bool.toNat_false, Nat.add_zero] at hlen
      simp [← hlen]
    cells := by
      intro i h1 h2
      have hi : i < s.pushed.length := by
        have h2' : i < s.committed := h2
        omega
      rw [List.getElem?_append_left hi]
      exact inv.cells i h1 h2
    popped := htake }

theorem pop (inv : QueInv c addrBits seen s) (hok : QueSys.Allowed c addrBits s .pop) :
    ∃ s', QueSys.step c addrBits s .pop = .ok s' ∧ QueInv c addrBits seen s' := by
  obtain ⟨hempty, hused⟩ := hok
  have hbPop : s.que.bPop = false := by rw [inv.bPop, hused]
  have havail : s.taken < seen := by
    by_contra hge
    have hle := inv.taken_le
    have h := inv.empty_iff.2 (by omega)
    rw [hempty] at h
    cases h
  have hstep : QueSys.step c addrBits s .pop =
      .ok { s with que := { s.que with bPop := true }
                   popped := s.popped ++ [s.que.front addrBits], popUsed := true } := by
    simp [QueSys.step, Que.pop, inv.rstPop, inv.rstPush, hempty, hbPop, bind, Except.bind, pure, Except.pure]
  refine ⟨_, hstep, ?_⟩
  have hfront : s.pushed[s.taken]? = some (s.que.front addrBits) := by
    unfold Que.front
    rw [inv.rdIdx]
    have hle := inv.seen_le
    exact inv.cells s.taken le_rfl (by omega)
  exact { inv with
    avail := havail
    bPop := rfl
    popped := by
      have hold := inv.popped
      rw [hused] at hold
      simp only [Bool.toNat_false, Nat.add_zero] at hold
      simp [hold, List.take_add_one, hfront] }

/-- The pending push lands in a slot of its own. -/
theorem cells_store (inv : QueInv c addrBits seen s) (i : ℕ) (h1 : s.taken ≤ i)
    (h2 : i < s.committed + s.pushUsed.toNat) :
    s.pushed[i]? = some (s.que.store addrBits (i % 2 ^ addrBits)) := by
  have htaken := inv.taken_le
  have hseen := inv.seen_le
  have hroom := inv.room
  unfold Que.store
  rw [inv.bPush]
  by_cases hused : s.pushUsed = true
  · rw [hused] at h2 hroom
    simp only [Bool.toNat_true] at h2 hroom
    rw [if_pos hused, inv.wrIdx]
    by_cases hi : i = s.committed
    · rw [hi, Function.update_self]
      exact inv.data hused
    · -- an older element lies in another slot
      have hne : i % 2 ^ addrBits ≠ s.committed % 2 ^ addrBits := by
        intro hm
        exact hi (Ring.window_inj h1 (by omega) (by omega) (by omega) hm)
      rw [Function.update_of_ne hne]
      exact inv.cells i h1 (by omega)
  · rw [Bool.not_eq_true] at hused
    rw [hused] at h2 ⊢
    exact inv.cells i h1 (by simpa using h2)

/-- The write index moves past the pushed element, which is stored at its slot. -/
theorem pushClock (inv : QueInv c addrBits seen s) (hab : addrBits < c.addrLimit) :
    ∃ seen' s', QueSys.step c addrBits s .pushClock = .ok s' ∧ QueInv c addrBits seen' s' := by
  refine ⟨if c.bCmpWrIdx2 then s.committed else s.committed + s.pushUsed.toNat, _, rfl, ?_⟩
  have hpow := pow_lt hab
  have hN : 2 ^ (addrBits + 1) = 2 ^ addrBits * 2 := Nat.pow_succ 2 addrBits
  have hread : s.que.cmpWrIdx.read = s.committed % 2 ^ (addrBits + 1) := by rw [inv.wr]; rfl
  have hlt := Nat.mod_lt s.committed (Nat.two_pow_pos (addrBits + 1))
  -- the next write index and what the compare index keeps of it
  have hnext : s.que.nextWrIdx false = s.committed % 2 ^ (addrBits + 1) + s.pushUsed.toNat := by
    unfold Que.nextWrIdx
    rw [inv.bPush, hread]
    cases hused : s.pushUsed with
    | false => simp
    | true =>
      rw [if_neg (by decide), if_pos rfl]
      exact Que.u32_of_lt (by omega)
  have hcmp : Que.scUint addrBits (s.que.nextWrIdx false) =
      (s.committed + s.pushUsed.toNat) % 2 ^ (addrBits + 1) := by
    unfold Que.scUint
    rw [hnext, Nat.mod_add_mod]
  have hslot : s.que.nextWrIdx false % 2 ^ addrBits = (s.committed + s.pushUsed.toNat) % 2 ^ addrBits := by
    rw [hnext, Nat.add_mod, Nat.mod_mod_of_dvd _ ⟨2, hN⟩, ← Nat.add_mod]
  have htaken := inv.taken_le
  have hseen := inv.seen_le
  have havail := inv.avail
  exact
    { rstPop := inv.rstPop
      rstPush := by simp [Que.pushClock, Que.update, inv.rstPush]
      wr := by simp [Que.pushClock, Que.update, ScSignal.write, ScSignal.update, hcmp]
      rd := by simp [Que.pushClock, Que.update, ScSignal.update, inv.rd]
      wr2 := by
        intro hc
        simp [Que.pushClock, Que.update, ScSignal.write, ScSignal.update, hc, hread]
      seen_eq := by
        intro hc
        simp [hc]
      wrIdx := hslot
      rdIdx := inv.rdIdx
      taken_le := by
        show s.taken ≤ if c.bCmpWrIdx2 then s.committed else s.committed + s.pushUsed.toNat
        split <;> omega
      seen_le := by
        show (if c.bCmpWrIdx2 then s.committed else s.committed + s.pushUsed.toNat) ≤
          s.committed + s.pushUsed.toNat
        split <;> omega
      room := by simpa using inv.room
      avail := by
        show s.taken + s.popUsed.toNat ≤ if c.bCmpWrIdx2 then s.committed else s.committed + s.pushUsed.toNat
        split <;> omega
      bPush := rfl
      bPop := inv.bPop
      length := by simpa using inv.length
      data := by
        intro h
        cases h
      cells := by
        intro i h1 h2
        exact inv.cells_store i h1 h2
      popped := inv.popped }

/-- An element being popped is still there. -/
theorem pop_not_empty (inv : QueInv c addrBits seen s) (h : s.que.bPop = true) : s.que.empty c = false := by
  have havail := inv.avail
  rw [← inv.bPop, h] at havail
  simp only [Bool.toNat_true] at havail
  cases he : s.que.empty c with
  | false => rfl
  | true =>
    have := inv.empty_iff.1 he
    omega

theorem popClock (inv : QueInv c addrBits seen s) (hab : addrBits < c.addrLimit) :
    ∃ s', QueSys.step c addrBits s .popClock = .ok s' ∧ QueInv c addrBits seen s' := by
  have hpow := pow_lt hab
  have hN : 2 ^ (addrBits + 1) = 2 ^ addrBits * 2 := Nat.pow_succ 2 addrBits
  have hread : s.que.cmpRdIdx.read = s.taken % 2 ^ (addrBits + 1) := by rw [inv.rd]; rfl
  have hlt := Nat.mod_lt s.taken (Nat.two_pow_pos (addrBits + 1))
  have hassert : (!false && s.que.bPop) = true → s.que.empty c = false := by
    intro h
    exact inv.pop_not_empty (by simpa using h)
  have hnext : s.que.nextRdIdx false = s.taken % 2 ^ (addrBits + 1) + s.popUsed.toNat := by
    unfold Que.nextRdIdx
    rw [inv.bPop, hread]
    cases hused : s.popUsed with
    | false => simp
    | true =>
      rw [if_neg (by decide), if_pos rfl]
      exact Que.u32_of_lt (by omega)
  have hcmp : Que.scUint addrBits (s.que.nextRdIdx false) =
      (s.taken + s.popUsed.toNat) % 2 ^ (addrBits + 1) := by
    unfold Que.scUint
    rw [hnext, Nat.mod_add_mod]
  have hslot : s.que.nextRdIdx false % 2 ^ addrBits = (s.taken + s.popUsed.toNat) % 2 ^ addrBits := by
    rw [hnext, Nat.add_mod, Nat.mod_mod_of_dvd _ ⟨2, hN⟩, ← Nat.add_mod]
  have hclock : s.que.popClock c addrBits false = .ok (s.que.setRdIdx addrBits false) := by
    unfold Que.popClock
    by_cases hb : (!false && s.que.bPop) = true
    · rw [if_pos hb, hassert hb]
      rfl
    · rw [if_neg hb]
      rfl
  refine ⟨{ s with que := s.que.setRdIdx addrBits false
                   taken := s.taken + s.popUsed.toNat, popUsed := false }, ?_, ?_⟩
  · unfold QueSys.step
    rw [hclock]
    rfl
  · have hroom := inv.room
    have hseen := inv.seen_le
    exact
      { rstPop := by simp [Que.setRdIdx, Que.update, inv.rstPop]
        rstPush := inv.rstPush
        wr := by simp [Que.setRdIdx, Que.update, ScSignal.update, inv.wr]
        rd := by simp [Que.setRdIdx, Que.update, ScSignal.write, ScSignal.update, hcmp]
        wr2 := by
          intro hc
          simp [Que.setRdIdx, Que.update, ScSignal.update, inv.wr2 hc]
        seen_eq := inv.seen_eq
        wrIdx := inv.wrIdx
        rdIdx := hslot
        taken_le := inv.avail
        seen_le := inv.seen_le
        room := by
          show s.committed + s.pushUsed.toNat ≤ s.taken + s.popUsed.toNat + 2 ^ addrBits
          omega
        avail := by simpa using inv.avail
        bPush := inv.bPush
        bPop := rfl
        length := inv.length
        data := inv.data
        cells := by
          intro i h1 h2
          have h1' : s.taken + s.popUsed.toNat ≤ i := h1
          exact inv.cells i (by omega) h2
        popped := by simpa using inv.popped }

end QueInv

/-! ## Reset -/

namespace Que

variable {T : Type} {c : QueClass}

/-- What `n` push clocks and `m` pop clocks in reset have settled. -/
structure Resetting (n m : ℕ) (q : Que T) : Prop where
  push : 1 ≤ n → q.bPushWasReset = true ∧ q.cmpWrIdx = ⟨0, 0⟩ ∧ q.wrIdx = 0 ∧ q.bPush = false
  push2 : 2 ≤ n → c.bCmpWrIdx2 = true → q.cmpWrIdx2 = ⟨0, 0⟩
  pop : 1 ≤ m → q.bPopWasReset = true ∧ q.cmpRdIdx = ⟨0, 0⟩ ∧ q.rdIdx = 0 ∧ q.bPop = false

theorem Resetting.clock {n m : ℕ} {q : Que T} (h : Resetting (c := c) n m q) (addrBits : ℕ)
    (side : QueSide) :
    ∃ q', q.resetClock c addrBits side = .ok q' ∧
      Resetting (c := c) (n + [side].count .push) (m + [side].count .pop) q' := by
  cases side with
  | push =>
    refine ⟨_, rfl, ?_, ?_, ?_⟩
    · intro _
      simp [pushClock, update, nextWrIdx, ScSignal.write, ScSignal.update, scUint]
    · intro h2 hc
      have hn : 1 ≤ n := by simpa using h2
      obtain ⟨_, hw, _, _⟩ := h.push hn
      simp [pushClock, update, ScSignal.write, ScSignal.update, hc, hw, ScSignal.read]
    · intro hm
      have hm' : 1 ≤ m := by simpa using hm
      obtain ⟨h1, h2, h3, h4⟩ := h.pop hm'
      simp [pushClock, update, ScSignal.update, h1, h2, h3, h4]
  | pop =>
    refine ⟨_, rfl, ?_, ?_, ?_⟩
    · intro hn
      obtain ⟨h1, h2, h3, h4⟩ := h.push (by simpa using hn)
      simp [setRdIdx, update, ScSignal.update, h1, h2, h3, h4]
    · intro hn hc
      have h2 := h.push2 (by simpa using hn) hc
      simp [setRdIdx, update, ScSignal.update, h2]
    · intro _
      simp [setRdIdx, update, nextRdIdx, ScSignal.write, ScSignal.update, scUint]

/-- **Reset.** Clocks in reset succeed, in any order of the two sides. -/
theorem Resetting.clocks {n m : ℕ} {q : Que T} (h : Resetting (c := c) n m q) (addrBits : ℕ)
    (sides : List QueSide) :
    ∃ q', sides.foldlM (resetClock c addrBits) q = .ok q' ∧
      Resetting (c := c) (n + sides.count .push) (m + sides.count .pop) q' := by
  induction sides generalizing n m q with
  | nil => exact ⟨q, rfl, h⟩
  | cons side sides ih =>
    obtain ⟨q1, h1, hr1⟩ := h.clock addrBits side
    obtain ⟨q2, h2, hr2⟩ := ih hr1
    refine ⟨q2, ?_, ?_⟩
    · rw [List.foldlM_cons, h1]
      exact h2
    · have hsplit : ∀ x, (side :: sides).count x = [side].count x + sides.count x := by
        intro x
        rw [← List.singleton_append, List.count_append]
      rw [hsplit, hsplit, ← Nat.add_assoc, ← Nat.add_assoc]
      exact hr2

end Que

namespace Que

variable {T : Type} {c : QueClass} {addrBits : ℕ} {q : Que T}

/-- All indices are zero and nothing is pending. -/
structure Cleared (c : QueClass) (q : Que T) : Prop where
  rstPop : q.bPopWasReset = true
  rstPush : q.bPushWasReset = true
  wr : q.cmpWrIdx = ⟨0, 0⟩
  wr2 : c.bCmpWrIdx2 = true → q.cmpWrIdx2 = ⟨0, 0⟩
  rd : q.cmpRdIdx = ⟨0, 0⟩
  wrIdx : q.wrIdx = 0
  rdIdx : q.rdIdx = 0
  bPush : q.bPush = false
  bPop : q.bPop = false

theorem Cleared.inv (h : Cleared c q) : QueInv c addrBits 0 (QueSys.start q) :=
  { rstPop := h.rstPop, rstPush := h.rstPush
    wr := by simp [QueSys.start, h.wr]
    rd := by simp [QueSys.start, h.rd]
    wr2 := by
      intro hc
      simp [QueSys.start, h.wr2 hc]
    seen_eq := fun _ => rfl
    wrIdx := by simp [QueSys.start, h.wrIdx]
    rdIdx := by simp [QueSys.start, h.rdIdx]
    taken_le := le_rfl, seen_le := le_rfl
    room := by simp [QueSys.start]
    avail := by simp [QueSys.start]
    bPush := h.bPush, bPop := h.bPop
    length := by simp [QueSys.start]
    data := by
      intro hd
      cases hd
    cells := by
      intro i _ hi
      exact absurd hi (Nat.not_lt_zero i)
    popped := by simp [QueSys.start] }

/-- After two clocks of each side in reset all indices are zero. -/
theorem Resetting.cleared {n m : ℕ} (h : Resetting (c := c) n m q) (hn : 2 ≤ n) (hm : 2 ≤ m) : Cleared c q := by
  obtain ⟨h1, h2, h3, h4⟩ := h.push (by omega)
  obtain ⟨h5, h6, h7, h8⟩ := h.pop (by omega)
  exact { rstPop := h5, rstPush := h1, wr := h2, wr2 := h.push2 hn, rd := h6, wrIdx := h3, rdIdx := h7, bPush := h4, bPop := h8 }

end Que

/-- An allowed action does not stop at an assertion and keeps the invariant. -/
theorem QueInv.step {T : Type} {c : QueClass} {addrBits seen : ℕ} {s : QueSys T}
    (inv : QueInv c addrBits seen s) (hab : addrBits < c.addrLimit) (a : QueAct T)
    (hok : QueSys.Allowed c addrBits s a) :
    ∃ seen' s', QueSys.step c addrBits s a = .ok s' ∧ QueInv c addrBits seen' s' := by
  cases a with
  | push data => exact ⟨seen, inv.push hab data hok⟩
  | pop => exact ⟨seen, inv.pop hok⟩
  | pushClock => exact inv.pushClock hab
  | popClock => exact ⟨seen, inv.popClock hab⟩

/-- **The queues are FIFOs across two clocks.** After at least two clocks of each side in reset, in
every state of every run: the popped elements are a prefix of the pushed ones, the occupancy is at
most `2 ^ addrBits` and `full()` says so, `empty()` is true when nothing committed is unread, and no
call the design may make stops at an assertion. -/
theorem que_fifo {T : Type} (c : QueClass) (addrBits : ℕ) (hab : addrBits < c.addrLimit) (q₀ : Que T)
    (resets : List QueSide) (hpush : 2 ≤ resets.count .push) (hpop : 2 ≤ resets.count .pop) :
    ∃ q, resets.foldlM (Que.resetClock c addrBits) q₀ = .ok q ∧
      ∀ s, Lts.Reach (QueSys.step c addrBits) (QueSys.Allowed c addrBits) (QueSys.start q) s →
        s.popped <+: s.pushed ∧ s.taken ≤ s.committed ∧ s.occupancy ≤ 2 ^ addrBits ∧
        (s.occupancy = 2 ^ addrBits → s.que.full addrBits = true) ∧
        (s.occupancy = 0 → s.que.empty c = true) ∧
        ∀ a, QueSys.Allowed c addrBits s a → ∃ s', QueSys.step c addrBits s a = .ok s' := by
  have hzero : Que.Resetting (c := c) 0 0 q₀ := by
    refine ⟨?_, ?_, ?_⟩ <;> intro h <;> omega
  obtain ⟨q, hq, hr⟩ := hzero.clocks addrBits resets
  refine ⟨q, hq, ?_⟩
  intro s hs
  have hinv : ∃ seen, QueInv c addrBits seen s := by
    revert s
    apply Lts.Reach.invariant
    · exact ⟨0, (hr.cleared (by omega) (by omega)).inv⟩
    · rintro s s' a - ⟨seen, inv⟩ hok he
      obtain ⟨seen', s1, h1, inv'⟩ := inv.step hab a hok
      rw [h1] at he
      cases he
      exact ⟨seen', inv'⟩
  obtain ⟨seen, inv⟩ := hinv
  have hle := inv.window.1
  have hroom := inv.room
  refine ⟨?_, hle, ?_, ?_, ?_, ?_⟩
  · rw [inv.popped]
    exact List.take_prefix _ _
  · unfold QueSys.occupancy
    omega
  · intro hocc
    unfold QueSys.occupancy at hocc
    have hpos : 0 < 2 ^ addrBits := Nat.two_pow_pos addrBits
    exact (inv.full_iff hab).2 (by omega)
  · intro hocc
    unfold QueSys.occupancy at hocc
    have h1 := inv.taken_le
    have h2 := inv.seen_le
    exact inv.empty_iff.2 (by omega)
  · intro a ha
    obtain ⟨_, s', h, _⟩ := inv.step hab a ha
    exact ⟨s', h⟩

theorem que_fifo_demo :
    ∃ q, [QueSide.push, .push, .pop, .pop].foldlM (Que.resetClock .htBlockQue 1)
        ⟨fun _ => 0, 0, 5, 6, ⟨1, 1⟩, ⟨2, 2⟩, ⟨3, 3⟩, true, true, false, false⟩ = .ok q ∧
      ∀ s, Lts.Reach (QueSys.step .htBlockQue 1) (QueSys.Allowed .htBlockQue 1) (QueSys.start q) s →
        s.popped <+: s.pushed ∧ s.occupancy ≤ 2 := by
  obtain ⟨q, hq, h⟩ := que_fifo .htBlockQue 1 (by decide)
    ⟨fun _ => 0, 0, 5, 6, ⟨1, 1⟩, ⟨2, 2⟩, ⟨3, 3⟩, true, true, false, false⟩ [.push, .push, .pop, .pop]
    (by decide) (by decide)
  refine ⟨q, hq, ?_⟩
  intro s hs
  exact ⟨(h s hs).1, (h s hs).2.2.1⟩

end OpenHT.Sysc
