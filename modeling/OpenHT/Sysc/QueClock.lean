import OpenHT.Sysc.Que

/-!
# `clock()`

One call of `clock` runs the push side and then the pop side, before the signals are updated. `full(num)` and the two
addresses complete the calls that return a value.

* `Que.clock`: the call.
* `Que.clock_returns`: the state behind it.
-/

namespace OpenHT.Sysc

namespace Que

variable {T : Type} (c : QueClass) (addrBits : ℕ) (q : Que T)

/-- The assignments of `push_clock`. -/
def pushWrites (bReset : Bool) : Que T :=
  { q with
    que := if bReset then q.que else q.store addrBits
    bPushWasReset := bReset || q.bPushWasReset
    cmpWrIdx2 := if c.bCmpWrIdx2 then q.cmpWrIdx2.write q.cmpWrIdx.read else q.cmpWrIdx2
    wrIdx := q.nextWrIdx bReset
    cmpWrIdx := q.cmpWrIdx.write (scUint addrBits (q.nextWrIdx bReset))
    bPush := false }

theorem pushClock_eq (bReset : Bool) : q.pushClock c addrBits bReset = (q.pushWrites c addrBits bReset).update := rfl

def clock (bReset : Bool) : Except AssertFail (Que T) := do
  let q := q.pushWrites c addrBits bReset
  if !bReset && q.bPop then htAssert !q.empty c
  return q.setRdIdx addrBits bReset

def fullNum (num : ℕ) : Bool := q.size addrBits ≥ u32 (2 ^ addrBits + 2 ^ 32 - num)

def readAddr : ℕ := q.rdIdx % 2 ^ addrBits

def writeAddr : ℕ := q.wrIdx % 2 ^ addrBits

variable {c addrBits q}

theorem empty_pushWrites (bReset : Bool) : (q.pushWrites c addrBits bReset).empty c = q.empty c := by
  cases c with
  | htDistQue => rfl
  | htBlockQue => rfl
  | htUltraQue => rfl

theorem clock_returns {bReset : Bool} (hpop : q.bPop = true → q.empty c = false) :
    q.clock c addrBits bReset = .ok ((q.pushWrites c addrBits bReset).setRdIdx addrBits bReset) := by
  unfold clock
  have hbPop : (q.pushWrites c addrBits bReset).bPop = q.bPop := rfl
  simp only [empty_pushWrites, hbPop]
  cases hp : q.bPop with
  | false =>
    rw [Bool.and_false]
    rfl
  | true =>
    rw [hpop hp]
    cases bReset <;> rfl

end Que

end OpenHT.Sysc
