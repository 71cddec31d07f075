import Mathlib.Data.Nat.Notation

/-!
# Signals and assertions of the simulation models

* `ScSignal`: an `sc_signal` of SystemC. A write is seen by readers only after the
  process that wrote it has returned.
* `htAssert`: the models' `ht_assert`, which stops the simulation.
-/

namespace OpenHT.Sysc

/-- The current value of a signal and the value it takes at the next update. -/
structure ScSignal (α : Type*) where
  val : α
  new : α
deriving DecidableEq, Repr

namespace ScSignal

variable {α : Type*} (s : ScSignal α) (v : α)

def read : α := s.val

/-- The last write before the update wins. -/
def write : ScSignal α := { s with new := v }

/-- The update phase after a clock call. -/
def update : ScSignal α := { s with val := s.new }

@[simp] theorem read_write : (s.write v).read = s.read := rfl
@[simp] theorem read_update_write : (s.write v).update.read = v := rfl
@[simp] theorem new_update : s.update.new = s.new := rfl
@[simp] theorem read_update : s.update.read = s.new := rfl
@[simp] theorem new_write : (s.write v).new = v := rfl

end ScSignal

/-- The simulation stopped at an `ht_assert`. -/
inductive AssertFail
  | htAssert
deriving DecidableEq, Repr

def htAssert (bCond : Bool) : Except AssertFail Unit :=
  if bCond then .ok () else .error .htAssert

@[simp] theorem htAssert_true : htAssert true = .ok () := rfl

end OpenHT.Sysc
