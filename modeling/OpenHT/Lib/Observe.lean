import Mathlib.Data.Nat.Notation

/-!
# Programs that are observed

A program over a state, which may stop and notes points on its way, each with the state it is in there.

* `Prog`, `Outcome`: programs, and what one does from a state.
* `Keeps R`: the state at the end and at every point is related to the first one.
-/

namespace OpenHT.Observe

/-- What a program does: its result if it did not stop, the last state, and the points. -/
structure Outcome (S Q α : Type) where
  val : Option α
  state : S
  points : List (S × Q)

def Prog (S Q α : Type) : Type := S → Outcome S Q α

variable {S Q α β : Type}

namespace Prog

def ret (a : α) : Prog S Q α := fun s => ⟨some a, s, []⟩

def bind (c : Prog S Q α) (f : α → Prog S Q β) : Prog S Q β := fun s =>
  match (c s).val with
  | none => ⟨none, (c s).state, (c s).points⟩
  | some a => ⟨(f a (c s).state).val, (f a (c s).state).state, (c s).points ++ (f a (c s).state).points⟩

instance : Monad (Prog S Q) where
  pure := ret
  bind := bind

/-- A result, or the end. -/
def lift (a : Option α) : Prog S Q α := fun s => ⟨a, s, []⟩

def note (q : Q) : Prog S Q Unit := fun s => ⟨some (), s, [(s, q)]⟩

def modify (f : S → S) : Prog S Q Unit := fun s => ⟨some (), f s, []⟩

def read (f : S → α) : Prog S Q α := fun s => ⟨some (f s), s, []⟩

/-- A result that comes of a program followed by another. -/
theorem bind_val {c : Prog S Q α} {f : α → Prog S Q β} {s : S} {b : β} (h : ((c >>= f) s).val = some b) :
    ∃ a, (c s).val = some a ∧ (f a (c s).state).val = some b := by
  change (bind c f s).val = some b at h
  unfold bind at h
  split at h
  · cases h
  · next a ha => exact ⟨a, ha, h⟩

end Prog

/-- **Frame.** The state at the end and at every point is related to the first one. -/
def Keeps (R : S → S → Prop) (c : Prog S Q α) : Prop := ∀ s, R s (c s).state ∧ ∀ p ∈ (c s).points, R s p.1

namespace Keeps

variable {R : S → S → Prop} {c : Prog S Q α} {f : α → Prog S Q β}

theorem pure (hrefl : ∀ s, R s s) (a : α) : Keeps R (Pure.pure a : Prog S Q α) :=
  fun s => ⟨hrefl s, fun _ hp => absurd hp List.not_mem_nil⟩

theorem lift (hrefl : ∀ s, R s s) (a : Option α) : Keeps R (Prog.lift a : Prog S Q α) :=
  fun s => ⟨hrefl s, fun _ hp => absurd hp List.not_mem_nil⟩

theorem read (hrefl : ∀ s, R s s) (g : S → α) : Keeps R (Prog.read g : Prog S Q α) :=
  fun s => ⟨hrefl s, fun _ hp => absurd hp List.not_mem_nil⟩

theorem note (hrefl : ∀ s, R s s) (q : Q) : Keeps R (Prog.note q : Prog S Q Unit) := by
  intro s
  refine ⟨hrefl s, fun p hp => ?_⟩
  obtain rfl := List.mem_singleton.1 hp
  exact hrefl s

theorem modify {g : S → S} (hg : ∀ s, R s (g s)) : Keeps R (Prog.modify g : Prog S Q Unit) :=
  fun s => ⟨hg s, fun _ hp => absurd hp List.not_mem_nil⟩

theorem bind (htrans : ∀ {s t u}, R s t → R t u → R s u) (hc : Keeps R c) (hf : ∀ a, Keeps R (f a)) :
    Keeps R (c >>= f) := by
  intro s
  obtain ⟨hstate, hpoints⟩ := hc s
  change R s (Prog.bind c f s).state ∧ ∀ p ∈ (Prog.bind c f s).points, R s p.1
  unfold Prog.bind
  split
  · exact ⟨hstate, hpoints⟩
  · next a _ =>
    obtain ⟨hstate', hpoints'⟩ := hf a (c s).state
    refine ⟨htrans hstate hstate', fun p hp => ?_⟩
    obtain hp | hp := List.mem_append.1 hp
    · exact hpoints p hp
    · exact htrans hstate (hpoints' p hp)

end Keeps

/-- The state at every point is related to the first one. -/
def Points (R : S → S → Prop) (c : Prog S Q α) : Prop := ∀ s, ∀ p ∈ (c s).points, R s p.1

namespace Points

variable {R : S → S → Prop} {c : Prog S Q α} {f : α → Prog S Q β}

theorem of_keeps (hc : Keeps R c) : Points R c := fun s => (hc s).2

/-- Points after a program that keeps the relation. -/
theorem bind (htrans : ∀ {s t u}, R s t → R t u → R s u) (hc : Keeps R c) (hf : ∀ a, Points R (f a)) :
    Points R (c >>= f) := by
  intro s p hp
  obtain ⟨hstate, hpoints⟩ := hc s
  change p ∈ (Prog.bind c f s).points at hp
  unfold Prog.bind at hp
  split at hp
  · exact hpoints p hp
  · next a _ =>
    obtain hp | hp := List.mem_append.1 hp
    · exact hpoints p hp
    · exact htrans hstate (hf a (c s).state p hp)

/-- No points after a program. -/
theorem bind_silent (hc : Points R c) (hf : ∀ a s, (f a s).points = []) : Points R (c >>= f) := by
  intro s p hp
  change p ∈ (Prog.bind c f s).points at hp
  unfold Prog.bind at hp
  split at hp
  · exact hc s p hp
  · next a _ =>
    rw [hf, List.append_nil] at hp
    exact hc s p hp

end Points

end OpenHT.Observe
