import Mathlib.Data.List.Range
import Mathlib.Data.List.Perm.Basic
import Mathlib.Logic.Function.Basic

/-!
# A ring of slots with valid bits

One writer and one reader share `N` slots. The writer owns a running index `wr`
and fills slot `wr % N` once it is empty; the reader owns a running index `rd`
and empties slot `rd % N` once it is full. Neither looks at the other's index:
a slot's own valid bit (`some`) is all the synchronisation there is.

* `Ring.Wf`: exactly the slots of the window `[rd, wr)` are valid.
* `Ring.live`: the messages in the ring, oldest first.
* `Wf.put`, `Wf.take`: the ring is a bounded FIFO queue.
* `Wf.slot_free`: with fewer than `N` messages the writer's slot is empty.
* `Wf.perm`: the slots hold the live messages and nothing else.
-/

namespace OpenHT.Ring

variable {α : Type*} {N : ℕ} {slots : ℕ → Option α} {rd wr : ℕ}

/-- The messages from the read index to the write index. -/
def live (N : ℕ) (slots : ℕ → Option α) (rd wr : ℕ) : List α :=
  (List.range' rd (wr - rd)).filterMap (fun i => slots (i % N))

/-- All valid messages, in slot order. -/
def held (N : ℕ) (slots : ℕ → Option α) : List α := (List.range N).filterMap slots

/-- Exactly the slots of the window `[rd, wr)` are valid. -/
structure Wf (N : ℕ) (slots : ℕ → Option α) (rd wr : ℕ) : Prop where
  le : rd ≤ wr
  room : wr ≤ rd + N
  full : ∀ i, rd ≤ i → i < wr → (slots (i % N)).isSome
  empty : ∀ i, wr ≤ i → i < rd + N → slots (i % N) = none

theorem Wf.init : Wf N (fun _ => (none : Option α)) 0 0 :=
  ⟨le_rfl, Nat.zero_le _, fun i _ h => absurd h (Nat.not_lt_zero i), fun _ _ _ => rfl⟩

@[simp] theorem live_self : live N slots rd rd = [] := by simp [live]

/-- Two indices of one window share a slot only if they are equal. -/
theorem window_inj {i j : ℕ} (hi : rd ≤ i) (hj : rd ≤ j) (hiN : i < rd + N) (hjN : j < rd + N)
    (h : i % N = j % N) : i = j := by
  have key : ∀ a b : ℕ, a ≤ b → b - a < N → a % N = b % N → a = b := by
    intro a b hab hlt hmod
    have hd : N ∣ b - a := Nat.dvd_of_mod_eq_zero (Nat.sub_mod_eq_zero_of_mod_eq hmod.symm)
    have := Nat.eq_zero_of_dvd_of_lt hd hlt
    omega
  rcases Nat.le_total i j with hij | hij
  · exact key i j hij (by omega) h
  · exact (key j i hij (by omega) h.symm).symm

theorem Wf.pos (h : Wf N slots rd wr) (hlt : rd < wr) : 0 < N := by have := h.room; omega

theorem Wf.length_live (h : Wf N slots rd wr) : (live N slots rd wr).length = wr - rd := by
  have key : ∀ n a, (∀ i, a ≤ i → i < a + n → (slots (i % N)).isSome) →
      ((List.range' a n).filterMap (fun i => slots (i % N))).length = n := by
    intro n
    induction n with
    | zero => intro a _; rfl
    | succ n ih =>
      intro a hs
      obtain ⟨x, hx⟩ := Option.isSome_iff_exists.1 (hs a le_rfl (by omega))
      simp only [List.range'_succ, List.filterMap_cons, hx, List.length_cons]
      rw [ih (a + 1) (fun i h1 h2 => hs i (by omega) (by omega))]
  exact key _ _ (fun i h1 h2 => h.full i h1 (by have := h.le; omega))

/-- The writer's slot is empty whenever the ring holds fewer than `N` messages. -/
theorem Wf.slot_free (h : Wf N slots rd wr) (hlen : (live N slots rd wr).length < N) :
    slots (wr % N) = none := by
  rw [h.length_live] at hlen
  exact h.empty wr le_rfl (by have := h.le; omega)

/-- An empty writer's slot means the ring is not full. -/
theorem Wf.lt_of_free (h : Wf N slots rd wr) (hN : 0 < N) (hs : slots (wr % N) = none) :
    wr < rd + N := by
  by_contra hge
  have hwr : wr = rd + N := by have := h.room; omega
  have hfull := h.full rd le_rfl (by omega)
  rw [hwr, Nat.add_mod_right] at hs
  simp [hs] at hfull

/-- **Writing the empty slot appends to the queue.** -/
theorem Wf.put (h : Wf N slots rd wr) (hN : 0 < N) (hs : slots (wr % N) = none) (x : α) :
    Wf N (Function.update slots (wr % N) (some x)) rd (wr + 1) ∧
      live N (Function.update slots (wr % N) (some x)) rd (wr + 1) = live N slots rd wr ++ [x] := by
  have hlt := h.lt_of_free hN hs
  have hle := h.le
  have hne : ∀ i, rd ≤ i → i < rd + N → i ≠ wr → i % N ≠ wr % N := fun i h1 h2 h3 hm =>
    h3 (window_inj h1 hle h2 hlt hm)
  refine ⟨⟨by omega, by omega, ?_, ?_⟩, ?_⟩
  · intro i h1 h2
    rcases Nat.eq_or_lt_of_le (Nat.lt_succ_iff.1 h2) with rfl | h3
    · simp
    · rw [Function.update_of_ne (hne i h1 (by omega) (by omega))]; exact h.full i h1 h3
  · intro i h1 h2
    rw [Function.update_of_ne (hne i (by omega) h2 (by omega))]
    exact h.empty i (by omega) h2
  · unfold live
    rw [show wr + 1 - rd = (wr - rd) + 1 by omega, List.range'_concat, List.filterMap_append]
    congr 1
    · apply List.filterMap_congr
      intro i hi
      rw [List.mem_range'_1] at hi
      rw [Function.update_of_ne (hne i hi.1 (by omega) (by omega))]
    · rw [show rd + 1 * (wr - rd) = wr by omega]; simp

/-- **Emptying the reader's slot removes the oldest message.** -/
theorem Wf.take (h : Wf N slots rd wr) {x : α} (hs : slots (rd % N) = some x) (hN : 0 < N) :
    Wf N (Function.update slots (rd % N) none) (rd + 1) wr ∧
      live N slots rd wr = x :: live N (Function.update slots (rd % N) none) (rd + 1) wr := by
  have hle := h.le
  have hroom := h.room
  have hlt : rd < wr := by
    by_contra hge
    have := h.empty rd (by omega) (by omega)
    rw [hs] at this; cases this
  have hne : ∀ i, rd < i → i < rd + N → i % N ≠ rd % N := fun i h1 h2 hm =>
    absurd (window_inj (by omega) le_rfl h2 (by omega) hm) (by omega)
  refine ⟨⟨by omega, by omega, ?_, ?_⟩, ?_⟩
  · intro i h1 h2
    rw [Function.update_of_ne (hne i (by omega) (by omega))]; exact h.full i (by omega) h2
  · intro i h1 h2
    rcases Nat.eq_or_lt_of_le (show i ≤ rd + N by omega) with rfl | h3
    · simp
    · rw [Function.update_of_ne (hne i (by omega) h3)]; exact h.empty i h1 h3
  · unfold live
    simp only [show wr - rd = (wr - (rd + 1)) + 1 by omega, List.range'_succ, List.filterMap_cons, hs]
    congr 1
    apply List.filterMap_congr
    intro i hi
    rw [List.mem_range'_1] at hi
    rw [Function.update_of_ne (hne i (by omega) (by omega))]

/-- An empty reader's slot means the ring is empty. -/
theorem Wf.live_nil (h : Wf N slots rd wr) (hs : slots (rd % N) = none) :
    live N slots rd wr = [] := by
  have : rd = wr := by
    by_contra hne
    have := h.full rd le_rfl (by have := h.le; omega)
    rw [hs] at this; cases this
  subst this; exact live_self

/-- The residues of a window of `N` indices are all the slots. -/
theorem window_perm (hN : 0 < N) (rd : ℕ) :
    ((List.range' rd N).map (· % N)).Perm (List.range N) := by
  apply List.Perm.symm
  apply (List.subperm_of_subset List.nodup_range ?_).perm_of_length_le (by simp)
  intro j hj
  rw [List.mem_range] at hj
  rw [List.mem_map]
  -- the representative of `j` at or above `rd`
  refine ⟨rd + (j + (N - rd % N)) % N, ?_, ?_⟩
  · rw [List.mem_range'_1]
    exact ⟨by omega, by have := Nat.mod_lt (j + (N - rd % N)) hN; omega⟩
  · have hr := Nat.mod_lt rd hN
    rw [Nat.add_mod_mod, ← Nat.mod_add_mod, show rd % N + (j + (N - rd % N)) = j + N by omega,
      Nat.add_mod_right, Nat.mod_eq_of_lt hj]

/-- **The slots hold exactly the live messages.** -/
theorem Wf.perm (h : Wf N slots rd wr) : (held N slots).Perm (live N slots rd wr) := by
  rcases Nat.eq_zero_or_pos N with rfl | hN
  · have : rd = wr := by have := h.le; have := h.room; omega
    subst this; simp [held]
  have hsplit : List.range' rd N = List.range' rd (wr - rd) ++ List.range' wr (rd + N - wr) := by
    have h1 := h.le
    have h2 := h.room
    conv_lhs => rw [show N = (wr - rd) + (rd + N - wr) by omega, ← List.range'_append]
    rw [show rd + 1 * (wr - rd) = wr by omega]
  have hrest : (List.range' wr (rd + N - wr)).filterMap (fun i => slots (i % N)) = [] := by
    rw [List.filterMap_eq_nil_iff]
    intro i hi
    rw [List.mem_range'_1] at hi
    exact h.empty i hi.1 (by have := h.room; omega)
  calc (held N slots).Perm (((List.range' rd N).map (· % N)).filterMap slots) :=
        ((window_perm hN rd).symm).filterMap _
    _ = live N slots rd wr := by
        rw [List.filterMap_map, hsplit, List.filterMap_append]
        show _ ++ (List.range' wr (rd + N - wr)).filterMap (fun i => slots (i % N)) = _
        rw [hrest, List.append_nil]; rfl

end OpenHT.Ring
