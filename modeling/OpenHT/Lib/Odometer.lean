import Mathlib.Data.List.Nodup
import Mathlib.Data.List.Range
import OpenHT.Lib.Fuel

/-!
# Odometers

A digit steps through its values and says when it starts again; a second digit that steps when the first one does
makes an odometer of both.

* `Path`, `Cycle`: the values that steps go through, and that the last of them starts again.
* `count`, `fixed`, `carry`: a digit that counts, one that does not move, and two digits together.
* `carry_cycle`: an odometer goes through all pairs, in order.
* `loop`: a body for each value up to the start, which may leave the loop.
-/

namespace OpenHT.Odometer

open Fuel

variable {α β σ : Type}

/-- The next value, and whether the digit has started again. -/
abbrev Step (α : Type) := α → α × Bool

/-- The steps go through `l` one after the other, and from its last value to `r`. -/
def Path (f : Step α) (r : α × Bool) : List α → Prop
  | [] => False
  | [a] => f a = r
  | a :: b :: l => f a = (b, false) ∧ Path f r (b :: l)

/-- From the first value of `l` the steps go through `l`, and then start again. -/
def Cycle (f : Step α) : List α → Prop
  | [] => False
  | a :: l => Path f (a, true) (a :: l)

section

variable {f : Step α} {g : Step β} {a x : α} {r : α × Bool} {l k : List α}

theorem Path.append (hl : Path f (x, false) l) (hk : Path f r (x :: k)) : Path f r (l ++ x :: k) := by
  induction l with
  | nil => exact hl.elim
  | cons a l ih =>
    cases l with
    | nil => exact ⟨hl, hk⟩
    | cons b l => exact ⟨hl.1, ih hl.2⟩

/-- A path of other values that steps in the same way. -/
theorem Path.map {g : Step β} {h : α → β} (hsim : ∀ a ∈ l, g (h a) = (h (f a).1, (f a).2)) (hl : Path f r l) :
    Path g (h r.1, r.2) (l.map h) := by
  induction l with
  | nil => exact hl.elim
  | cons a l ih =>
    have hhead := hsim a List.mem_cons_self
    cases l with
    | nil =>
      change g (h a) = _
      rw [hhead, show f a = r from hl]
    | cons b l =>
      rw [hl.1] at hhead
      exact ⟨hhead, ih (fun c hc => hsim c (List.mem_cons_of_mem _ hc)) hl.2⟩

theorem Cycle.map {g : Step β} {h : α → β} (hsim : ∀ a ∈ l, g (h a) = (h (f a).1, (f a).2)) (hl : Cycle f l) :
    Cycle g (l.map h) := by
  cases l with
  | nil => exact hl.elim
  | cons a l => exact Path.map (r := (a, true)) hsim hl

theorem Cycle.ne_nil (hl : Cycle f l) : l ≠ [] := by
  rintro rfl
  exact hl

/-! ## Digits -/

/-- A digit below `d`. -/
def count (d : ℕ) : Step ℕ := fun i => if i + 1 < d then (i + 1, false) else (0, true)

/-- A digit that keeps its value. -/
def fixed : Step α := fun a => (a, true)

/-- Two digits, of which the second one is the fast one. -/
def carry (f : Step α) (g : Step β) : Step (α × β) := fun p =>
  if (g p.2).2 then (((f p.1).1, (g p.2).1), (f p.1).2) else ((p.1, (g p.2).1), false)

theorem fixed_cycle (a : α) : Cycle fixed [a] := rfl

theorem count_path {d i n : ℕ} (h : i + n + 1 = d) : Path (count d) (0, true) (List.range' i (n + 1)) := by
  induction n generalizing i with
  | zero =>
    change count d i = (0, true)
    exact if_neg (by omega)
  | succ n ih => exact ⟨if_pos (by omega), ih (by omega)⟩

theorem count_cycle {d : ℕ} (h : 0 < d) : Cycle (count d) (List.range d) := by
  obtain ⟨n, rfl⟩ : ∃ n, d = n + 1 := ⟨d - 1, by omega⟩
  have hpath : Path (count (n + 1)) (0, true) (List.range' 0 (n + 1)) := count_path (by omega)
  rw [List.range_eq_range']
  exact hpath

/-- The fast digit goes round once. -/
theorem carry_row {k : List β} {y : β} (a : α) (hk : Path g (y, true) k) :
    Path (carry f g) (((f a).1, y), (f a).2) (k.map (a, ·)) := by
  induction k with
  | nil => exact hk.elim
  | cons b k ih =>
    cases k with
    | nil =>
      have hb : g b = (y, true) := hk
      change carry f g (a, b) = _
      unfold carry
      rw [hb]
      rfl
    | cons c k =>
      refine ⟨?_, ih hk.2⟩
      unfold carry
      rw [hk.1]
      rfl

/-- **All pairs, in order.** -/
theorem carry_cycle {k : List β} (hl : Cycle f l) (hk : Cycle g k) : Cycle (carry f g) (l.product k) := by
  cases k with
  | nil => exact hk.elim
  | cons y k =>
    have hpath : ∀ r l, Path f r l → Path (carry f g) ((r.1, y), r.2) (l.product (y :: k)) := by
      intro r l hl
      induction l with
      | nil => exact hl.elim
      | cons a l ih =>
        have hrow := carry_row (f := f) a hk
        cases l with
        | nil =>
          rw [show f a = r from hl] at hrow
          simpa [List.product] using hrow
        | cons b l =>
          rw [hl.1] at hrow
          -- the next row starts with the first value of the fast digit
          have happend := Path.append hrow (k := k.map (b, ·) ++ l.product (y :: k)) (ih hl.2)
          exact happend
    cases l with
    | nil => exact hl.elim
    | cons a l => exact hpath (a, true) (a :: l) hl

/-- Pairs of numbers in order are numbered in order. -/
theorem map_product_range {k : List β} {u : α → ℕ} {v : β → ℕ} {i n m : ℕ} (hl : l.map u = List.range' i n)
    (hk : k.map v = List.range m) :
    (l.product k).map (fun p => u p.1 * m + v p.2) = List.range' (i * m) (n * m) := by
  induction l generalizing i n with
  | nil =>
    obtain rfl : n = 0 := by
      have hlen := congrArg List.length hl
      simpa using hlen.symm
    rw [Nat.zero_mul]
    rfl
  | cons a l ih =>
    obtain ⟨n, rfl⟩ : ∃ j, n = j + 1 := by
      have hlen := congrArg List.length hl
      simp only [List.length_map, List.length_cons, List.length_range'] at hlen
      exact ⟨l.length, hlen.symm⟩
    rw [List.range'_succ, List.map_cons] at hl
    obtain ⟨ha, hl⟩ := List.cons.inj hl
    have hrow : (k.map (a, ·)).map (fun p => u p.1 * m + v p.2) = List.range' (i * m) m := by
      rw [List.map_map, List.range'_eq_map_range, ← hk, List.map_map, ← ha]
      rfl
    have hprod : (a :: l).product k = k.map (a, ·) ++ l.product k := rfl
    rw [hprod, List.map_append, hrow, ih hl, Nat.succ_mul, Nat.succ_mul, Nat.add_comm (n * m), ← List.range'_append_1]

end

/-! ## Loops -/

/-- `do { body } while (!step)`: the body for each value, which may leave the loop. -/
def loop (f : Step α) (body : σ → α → σ × Bool) : ℕ → α → σ → Option σ
  | 0, _, _ => none
  | n + 1, a, s =>
    if (body s a).2 then some (body s a).1
    else if (f a).2 then some (body s a).1
    else loop f body n (f a).1 (body s a).1

section

variable {f : Step α} {body : σ → α → σ × Bool} {P : σ → Prop} {a : α} {l : List α} {s : σ}

theorem loop_path {r : α} (hbody : ∀ s, P s → ∀ a ∈ l, (body s a).2 = false ∧ P (body s a).1)
    (hl : Path f (r, true) l) (ha : l.head? = some a) (hs : P s) {n : ℕ} (hn : l.length ≤ n) :
    loop f body n a s = some (l.foldl (fun s a => (body s a).1) s) ∧ P (l.foldl (fun s a => (body s a).1) s) := by
  induction l generalizing a s n with
  | nil => exact hl.elim
  | cons b l ih =>
    obtain rfl : b = a := Option.some.inj ha
    rw [List.length_cons] at hn
    obtain ⟨n, rfl⟩ : ∃ m, n = m + 1 := ⟨n - 1, by omega⟩
    obtain ⟨hstay, hkeep⟩ := hbody s hs b List.mem_cons_self
    have hgo : ¬(body s b).2 = true := by
      rw [hstay]
      exact Bool.false_ne_true
    rw [loop, if_neg hgo]
    cases l with
    | nil =>
      rw [show f b = (r, true) from hl, if_pos rfl]
      exact ⟨rfl, hkeep⟩
    | cons c l =>
      rw [hl.1, if_neg Bool.false_ne_true]
      exact ih (fun s hs a h => hbody s hs a (List.mem_cons_of_mem _ h)) hl.2 rfl hkeep (by omega)

/-- **A loop whose body keeps `P` and never leaves** folds over the values of the cycle. -/
theorem loop_keeps (hbody : ∀ s, P s → ∀ a ∈ l, (body s a).2 = false ∧ P (body s a).1) (hl : Cycle f l)
    (ha : l.head? = some a) (hs : P s) :
    Returns (fun n => loop f body n a s) (l.foldl (fun s a => (body s a).1) s) ∧
      P (l.foldl (fun s a => (body s a).1) s) := by
  cases l with
  | nil => exact hl.elim
  | cons b l =>
    refine ⟨⟨(b :: l).length, fun n hn => (loop_path hbody hl ha hs hn).1⟩, ?_⟩
    exact (loop_path hbody hl ha hs (Nat.le_refl _)).2

theorem loop_returns (hbody : ∀ s, ∀ a ∈ l, (body s a).2 = false) (hl : Cycle f l) (ha : l.head? = some a) (s : σ) :
    Returns (fun n => loop f body n a s) (l.foldl (fun s a => (body s a).1) s) :=
  (loop_keeps (P := fun _ => True) (fun s _ a h => ⟨hbody s a h, trivial⟩) hl ha trivial).1

end

end OpenHT.Odometer
