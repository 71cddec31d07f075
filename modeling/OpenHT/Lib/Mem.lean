import Mathlib.Data.List.Range
import Mathlib.Logic.Function.Basic

/-!
# Word-addressed memory

A memory is a total function from word addresses to words; `write` stores a list
of words from an address on (`memcpy` into the memory) and `read` takes `n` words
(`memcpy` out of it).
-/

namespace OpenHT

/-- A word-addressed memory. -/
abbrev Mem (α : Type*) := ℕ → α

namespace Mem

variable {α : Type*} (m : Mem α) (a : ℕ)

/-- Store `l` from address `a` on. -/
def write (l : List α) : Mem α := fun x => if a ≤ x then (l[x - a]?).getD (m x) else m x

/-- The `n` words from address `a` on. -/
def read (n : ℕ) : List α := (List.range n).map (fun i => m (a + i))

@[simp] theorem read_zero : m.read a 0 = [] := rfl

@[simp] theorem length_read (n : ℕ) : (m.read a n).length = n := by simp [read]

theorem write_nil : m.write a [] = m := by funext x; simp [write]

variable {m a}

theorem write_of_lt {l : List α} {x : ℕ} (h : x < a) : m.write a l x = m x := by
  simp [write, Nat.not_le.2 h]

theorem write_of_ge {l : List α} {x : ℕ} (h : a + l.length ≤ x) : m.write a l x = m x := by
  simp [write, List.getElem?_eq_none (show l.length ≤ x - a by omega)]

/-- Two memories that agree on the words read give the same words. -/
theorem read_congr {m' : Mem α} {n : ℕ} (h : ∀ x, a ≤ x → x < a + n → m x = m' x) :
    m.read a n = m'.read a n := by
  unfold read
  apply List.map_congr_left
  intro i hi
  exact h _ (by omega) (by have := List.mem_range.1 hi; omega)

/-- A write elsewhere does not change what is read. -/
theorem read_write_disjoint {l : List α} {b n : ℕ} (h : b + n ≤ a ∨ a + l.length ≤ b) :
    (m.write a l).read b n = m.read b n := by
  apply read_congr
  intro x h1 h2
  rcases h with h | h
  · exact write_of_lt (by omega)
  · exact write_of_ge (by omega)

/-- What was written is read back. -/
theorem read_write_self (l : List α) : (m.write a l).read a l.length = l := by
  apply List.ext_getElem?
  intro i
  by_cases hi : i < l.length
  · simp [read, write, hi]
  · rw [List.getElem?_eq_none (by simpa [read] using hi), List.getElem?_eq_none (by omega)]

theorem read_add (n k : ℕ) : m.read a (n + k) = m.read a n ++ m.read (a + n) k := by
  simp only [read, List.range_add, List.map_append, List.map_map]
  congr 1
  apply List.map_congr_left
  intro i _
  simp [Nat.add_assoc]

/-- **Writing behind what is already there appends to it.** -/
theorem read_write_append (n : ℕ) (l : List α) :
    (m.write (a + n) l).read a (n + l.length) = m.read a n ++ l := by
  rw [read_add, read_write_self, read_write_disjoint (Or.inl le_rfl)]

theorem read_take {n k : ℕ} (h : k ≤ n) : (m.read a n).take k = m.read a k := by
  obtain ⟨d, rfl⟩ := Nat.exists_eq_add_of_le h
  rw [read_add, List.take_left' (length_read m a k)]

theorem read_drop (n k : ℕ) : (m.read a (n + k)).drop n = m.read (a + n) k := by
  rw [read_add, List.drop_left' (length_read m a n)]

end Mem

end OpenHT
