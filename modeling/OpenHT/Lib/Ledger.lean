import Mathlib.Data.List.Range
import Mathlib.Data.Nat.Notation

/-!
# A log of the parts of jobs

Jobs are done in parts `0, 1, …`; the log has a job and a part for every part that was done.

* `parts`: the parts of one job, in the order of the log.
* `parts_next`: a job whose first `n` parts were done in order has done `n + 1` after the next.
* `left`: the parts of a list of jobs that are still to be done.
-/

namespace OpenHT.Ledger

variable {κ : Type*} [DecidableEq κ]

/-- The parts of job `k`, oldest first. -/
def parts (log : List (κ × ℕ)) (k : κ) : List ℕ := (log.filter fun e => e.1 = k).map Prod.snd

variable {log : List (κ × ℕ)} {k j : κ} {n : ℕ}

@[simp] theorem parts_nil (k : κ) : parts [] k = [] := rfl

theorem parts_append (l : List (κ × ℕ)) : parts (log ++ l) k = parts log k ++ parts l k := by
  simp [parts]

/-- Another job's part changes nothing. -/
theorem parts_append_of_ne (h : j ≠ k) : parts (log ++ [(j, n)]) k = parts log k := by
  rw [parts_append]
  simp [parts, h]

/-- **The next part.** -/
theorem parts_next (h : parts log k = List.range n) : parts (log ++ [(k, n)]) k = List.range (n + 1) := by
  rw [parts_append, h, List.range_succ]
  simp [parts]

/-- What `jobs`, given with their number of parts, still have to do. -/
def left : List (κ × ℕ) → List (κ × ℕ) → ℕ
  | [], _ => 0
  | j :: jobs, log => (j.2 - (parts log j.1).length) + left jobs log

theorem left_append_le (log jobs l : List (κ × ℕ)) : left jobs (log ++ l) ≤ left jobs log := by
  induction jobs with
  | nil => exact Nat.le_refl _
  | cons j jobs ih =>
    have hj : (parts log j.1).length ≤ (parts (log ++ l) j.1).length := by
      rw [parts_append, List.length_append]
      omega
    simp only [left] at ih ⊢
    omega

/-- A part of a listed job that was still to be done. -/
theorem left_append_lt {jobs : List (κ × ℕ)} {size : ℕ} (hk : (k, size) ∈ jobs)
    (h : (parts log k).length < size) : left jobs (log ++ [(k, n)]) < left jobs log := by
  induction jobs with
  | nil => cases hk
  | cons j jobs ih =>
    have hlen : (parts (log ++ [(k, n)]) k).length = (parts log k).length + 1 := by simp [parts]
    have hrest := left_append_le log jobs [(k, n)]
    by_cases hj : j = (k, size)
    · subst hj
      simp only [left] at hrest ⊢
      omega
    · have hk' : (k, size) ∈ jobs := by
        rcases List.mem_cons.1 hk with h | h
        · exact absurd h.symm hj
        · exact h
      have hrest := ih hk'
      have hle : (parts log j.1).length ≤ (parts (log ++ [(k, n)]) j.1).length := by
        rw [parts_append, List.length_append]
        omega
      simp only [left] at hrest ⊢
      omega

/-- Nothing is left when every job has all its parts. -/
theorem left_eq_zero {jobs : List (κ × ℕ)} (h : ∀ j ∈ jobs, j.2 ≤ (parts log j.1).length) :
    left jobs log = 0 := by
  induction jobs with
  | nil => rfl
  | cons j jobs ih =>
    have hj := h j List.mem_cons_self
    have hrest := ih fun i hi => h i (List.mem_cons_of_mem j hi)
    simp only [left] at hrest ⊢
    omega

end OpenHT.Ledger
