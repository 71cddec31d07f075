import Mathlib.Data.Finset.Max
import Mathlib.Data.Fintype.Defs

/-!
# No circular wait between ports and banks

Jobs wait both on a port and in the queue of a bank. A port serves its last job, a bank its
first. If both lists are ordered by one key, the port with the least last job can be served.
-/

namespace OpenHT.Wait

variable {P B J K : Type*} [Fintype P] [LinearOrder K] {port : P → List J} {bank : B → List J}
  {bankOf : J → B} {key : J → K}

/-- The last job of a list has the least key. -/
theorem getLast_le {l : List J} (h : l.Pairwise fun a b => key b ≤ key a) {x y : J}
    (hx : l.getLast? = some x) (hy : y ∈ l) : key x ≤ key y := by
  obtain ⟨l', rfl⟩ : ∃ l', l = l' ++ [x] := by
    rw [List.getLast?_eq_some_iff] at hx
    exact hx
  rcases List.mem_append.1 hy with hy | hy
  · exact (List.pairwise_append.1 h).2.2 y hy x List.mem_cons_self
  · obtain rfl : y = x := by simpa using hy
    exact le_refl _

/-- The first job of a queue has a smaller key than every other. -/
theorem head_lt {l : List J} (h : l.Pairwise fun a b => key a < key b) {x y : J} (hx : l.head? = some x)
    (hy : y ∈ l) : x = y ∨ key x < key y := by
  cases l with
  | nil => cases hx
  | cons a l =>
    obtain rfl : a = x := by simpa using hx
    rcases List.mem_cons.1 hy with hy | hy
    · exact .inl hy.symm
    · exact .inr ((List.pairwise_cons.1 h).1 y hy)

/-- **No circular wait.** -/
theorem exists_served (key : J → K) (hport : ∀ p, (port p).Pairwise fun a b => key b ≤ key a)
    (hbank : ∀ k, (bank k).Pairwise fun a b => key a < key b)
    (hin : ∀ p, ∀ j ∈ port p, j ∈ bank (bankOf j)) (hout : ∀ k, ∀ j ∈ bank k, ∃ p, j ∈ port p)
    (hne : ∃ p, port p ≠ []) :
    ∃ p j, (port p).getLast? = some j ∧ (bank (bankOf j)).head? = some j := by
  classical
  -- The port whose last job has the least key.
  have hbusy : (Finset.univ.filter fun p => port p ≠ []).Nonempty := by
    obtain ⟨p, hp⟩ := hne
    exact ⟨p, by simp [hp]⟩
  have hlast (p : P) (hp : port p ≠ []) : ∃ j, (port p).getLast? = some j :=
    ⟨(port p).getLast hp, List.getLast?_eq_some_getLast hp⟩
  obtain ⟨p₀, hp₀⟩ := hne
  obtain ⟨j₀, hj₀⟩ := hlast p₀ hp₀
  let last : P → J := fun p => (port p).getLast?.getD j₀
  obtain ⟨p, hp, hmin⟩ := Finset.exists_min_image _ (fun p => key (last p)) hbusy
  obtain ⟨j, hj⟩ := hlast p (Finset.mem_filter.1 hp).2
  have hlastj : last p = j := by simp [last, hj]
  refine ⟨p, j, hj, ?_⟩
  have hmem : j ∈ bank (bankOf j) := hin p j (List.mem_of_getLast? hj)
  cases hf : (bank (bankOf j)).head? with
  | none => rw [List.head?_eq_none_iff.1 hf] at hmem; cases hmem
  | some f =>
    rcases head_lt (hbank _) hf hmem with rfl | hlt
    · rfl
    · -- A smaller key in front would be last on no port.
      exfalso
      obtain ⟨p', hp'⟩ := hout _ f (List.mem_of_head? hf)
      have hne' : port p' ≠ [] := List.ne_nil_of_mem hp'
      obtain ⟨j', hj'⟩ := hlast p' hne'
      have h1 : key j' ≤ key f := getLast_le (hport p') hj' hp'
      have h2 := hmin p' (by simp [hne'])
      have hlastj' : last p' = j' := by simp [last, hj']
      rw [hlastj, hlastj'] at h2
      exact absurd hlt (not_lt_of_ge (le_trans h2 h1))

end OpenHT.Wait
