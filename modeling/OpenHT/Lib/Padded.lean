import Mathlib.Data.List.Basic

/-!
# Lists with further elements

* `Padded a r j`: the list `j` is `r` with further elements `a` anywhere.
* `Padded.shift`: a word that starts `j`, and starts `r` behind an `a`, has no other element than `a`.
-/

namespace OpenHT

variable {α : Type} {a : α} {r r' j j' w : List α}

/-- The list `j` is `r` with further elements `a`. -/
inductive Padded (a : α) : List α → List α → Prop
  | nil : Padded a [] []
  | cons (x : α) {r j : List α} : Padded a r j → Padded a (x :: r) (x :: j)
  | pad {r j : List α} : Padded a r j → Padded a r (a :: j)

namespace Padded

theorem refl (r : List α) : Padded a r r := by
  induction r with
  | nil => exact nil
  | cons x r ih => exact cons x ih

theorem append (h : Padded a r j) (h' : Padded a r' j') : Padded a (r ++ r') (j ++ j') := by
  induction h with
  | nil => exact h'
  | cons x _ ih => exact cons x ih
  | pad _ ih => exact pad ih

/-- Behind some elements `a`: each element of the word is the one before it in `r`, or a further one. -/
theorem shift_replicate (w : List α) : ∀ {m : ℕ} {r j : List α}, Padded a (List.replicate (m + 1) a ++ r) j →
    w <+: r → w <+: j → ∀ x ∈ w, x = a := by
  induction w with
  | nil => intro m r j _ _ _ x hx; cases hx
  | cons y w ih =>
    rintro m r j h ⟨r', rfl⟩ ⟨j', rfl⟩
    have hleft : ∀ s : List α, w <+: w ++ s := fun s => List.prefix_append w s
    cases h with
    | cons _ h =>
      have hshift : List.replicate m a ++ (a :: w ++ r') = List.replicate (m + 1) a ++ (w ++ r') := by
        rw [List.replicate_succ', List.append_assoc]
        rfl
      change Padded a (List.replicate m a ++ (a :: w ++ r')) (w ++ j') at h
      rw [hshift] at h
      have hrest := ih h (hleft r') (hleft j')
      intro x hx
      rcases List.mem_cons.1 hx with rfl | hx
      · rfl
      · exact hrest x hx
    | pad h =>
      have hshift : List.replicate (m + 1) a ++ (a :: w ++ r') = List.replicate (m + 1 + 1) a ++ (w ++ r') := by
        rw [@List.replicate_succ' (m + 1), List.append_assoc]
        rfl
      change Padded a (List.replicate (m + 1) a ++ (a :: w ++ r')) (w ++ j') at h
      rw [hshift] at h
      have hrest := ih h (hleft r') (hleft j')
      intro x hx
      rcases List.mem_cons.1 hx with rfl | hx
      · rfl
      · exact hrest x hx

/-- A word that starts `j`, and `r` behind its first element. -/
theorem shift (h : Padded a (a :: r) j) (hr : w <+: r) (hj : w <+: j) : ∀ x ∈ w, x = a :=
  @shift_replicate α a w 0 r j h hr hj

end Padded

end OpenHT
