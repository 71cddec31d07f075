import Mathlib.Order.MinMax

/-!
# Spans

* `Span`: the elements from `lo` up to, but not including, `hi`.
* `Span.Meets`, `Span.join`: spans that overlap or touch, and what covers both.
* `Span.Before`: a gap between two spans.
-/

namespace OpenHT

structure Span (α : Type*) where
  lo : α
  hi : α
deriving DecidableEq, Repr

namespace Span

variable {α : Type*} [LinearOrder α]

def Has (s : Span α) (a : α) : Prop := s.lo ≤ a ∧ a < s.hi

instance (s : Span α) (a : α) : Decidable (s.Has a) := inferInstanceAs (Decidable (_ ∧ _))

/-- The spans overlap or touch. -/
def Meets (s t : Span α) : Prop := s.lo ≤ t.hi ∧ t.lo ≤ s.hi

instance (s t : Span α) : Decidable (s.Meets t) := inferInstanceAs (Decidable (_ ∧ _))

def join (s t : Span α) : Span α := ⟨min s.lo t.lo, max s.hi t.hi⟩

/-- `s` ends before `t` starts, with something between them. -/
def Before (s t : Span α) : Prop := s.hi < t.lo

/-- `t` is inside `s`. -/
def Covers (s t : Span α) : Prop := s.lo ≤ t.lo ∧ t.hi ≤ s.hi

instance (s t : Span α) : Decidable (s.Covers t) := inferInstanceAs (Decidable (_ ∧ _))

variable {s t u : Span α} {a : α}

/-- **What a join covers.** -/
theorem has_join (h : s.Meets t) : (s.join t).Has a ↔ s.Has a ∨ t.Has a := by
  unfold Has join
  simp only [min_le_iff, lt_max_iff]
  constructor
  · rintro ⟨h1 | h1, h2 | h2⟩
    · exact .inl ⟨h1, h2⟩
    · -- behind the start of `s` and before the end of `t`
      rcases lt_or_ge a s.hi with h3 | h3
      · exact .inl ⟨h1, h3⟩
      · exact .inr ⟨le_trans h.2 h3, h2⟩
    · rcases lt_or_ge a t.hi with h3 | h3
      · exact .inr ⟨h1, h3⟩
      · exact .inl ⟨le_trans h.1 h3, h2⟩
    · exact .inr ⟨h1, h2⟩
  · rintro (⟨h1, h2⟩ | ⟨h1, h2⟩)
    · exact ⟨.inl h1, .inl h2⟩
    · exact ⟨.inr h1, .inr h2⟩

/-- A nonempty span that is not covered has an element outside. -/
theorem exists_outside (hne : t.lo < t.hi) (h : ¬s.Covers t) : ∃ a, t.Has a ∧ ¬s.Has a := by
  by_cases hlo : s.lo ≤ t.lo
  · have hhi : s.hi < t.hi := lt_of_not_ge fun hle => h ⟨hlo, hle⟩
    refine ⟨max t.lo s.hi, ⟨le_max_left _ _, max_lt hne hhi⟩, ?_⟩
    rintro ⟨-, hlt⟩
    exact absurd (le_max_right t.lo s.hi) (not_le_of_gt hlt)
  · refine ⟨t.lo, ⟨le_rfl, hne⟩, ?_⟩
    rintro ⟨hle, -⟩
    exact hlo hle

theorem Before.not_has (h : s.Before t) (hs : s.Has a) : ¬t.Has a := by
  rintro ⟨hle, -⟩
  exact absurd (lt_trans hs.2 h) (not_lt_of_ge hle)

theorem Before.trans (ht : t.lo ≤ t.hi) (h1 : s.Before t) (h2 : t.Before u) : s.Before u :=
  lt_trans h1 (lt_of_le_of_lt ht h2)

/-- Spans that do not meet have a gap between them. -/
theorem before_or_before (h : ¬s.Meets t) : s.Before t ∨ t.Before s := by
  unfold Meets at h
  rw [not_and_or, not_le, not_le] at h
  exact h.symm

end Span

end OpenHT
