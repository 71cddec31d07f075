import Mathlib.Data.Nat.Notation

/-!
# Runs with events, and refinement

A step of a system is seen from outside as a list of events.

* `Runs`: the runs of a system, with all their events.
* `Forward`: every step of one system is matched by steps of another that are seen as the same.
* `Forward.runs`: then every run is.
-/

namespace OpenHT.Refine

variable {σ τ β : Type*} {next : σ → List β → σ → Prop} {spec : τ → List β → τ → Prop}

/-- The runs from `s₀`, with their events, oldest first. -/
inductive Runs (next : σ → List β → σ → Prop) (s₀ : σ) : List β → σ → Prop
  | init : Runs next s₀ [] s₀
  | next {es l : List β} {s s' : σ} : Runs next s₀ es s → next s l s' → Runs next s₀ (es ++ l) s'

namespace Runs

variable {s₀ s s' : σ} {es l : List β}

theorem single (h : next s l s') : Runs next s l s' := Runs.next .init h

theorem trans (h : Runs next s₀ es s) (h' : Runs next s l s') : Runs next s₀ (es ++ l) s' := by
  induction h' with
  | init =>
    rw [List.append_nil]
    exact h
  | next _ hn ih =>
    rw [← List.append_assoc]
    exact ih.next hn

/-- **Invariants.** -/
theorem invariant {I : σ → Prop} (h0 : I s₀) (hs : ∀ s l s', I s → next s l s' → I s')
    (h : Runs next s₀ es s) : I s := by
  induction h with
  | init => exact h0
  | next _ hn ih => exact hs _ _ _ ih hn

end Runs

/-- **Forward simulation**: every step is matched by a run with the same events. -/
def Forward (next : σ → List β → σ → Prop) (spec : τ → List β → τ → Prop) (R : σ → τ → Prop) : Prop :=
  ∀ s t l s', R s t → next s l s' → ∃ t', Runs spec t l t' ∧ R s' t'

theorem Forward.runs {R : σ → τ → Prop} {s₀ s : σ} {t₀ : τ} {es : List β} (h : Forward next spec R) (h0 : R s₀ t₀)
    (hr : Runs next s₀ es s) : ∃ t, Runs spec t₀ es t ∧ R s t := by
  induction hr with
  | init => exact ⟨t₀, .init, h0⟩
  | next _ hn ih =>
    obtain ⟨t, ht, hR⟩ := ih
    obtain ⟨t', ht', hR'⟩ := h _ _ _ _ hR hn
    exact ⟨t', ht.trans ht', hR'⟩

end OpenHT.Refine
