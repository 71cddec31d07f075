import Mathlib.Init

/-!
# Sequential transducers

A transducer reads a list of inputs and writes a list of outputs for each of them; `ok`
says which inputs are legal in a state. `Path T s l s'` is a legal run over `l`.

* `Path.append`, `Path.output_append`: runs and their outputs compose.
* `Path.invariant`: what every legal input keeps, a legal run keeps.
-/

namespace OpenHT

/-- States `σ`, inputs `α`, outputs `β`. -/
structure Transducer (σ α β : Type*) where
  next : σ → α → σ
  out : σ → α → List β
  ok : σ → α → Prop

namespace Transducer

variable {σ α β : Type*} {T : Transducer σ α β} {s s' s'' : σ} {a : α} {l l' : List α}

/-- The output over a list of inputs. -/
def output (T : Transducer σ α β) : σ → List α → List β
  | _, [] => []
  | s, a :: l => T.out s a ++ T.output (T.next s a) l

/-- Every input of `l` is legal from `s` on, and the run ends in `s'`. -/
def Path (T : Transducer σ α β) : σ → List α → σ → Prop
  | s, [], s' => s = s'
  | s, a :: l, s' => T.ok s a ∧ T.Path (T.next s a) l s'

@[simp] theorem output_nil (s : σ) : T.output s [] = [] := rfl

theorem output_cons (s : σ) (a : α) (l : List α) :
    T.output s (a :: l) = T.out s a ++ T.output (T.next s a) l := rfl

theorem Path.nil (s : σ) : T.Path s [] s := rfl

theorem path_cons : T.Path s (a :: l) s' ↔ T.ok s a ∧ T.Path (T.next s a) l s' := Iff.rfl

/-- Two runs in a row. -/
theorem Path.append (h : T.Path s l s') (h' : T.Path s' l' s'') : T.Path s (l ++ l') s'' := by
  induction l generalizing s with
  | nil =>
    cases h
    exact h'
  | cons a l ih => exact ⟨h.1, ih h.2⟩

/-- One more legal input. -/
theorem Path.snoc (h : T.Path s l s') (ha : T.ok s' a) : T.Path s (l ++ [a]) (T.next s' a) :=
  h.append ⟨ha, rfl⟩

/-- **The output of two runs in a row.** -/
theorem Path.output_append (h : T.Path s l s') (l' : List α) :
    T.output s (l ++ l') = T.output s l ++ T.output s' l' := by
  induction l generalizing s with
  | nil =>
    cases h
    rfl
  | cons a l ih =>
    rw [List.cons_append, output_cons, output_cons, ih h.2, List.append_assoc]

/-- What every legal input keeps, a legal run keeps. -/
theorem Path.invariant {I : σ → Prop} (hI : ∀ s a, I s → T.ok s a → I (T.next s a))
    (h : T.Path s l s') (hs : I s) : I s' := by
  induction l generalizing s with
  | nil =>
    cases h
    exact hs
  | cons a l ih => exact ih h.2 (hI s a hs h.1)

end Transducer

end OpenHT
