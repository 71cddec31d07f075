import Mathlib.Data.Nat.Notation

/-!
# Runs of deterministic machines and their traces

A machine makes a step or has ended; a step can be seen as a list of events.

* `Steps`, `Ends`, `Emits`: runs of a machine.
* `Simulation`: every step of one machine is matched by one or more steps of another.
* `Simulation.ends_iff`, `Simulation.emits_iff`: the two machines behave alike, also when they do not end.
-/

namespace OpenHT.Trace

variable {S T Ev : Type}

/-- `n` steps, with the events they emit. -/
inductive Steps (step : S → Option (List Ev × S)) : ℕ → S → List Ev → S → Prop
  | refl (s : S) : Steps step 0 s [] s
  | head {n : ℕ} {s s' r : S} {τ τ' : List Ev} (h : step s = some (τ, s')) (hs : Steps step n s' τ' r) :
    Steps step (n + 1) s (τ ++ τ') r

/-- A run that ends, with all its events. -/
def Ends (step : S → Option (List Ev × S)) (s : S) (τ : List Ev) (r : S) : Prop :=
  ∃ n, Steps step n s τ r ∧ step r = none

/-- A run that starts with these events. -/
def Emits (step : S → Option (List Ev × S)) (s : S) (τ : List Ev) : Prop :=
  ∃ n τ' r, Steps step n s (τ ++ τ') r

/-- A condition on every state of a run. -/
def Always (step : S → Option (List Ev × S)) (ok : S → Prop) (s : S) : Prop :=
  ∀ n τ r, Steps step n s τ r → ok r

section

variable {step : S → Option (List Ev × S)} {n m : ℕ} {s r r' : S} {τ τ' : List Ev}

namespace Steps

theorem single {s' : S} (h : step s = some (τ, s')) : Steps step 1 s τ s' := by
  have hs := Steps.head h (.refl s')
  rwa [List.append_nil] at hs

theorem trans (h : Steps step n s τ r) (h' : Steps step m r τ' r') : Steps step (n + m) s (τ ++ τ') r' := by
  induction h with
  | refl s =>
    rw [Nat.zero_add]
    exact h'
  | head hstep _ ih =>
    rw [Nat.add_right_comm, List.append_assoc]
    exact .head hstep (ih h')

/-- A silent step before others. -/
theorem silent {s' : S} (h : step s = some ([], s')) (hs : Steps step n s' τ r) : Steps step (n + 1) s τ r :=
  .head h hs

/-- A step before silent ones. -/
theorem event {s' : S} (h : step s = some (τ, s')) (hs : Steps step n s' [] r) : Steps step (n + 1) s τ r := by
  have hall := Steps.head h hs
  rwa [List.append_nil] at hall

/-- A step with one event. -/
theorem emit {s' : S} {e : Ev} (h : step s = some ([e], s')) (hs : Steps step n s' τ r) :
    Steps step (n + 1) s (e :: τ) r := .head h hs

/-- **The machine is deterministic.** The longer run goes on from the end of the shorter one. -/
theorem extend (h : Steps step n s τ r) (h' : Steps step m s τ' r') (hle : n ≤ m) :
    ∃ k τ'', τ' = τ ++ τ'' ∧ n + k = m ∧ Steps step k r τ'' r' := by
  induction h generalizing m τ' with
  | refl s => exact ⟨m, τ', rfl, Nat.zero_add m, h'⟩
  | head hstep _ ih =>
    cases h' with
    | refl _ => cases hle
    | head hstep' hs' =>
      rw [hstep] at hstep'
      cases hstep'
      obtain ⟨k, τ'', rfl, hk, hrest⟩ := ih hs' (Nat.le_of_succ_le_succ hle)
      exact ⟨k, τ'', (List.append_assoc ..).symm, by omega, hrest⟩

/-- Nothing comes after the end. -/
theorem stuck (h : Steps step n s τ r) (hend : step s = none) : n = 0 ∧ τ = [] ∧ r = s := by
  cases h with
  | refl _ => exact ⟨rfl, rfl, rfl⟩
  | head hstep _ =>
    rw [hend] at hstep
    cases hstep

end Steps

/-- No run is longer than one that ends. -/
theorem Steps.of_ends (h : Steps step n s τ r) (hend : step r = none) (h' : Steps step m s τ' r') :
    m ≤ n ∧ ∃ τ'', τ = τ' ++ τ'' := by
  by_cases hle : m ≤ n
  · obtain ⟨k, τ'', rfl, -, -⟩ := h'.extend h hle
    exact ⟨hle, τ'', rfl⟩
  · obtain ⟨k, τ'', -, hk, hrest⟩ := h.extend h' (Nat.le_of_not_le hle)
    have := (hrest.stuck hend).1
    omega

theorem Ends.unique (h : Ends step s τ r) (h' : Ends step s τ' r') : τ = τ' ∧ r = r' := by
  obtain ⟨n, hs, hend⟩ := h
  obtain ⟨m, hs', hend'⟩ := h'
  obtain ⟨hmn, -⟩ := hs.of_ends hend hs'
  obtain ⟨k, τ'', rfl, -, hrest⟩ := hs'.extend hs hmn
  obtain ⟨-, rfl, rfl⟩ := hrest.stuck hend'
  exact ⟨List.append_nil _, rfl⟩

theorem Ends.head {s' : S} (hstep : step s = some (τ, s')) (h : ∃ τ' r, Ends step s' τ' r) :
    ∃ τ' r, Ends step s τ' r := by
  obtain ⟨τ', r, n, hs, hend⟩ := h
  exact ⟨_, r, n + 1, .head hstep hs, hend⟩

/-- What comes after the first steps of a run that ends, ends. -/
theorem Ends.after (h : Ends step s τ r) (hs : Steps step n s τ' r') : ∃ τ'', Ends step r' τ'' r := by
  obtain ⟨m, hm, hend⟩ := h
  obtain ⟨hle, -⟩ := hm.of_ends hend hs
  obtain ⟨k, τ'', -, -, hrest⟩ := hs.extend hm hle
  exact ⟨τ'', k, hrest, hend⟩

/-- A machine that can always go on does not end. -/
theorem not_ends {bad : S → Prop} (hgo : ∀ s, bad s → ∃ τ s', step s = some (τ, s') ∧ bad s') (hbad : bad s) :
    ¬∃ τ r, Ends step s τ r := by
  rintro ⟨τ, r, n, hs, hend⟩
  induction hs with
  | refl s =>
    obtain ⟨τ', s', hstep, -⟩ := hgo s hbad
    rw [hend] at hstep
    cases hstep
  | head hstep _ ih =>
    obtain ⟨τ', s', hstep', hbad'⟩ := hgo _ hbad
    rw [hstep] at hstep'
    cases hstep'
    exact ih hbad' hend

/-- A machine makes as many steps as one likes, or ends. -/
theorem progress (step : S → Option (List Ev × S)) (n : ℕ) (s : S) :
    (∃ τ r, Steps step n s τ r) ∨ ∃ τ r, Ends step s τ r := by
  induction n generalizing s with
  | zero => exact Or.inl ⟨[], s, .refl s⟩
  | succ n ih =>
    cases hstep : step s with
    | none => exact Or.inr ⟨[], s, 0, .refl s, hstep⟩
    | some p =>
      obtain ⟨τ₁, s'⟩ := p
      rcases ih s' with ⟨τ, r, hs⟩ | ⟨τ, r, k, hs, hend⟩
      · exact Or.inl ⟨_, r, .head hstep hs⟩
      · exact Or.inr ⟨_, r, k + 1, .head hstep hs, hend⟩

theorem Always.next {ok : S → Prop} {s' : S} (h : Always step ok s) (hstep : step s = some (τ, s')) :
    Always step ok s' := fun n _ r hs => h (n + 1) _ r (.head hstep hs)

theorem Always.here {ok : S → Prop} (h : Always step ok s) : ok s := h 0 [] s (.refl s)

end

/-- **Forward simulation.** Where the first machine is `ok`, each of its steps is matched by one or more steps of
the second with the same events, and the end by an end after silent steps; `fin` relates the ends. -/
structure Simulation (step : S → Option (List Ev × S)) (step' : T → Option (List Ev × T)) (ok : S → Prop)
    (fin : S → T → Prop) (R : S → T → Prop) : Prop where
  next : ∀ s t τ s', R s t → ok s → step s = some (τ, s') → ∃ n t', Steps step' (n + 1) t τ t' ∧ R s' t'
  last : ∀ s t, R s t → ok s → step s = none → ∃ n t', Steps step' n t [] t' ∧ step' t' = none ∧ fin s t'

namespace Simulation

variable {step : S → Option (List Ev × S)} {step' : T → Option (List Ev × T)} {ok : S → Prop}
  {fin R : S → T → Prop} {n : ℕ} {s r : S} {t u : T} {τ : List Ev}

theorem steps (h : Simulation step step' ok fin R) (hs : Steps step n s τ r) (hR : R s t)
    (hok : Always step ok s) : ∃ m u, n ≤ m ∧ Steps step' m t τ u ∧ R r u := by
  induction hs generalizing t with
  | refl s => exact ⟨0, t, Nat.le_refl 0, .refl t, hR⟩
  | head hstep _ ih =>
    obtain ⟨k, t', ht, hR'⟩ := h.next _ _ _ _ hR hok.here hstep
    obtain ⟨m, u, hle, hu, hRu⟩ := ih hR' (hok.next hstep)
    exact ⟨k + 1 + m, u, by omega, ht.trans hu, hRu⟩

theorem ends (h : Simulation step step' ok fin R) (hs : Ends step s τ r) (hR : R s t)
    (hok : Always step ok s) : ∃ u, Ends step' t τ u ∧ fin r u := by
  obtain ⟨n, hs, hend⟩ := hs
  obtain ⟨m, u, -, hu, hRu⟩ := h.steps hs hR hok
  obtain ⟨k, v, hv, hendv, hfin⟩ := h.last _ _ hRu (hok n τ r hs) hend
  refine ⟨v, ⟨m + k, ?_, hendv⟩, hfin⟩
  have huv := hu.trans hv
  rwa [List.append_nil] at huv

/-- **The second machine ends when the first does**, after the same events. -/
theorem ends_iff (h : Simulation step step' ok fin R) (hR : R s t) (hok : Always step ok s) (τ : List Ev) :
    (∃ r, Ends step s τ r) ↔ ∃ u, Ends step' t τ u := by
  constructor
  · rintro ⟨r, hr⟩
    obtain ⟨u, hu, -⟩ := h.ends hr hR hok
    exact ⟨u, hu⟩
  · rintro ⟨u, n, hu, hend⟩
    rcases progress step (n + 1) s with ⟨τ', r, hs⟩ | ⟨τ', r, hr⟩
    · -- the second machine would make more steps than it does
      obtain ⟨m, v, hle, hv, -⟩ := h.steps hs hR hok
      have := (hu.of_ends hend hv).1
      omega
    · obtain ⟨v, hv, -⟩ := h.ends hr hR hok
      obtain ⟨rfl, -⟩ := hv.unique ⟨n, hu, hend⟩
      exact ⟨r, hr⟩

/-- The ends of the two machines are related. -/
theorem ends_fin (h : Simulation step step' ok fin R) (hR : R s t) (hok : Always step ok s)
    (hr : Ends step s τ r) (hu : Ends step' t τ u) : fin r u := by
  obtain ⟨v, hv, hfin⟩ := h.ends hr hR hok
  obtain ⟨-, rfl⟩ := hv.unique hu
  exact hfin

/-- **Both machines start with the same events.** -/
theorem emits_iff (h : Simulation step step' ok fin R) (hR : R s t) (hok : Always step ok s) (τ : List Ev) :
    Emits step s τ ↔ Emits step' t τ := by
  constructor
  · rintro ⟨n, τ', r, hs⟩
    obtain ⟨m, u, -, hu, -⟩ := h.steps hs hR hok
    exact ⟨m, τ', u, hu⟩
  · rintro ⟨n, τ', u, hu⟩
    rcases progress step n s with ⟨τ₁, r, hs⟩ | ⟨τ₁, r, hr⟩
    · obtain ⟨m, v, hle, hv, -⟩ := h.steps hs hR hok
      obtain ⟨k, τ₂, rfl, -, -⟩ := hu.extend hv hle
      exact ⟨n, τ' ++ τ₂, r, by rw [← List.append_assoc]; exact hs⟩
    · obtain ⟨v, ⟨m, hv, hend⟩, -⟩ := h.ends hr hR hok
      obtain ⟨-, τ₂, rfl⟩ := hv.of_ends hend hu
      obtain ⟨k, hs, -⟩ := hr
      exact ⟨k, τ' ++ τ₂, r, by rw [← List.append_assoc]; exact hs⟩

end Simulation

end OpenHT.Trace
