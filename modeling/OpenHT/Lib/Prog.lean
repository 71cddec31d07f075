import OpenHT.Lib.Fuel

/-!
# Programs with loops

A program changes a state and has a result, or it ends on the way. Its loops and its recursive calls take fuel.

* `Prog`, `loop`: programs, and a loop that carries a value from one round to the next.
* `Total`: with enough fuel the program comes to an end, and what it returns is as stated.
* `Total.bind`, `Total.loop`, `Total.call`: the rules.
* `Agree`: two programs are the same with one fuel, as a recursive call and its body are.
* `Ends.loop_step`, `Hangs`, `HangsRounds`: a loop after a round, and programs and loops that no fuel is enough for.
-/

namespace OpenHT.Program

/-- A program, as a function of its fuel: `none` where the fuel runs out, `some none` where the program ends. -/
def Prog (σ α : Type) : Type := ℕ → σ → Option (Option (α × σ))

variable {σ α β γ : Type} {s : σ} {Q : α → σ → Prop}

instance : Monad (Prog σ) where
  pure a := fun _ s => some (some (a, s))
  bind p k := fun n s =>
    match p n s with
    | none => none
    | some none => some none
    | some (some (a, s')) => k a n s'

def get : Prog σ σ := fun _ s => some (some (s, s))

def modify (f : σ → σ) : Prog σ Unit := fun _ s => some (some ((), f s))

/-- The program ends here. -/
def stop : Prog σ α := fun _ _ => some none

/-- The rounds of a loop, each of which goes on with a value or ends the loop with one. -/
def rounds (round : β → σ → Option (Option ((β ⊕ α) × σ))) : ℕ → β → σ → Option (Option (α × σ))
  | 0, _, _ => none
  | n + 1, b, s =>
    match round b s with
    | none => none
    | some none => some none
    | some (some (.inr a, s')) => some (some (a, s'))
    | some (some (.inl b', s')) => rounds round n b' s'

attribute [local simp] rounds

def loop (round : β → Prog σ (β ⊕ α)) (b : β) : Prog σ α := fun n s => rounds (fun b => round b n) n b s

/-- With enough fuel the program ends as `r` says. -/
def Ends (p : Prog σ α) (s : σ) (r : Option (α × σ)) : Prop := Fuel.Returns (fun n => p n s) r

/-- **Total correctness**, where it is no error to end on the way. -/
def Total (p : Prog σ α) (s : σ) (Q : α → σ → Prop) : Prop :=
  ∃ r, Ends p s r ∧ ∀ a s', r = some (a, s') → Q a s'

theorem Ends.pure (a : α) (s : σ) : Ends (pure a : Prog σ α) s (some (a, s)) := Fuel.Returns.const _

theorem Ends.bind {p : Prog σ α} {k : α → Prog σ β} {a : α} {s' : σ} {r : Option (β × σ)}
    (hp : Ends p s (some (a, s'))) (hk : Ends (k a) s' r) : Ends (p >>= k) s r := by
  obtain ⟨N, hN⟩ := hp
  obtain ⟨M, hM⟩ := hk
  refine ⟨max N M, fun n hn => ?_⟩
  have hpn : p n s = some (some (a, s')) := hN n (by omega)
  show (match p n s with
    | none => none
    | some none => some none
    | some (some (a, s')) => k a n s') = some r
  rw [hpn]
  exact hM n (by omega)

theorem Ends.bind_stop {p : Prog σ α} {k : α → Prog σ β} (hp : Ends p s none) : Ends (p >>= k) s none := by
  obtain ⟨N, hN⟩ := hp
  refine ⟨N, fun n hn => ?_⟩
  have hpn : p n s = some none := hN n hn
  show (match p n s with
    | none => none
    | some none => some none
    | some (some (a, s')) => k a n s') = some none
  rw [hpn]

theorem Ends.get_bind {k : σ → Prog σ α} {r : Option (α × σ)} (h : Ends (k s) s r) : Ends (Program.get >>= k) s r :=
  Ends.bind (Fuel.Returns.const _) h

theorem Ends.modify_bind {f : σ → σ} {k : Unit → Prog σ α} {r : Option (α × σ)} (h : Ends (k ()) (f s) r) :
    Ends (Program.modify f >>= k) s r := Ends.bind (Fuel.Returns.const _) h

/-- A call that takes one unit of fuel. -/
theorem Ends.call {p q : Prog σ α} {r : Option (α × σ)} (h : ∀ n s, p (n + 1) s = q n s) (hq : Ends q s r) :
    Ends p s r := Fuel.Returns.succ (fun n => h n s) hq

/-- The rounds of a loop end as `r` says. The fuel of a round and the number of the rounds are independent. -/
def EndsRounds (round : β → Prog σ (β ⊕ α)) (b : β) (s : σ) (r : Option (α × σ)) : Prop :=
  ∃ N, ∀ n m, N ≤ n → N ≤ m → rounds (fun b => round b n) m b s = some r

namespace EndsRounds

variable {round : β → Prog σ (β ⊕ α)} {b b' : β} {a : α} {s' : σ} {r : Option (α × σ)}

theorem ends (h : EndsRounds round b s r) : Ends (loop round b) s r := by
  obtain ⟨N, hN⟩ := h
  exact ⟨N, fun n hn => hN n n hn hn⟩

/-- The last round. -/
theorem last (h : Ends (round b) s (some (.inr a, s'))) : EndsRounds round b s (some (a, s')) := by
  obtain ⟨N, hN⟩ := h
  refine ⟨N + 1, fun n m hn hm => ?_⟩
  obtain ⟨k, rfl⟩ : ∃ k, m = k + 1 := ⟨m - 1, by omega⟩
  have hon : round b n s = some (some (.inr a, s')) := hN n (by omega)
  rw [rounds, hon]

theorem stop (h : Ends (round b) s none) : EndsRounds round b s none := by
  obtain ⟨N, hN⟩ := h
  refine ⟨N + 1, fun n m hn hm => ?_⟩
  obtain ⟨k, rfl⟩ : ∃ k, m = k + 1 := ⟨m - 1, by omega⟩
  have hon : round b n s = some none := hN n (by omega)
  rw [rounds, hon]

/-- A round before others. -/
theorem next (h : Ends (round b) s (some (.inl b', s'))) (hrest : EndsRounds round b' s' r) :
    EndsRounds round b s r := by
  obtain ⟨N, hN⟩ := h
  obtain ⟨M, hM⟩ := hrest
  refine ⟨max N M + 1, fun n m hn hm => ?_⟩
  obtain ⟨k, rfl⟩ : ∃ k, m = k + 1 := ⟨m - 1, by omega⟩
  have hon : round b n s = some (some (.inl b', s')) := hN n (by omega)
  rw [rounds, hon]
  exact hM n k (by omega) (by omega)

end EndsRounds

theorem Ends.unique {p : Prog σ α} {r r' : Option (α × σ)} (h : Ends p s r) (h' : Ends p s r') : r = r' :=
  Fuel.Returns.unique h h'

namespace Total

theorem pure {a : α} (h : Q a s) : Total (pure a : Prog σ α) s Q := by
  refine ⟨_, Ends.pure a s, ?_⟩
  rintro _ _ ⟨⟩
  exact h

theorem get {Q : σ → σ → Prop} (h : Q s s) : Total get s Q := by
  refine ⟨_, Fuel.Returns.const _, ?_⟩
  rintro _ _ ⟨⟩
  exact h

theorem modify {f : σ → σ} {Q : Unit → σ → Prop} (h : Q () (f s)) : Total (modify f) s Q := by
  refine ⟨_, Fuel.Returns.const _, ?_⟩
  rintro _ _ ⟨⟩
  exact h

theorem stop : Total stop s Q := by
  refine ⟨_, Fuel.Returns.const _, ?_⟩
  rintro _ _ ⟨⟩

theorem mono {p : Prog σ α} {R : α → σ → Prop} (h : Total p s R) (hQ : ∀ a s', R a s' → Q a s') : Total p s Q := by
  obtain ⟨r, hr, hR⟩ := h
  exact ⟨r, hr, fun a s' ha => hQ a s' (hR a s' ha)⟩

theorem bind {p : Prog σ α} {k : α → Prog σ β} {R : α → σ → Prop} {Q : β → σ → Prop} (hp : Total p s R)
    (hk : ∀ a s', R a s' → Total (k a) s' Q) : Total (p >>= k) s Q := by
  obtain ⟨r, hr, hR⟩ := hp
  cases r with
  | none =>
    refine ⟨none, hr.bind_stop, ?_⟩
    rintro _ _ ⟨⟩
  | some x =>
    obtain ⟨a, s'⟩ := x
    obtain ⟨r, hr', hQ⟩ := hk a s' (hR a s' rfl)
    exact ⟨r, hr.bind hr', hQ⟩

theorem ite {c : Prop} [Decidable c] {p q : Prog σ α} (hp : c → Total p s Q) (hq : ¬ c → Total q s Q) :
    Total (if c then p else q) s Q := by
  by_cases h : c
  · rw [if_pos h]
    exact hp h
  · rw [if_neg h]
    exact hq h

/-- Two statements about one program. -/
theorem and {p : Prog σ α} {R : α → σ → Prop} (h : Total p s Q) (h' : Total p s R) :
    Total p s fun a s' => Q a s' ∧ R a s' := by
  obtain ⟨r, hr, hQ⟩ := h
  obtain ⟨r', hr', hR⟩ := h'
  obtain rfl := hr.unique hr'
  exact ⟨r, hr, fun a s' ha => ⟨hQ a s' ha, hR a s' ha⟩⟩

/-- What a program returns is how it ends. -/
theorem ends {p : Prog σ α} (h : Total p s Q) : Total p s fun a s' => Q a s' ∧ Ends p s (some (a, s')) := by
  obtain ⟨r, hr, hQ⟩ := h
  refine ⟨r, hr, fun a s' ha => ⟨hQ a s' ha, ?_⟩⟩
  rw [← ha]
  exact hr

theorem of_ends {p : Prog σ α} {a : α} {s' : σ} (h : Total p s Q) (hends : Ends p s (some (a, s'))) : Q a s' := by
  obtain ⟨r, hr, hQ⟩ := h
  exact hQ a s' (hr.unique hends)

theorem get_bind {k : σ → Prog σ α} (h : Total (k s) s Q) : Total (Program.get >>= k) s Q :=
  bind (R := fun a s' => a = s ∧ s' = s) (get ⟨rfl, rfl⟩) fun _ _ hs => by
    rw [hs.1, hs.2]
    exact h

theorem modify_bind {f : σ → σ} {k : Unit → Prog σ α} (h : Total (k ()) (f s) Q) :
    Total (Program.modify f >>= k) s Q :=
  bind (R := fun _ s' => s' = f s) (modify rfl) fun _ _ hs => by
    rw [hs]
    exact h

/-- A call that takes one unit of fuel. -/
theorem call {p q : Prog σ α} (h : ∀ n s, p (n + 1) s = q n s) (hq : Total q s Q) : Total p s Q := by
  obtain ⟨r, hr, hQ⟩ := hq
  exact ⟨r, hr.call h, hQ⟩

/-- **A loop** ends if every round that goes on takes the state down. -/
theorem loop {r : σ → σ → Prop} (hr : WellFounded r) {round : β → Prog σ (β ⊕ α)} (I : β → σ → Prop)
    (hround : ∀ b s, I b s → Total (round b) s fun o s' => o.elim (fun b' => I b' s' ∧ r s' s) (fun a => Q a s'))
    {b : β} (h : I b s) : Total (loop round b) s Q := by
  have hrounds : ∃ r, EndsRounds round b s r ∧ ∀ a s', r = some (a, s') → Q a s' := by
    induction s using hr.induction generalizing b with
    | _ s ih =>
      obtain ⟨o, ho, hQ⟩ := hround b s h
      obtain _ | ⟨b' | a, s'⟩ := o
      · exact ⟨none, .stop ho, by rintro _ _ ⟨⟩⟩
      · obtain ⟨hI, hless⟩ := hQ _ _ rfl
        obtain ⟨r, hrest, hQ⟩ := ih s' hless hI
        exact ⟨r, .next ho hrest, hQ⟩
      · refine ⟨some (a, s'), .last ho, ?_⟩
        rintro _ _ ⟨⟩
        exact hQ _ _ rfl
  obtain ⟨r, hrest, hQ⟩ := hrounds
  exact ⟨r, hrest.ends, hQ⟩

end Total

/-! ## One fuel -/

/-- With the fuel `n` the programs are the same. -/
def Agree (n : ℕ) (p q : Prog σ α) : Prop := ∀ s, p n s = q n s

namespace Agree

variable {n : ℕ} {p q : Prog σ α}

theorem refl (p : Prog σ α) : Agree n p p := fun _ => rfl

theorem bind {k l : α → Prog σ β} (hp : Agree n p q) (hk : ∀ a, Agree n (k a) (l a)) : Agree n (p >>= k) (q >>= l) := by
  intro s
  show (match p n s with
    | none => none
    | some none => some none
    | some (some (a, s')) => k a n s') = match q n s with
    | none => none
    | some none => some none
    | some (some (a, s')) => l a n s'
  rw [hp s]
  obtain _ | _ | ⟨a, s'⟩ := q n s
  · rfl
  · rfl
  · exact hk a s'

theorem ite {c : Prop} [Decidable c] {p' q' : Prog σ α} (hp : Agree n p q) (hq : Agree n p' q') :
    Agree n (if c then p else p') (if c then q else q') := by
  by_cases h : c
  · rw [if_pos h, if_pos h]
    exact hp
  · rw [if_neg h, if_neg h]
    exact hq

theorem loop {round round' : β → Prog σ (β ⊕ α)} (h : ∀ b, Agree n (round b) (round' b)) (b : β) :
    Agree n (loop round b) (loop round' b) := by
  have hround : (fun b => round b n) = fun b => round' b n := funext fun b => funext fun s => h b s
  intro s
  show rounds (fun b => round b n) n b s = rounds (fun b => round' b n) n b s
  rw [hround]

end Agree

/-! ## Loops that go on -/

theorem rounds_mono {round : β → σ → Option (Option ((β ⊕ α) × σ))} {m m' : ℕ} {b : β} {r : Option (α × σ)}
    (hm : m ≤ m') (h : rounds round m b s = some r) : rounds round m' b s = some r := by
  induction m generalizing m' b s with
  | zero => cases h
  | succ m ih =>
    obtain ⟨k, rfl⟩ : ∃ k, m' = k + 1 := ⟨m' - 1, by omega⟩
    rw [rounds] at h ⊢
    cases hround : round b s with
    | none =>
      rw [hround] at h
      cases h
    | some o =>
      rw [hround] at h
      obtain _ | ⟨b' | a, s'⟩ := o
      · exact h
      · exact ih (by omega) h
      · exact h

variable {round : β → Prog σ (β ⊕ α)} {b b' : β} {s' : σ} {r : Option (α × σ)}

/-- After a round that goes on, the loop has the rest before it. -/
theorem Ends.loop_step (hround : Ends (round b) s (some (.inl b', s'))) (h : Ends (loop round b) s r) :
    Ends (loop round b') s' r := by
  obtain ⟨N, hN⟩ := hround
  obtain ⟨M, hM⟩ := h
  refine ⟨max N M + 1, fun n hn => ?_⟩
  obtain ⟨k, rfl⟩ : ∃ k, n = k + 1 := ⟨n - 1, by omega⟩
  have hon : round b (k + 1) s = some (some (.inl b', s')) := hN (k + 1) (by omega)
  have hloop : rounds (fun b => round b (k + 1)) (k + 1) b s = some r := hM (k + 1) (by omega)
  rw [rounds, hon] at hloop
  exact rounds_mono (Nat.le_succ k) hloop

/-! ## Programs that go on -/

/-- No fuel is enough. -/
def Hangs (p : Prog σ α) (s : σ) : Prop := ∃ N, ∀ n, N ≤ n → p n s = none

theorem Hangs.bind {p : Prog σ α} {k : α → Prog σ β} (h : Hangs p s) : Hangs (p >>= k) s := by
  obtain ⟨N, hN⟩ := h
  refine ⟨N, fun n hn => ?_⟩
  show (match p n s with
    | none => none
    | some none => some none
    | some (some (a, s')) => k a n s') = none
  rw [hN n hn]

theorem Hangs.of_bind {p : Prog σ α} {k : α → Prog σ β} {a : α} (hp : Ends p s (some (a, s'))) (hk : Hangs (k a) s') :
    Hangs (p >>= k) s := by
  obtain ⟨N, hN⟩ := hp
  obtain ⟨M, hM⟩ := hk
  refine ⟨max N M, fun n hn => ?_⟩
  have hpn : p n s = some (some (a, s')) := hN n (by omega)
  show (match p n s with
    | none => none
    | some none => some none
    | some (some (a, s')) => k a n s') = none
  rw [hpn]
  exact hM n (by omega)

theorem Ends.not_hangs {p : Prog σ α} {r : Option (α × σ)} (h : Ends p s r) : ¬ Hangs p s := by
  obtain ⟨N, hN⟩ := h
  rintro ⟨M, hM⟩
  have hsome : p (max N M) s = some r := hN _ (Nat.le_max_left ..)
  rw [hM _ (Nat.le_max_right ..)] at hsome
  cases hsome

/-- What comes behind an end that is known. -/
theorem Ends.of_bind {p : Prog σ α} {k : α → Prog σ β} {a : α} {r : Option (β × σ)} (hp : Ends p s (some (a, s')))
    (h : Ends (p >>= k) s r) : Ends (k a) s' r := by
  obtain ⟨N, hN⟩ := hp
  obtain ⟨M, hM⟩ := h
  refine ⟨max N M, fun n hn => ?_⟩
  have hpn : p n s = some (some (a, s')) := hN n (by omega)
  have hboth : (match p n s with
    | none => none
    | some none => some none
    | some (some (a, s')) => k a n s') = some r := hM n (by omega)
  rw [hpn] at hboth
  exact hboth

/-- A loop that ends has a first round that does. -/
theorem Ends.not_hangs_round (h : Ends (loop round b) s r) : ¬ Hangs (round b) s := by
  obtain ⟨N, hN⟩ := h
  rintro ⟨M, hM⟩
  have hloop : rounds (fun b => round b (max N M + 1)) (max N M + 1) b s = some r := hN (max N M + 1) (by omega)
  rw [rounds, hM (max N M + 1) (by omega)] at hloop
  cases hloop

/-- No number of rounds is enough. -/
def HangsRounds (round : β → Prog σ (β ⊕ α)) (b : β) (s : σ) : Prop :=
  ∃ N, ∀ n m, N ≤ n → rounds (fun b => round b n) m b s = none

theorem HangsRounds.hangs (h : HangsRounds round b s) : Hangs (loop round b) s := by
  obtain ⟨N, hN⟩ := h
  exact ⟨N, fun n hn => hN n n hn⟩

theorem HangsRounds.of_step (hround : Ends (round b) s (some (.inl b', s'))) (h : HangsRounds round b' s') :
    HangsRounds round b s := by
  obtain ⟨N, hN⟩ := hround
  obtain ⟨M, hM⟩ := h
  refine ⟨max N M, fun n m hn => ?_⟩
  cases m with
  | zero => rfl
  | succ m =>
    have hon : round b n s = some (some (.inl b', s')) := hN n (by omega)
    rw [rounds, hon]
    exact hM n m (by omega)

/-- **A round that changes nothing** comes again and again. -/
theorem hangsRounds_of_same (hround : Ends (round b) s (some (.inl b, s))) : HangsRounds round b s := by
  obtain ⟨N, hN⟩ := hround
  refine ⟨N, fun n m hn => ?_⟩
  induction m with
  | zero => rfl
  | succ m ih =>
    have hon : round b n s = some (some (.inl b, s)) := hN n hn
    rw [rounds, hon]
    exact ih

end OpenHT.Program
