import OpenHT.Htc.LoopRewrite

/-!
# Loop lowering preserves execution

A state of the structured program and one of the goto program match when the code and the continuations do.

* `MatchK`: the continuations, with the targets of `break` and `continue` in front of them.
* `pass1_simulation`: every step of the structured program is matched, but for a `continue` in a `do` loop.
* `pass1_same_behaviour`: the events and the stores of a run without such a `continue`.
-/

namespace OpenHT.Htc

open Flow Trace

variable {A C E V Store : Type}

/-- The test of a loop at its top, and the code after it. -/
def loopCode (ln : ℕ) (cond : Option C) (incr : Option A) (body : Body A C E V) : Body A C E V :=
  .seq (makeIfWithGoto ⟨false, cond⟩ (.made .loopExit ln) true)
    (.seq (.seq (appendIncr body incr) (.goto (.made .loopTop ln))) (.label (.made .loopExit ln)))

/-- What is left of a loop after its body. -/
def afterBody (ln : ℕ) (incr : Option A) (k : Cont A C E V Label) : Cont A C E V Label :=
  match incr with
  | some a => .seq (.act a) (.seq (.goto (.made .loopTop ln)) (.seq (.label (.made .loopExit ln)) k))
  | none => .seq (.goto (.made .loopTop ln)) (.seq (.label (.made .loopExit ln)) k)

/-- What is left of a `do` loop after its body. -/
def afterDoBody (ln : ℕ) (cond : C) (k : Cont A C E V Label) : Cont A C E V Label :=
  .seq (makeIfWithGoto (.pos cond) (.made .loopTop ln) false)
    (.seq .skip (.seq (.label (.made .loopExit ln)) k))

/-- The code of a loop body in the program `T`, with the two labels around it. -/
structure LoopAt (T : Body A C E V) (ln : ℕ) (cond : Option C) (incr : Option A) (body : Body A C E V)
    (k : Cont A C E V Label) : Prop where
  top : Stmt.findLabel (.made .loopTop ln) T .stop = some (.seq (loopCode ln cond incr body) k)
  exit : Stmt.findLabel (.made .loopExit ln) T .stop = some k
  body : Placed T body (afterBody ln incr k)

structure DoAt (T : Body A C E V) (ln : ℕ) (cond : C) (body : Body A C E V) (k : Cont A C E V Label) : Prop where
  top : Stmt.findLabel (.made .loopTop ln) T .stop = some (.seq body (afterDoBody ln cond k))
  exit : Stmt.findLabel (.made .loopExit ln) T .stop = some k
  body : Placed T body (afterDoBody ln cond k)

theorem Placed.topTested {T b : Body A C E V} {ln : ℕ} {init : List A} {c : Option C} {i : Option A}
    {k : Cont A C E V Label} (h : Placed T (topTestedBlock ln init c i b) k) : LoopAt T ln c i b k := by
  have h₁ := h.seq.2.seq.2.seq
  have h₂ := h₁.2.seq.2.seq
  refine ⟨h₁.1.label, h₂.2.label, ?_⟩
  cases i with
  | none => exact h₂.1.seq.1
  | some a => exact h₂.1.seq.1.seq.1

theorem Placed.doWhile {T b : Body A C E V} {ln : ℕ} {c : C} {k : Cont A C E V Label}
    (h : Placed T (doWhileBlock ln b c) k) : DoAt T ln c b k := by
  have h₁ := h.seq.2.seq
  have h₂ := h₁.1.seq.1.seq.1.seq
  exact ⟨h₂.1.label, h₁.2.label, h₂.2⟩

/-- The continuations of the two programs, where a `break` or `continue` in front of them has these targets. -/
inductive MatchK (T : Body A C E V) : Cont A C E V Label → Cont A C E V Label → Targets A → Prop
  | stop : MatchK T .stop .stop ⟨none, none⟩
  | seq {k k' : Cont A C E V Label} {g : Targets A} {n : ℕ} {s : Body A C E V} (h : MatchK T k k' g)
    (hs : Structured s) (hp : Placed T (lower g n s) k') : MatchK T (.seq s k) (.seq (lower g n s) k') g
  | switch {k k' : Cont A C E V Label} {g : Targets A} (h : MatchK T k k' g) :
    MatchK T (.switch k) (.switch k') ⟨none, g.cont⟩
  /-- The loop is entered. -/
  | entry {k k' : Cont A C E V Label} {g : Targets A} {n ln : ℕ} {c : Option C} {i : Option A} {b : Body A C E V}
    (h : MatchK T k k' g) (hs : Structured b) (hl : LoopAt T ln c i (lower (loopTargets ln i) n b) k') :
    MatchK T (.test c i b k)
      (.seq (.seq (.label (.made .loopTop ln)) (loopCode ln c i (lower (loopTargets ln i) n b))) k')
      (loopTargets ln i)
  /-- The loop is at its top. -/
  | top {k k' : Cont A C E V Label} {g : Targets A} {n ln : ℕ} {c : Option C} {i : Option A} {b : Body A C E V}
    (h : MatchK T k k' g) (hs : Structured b) (hl : LoopAt T ln c i (lower (loopTargets ln i) n b) k') :
    MatchK T (.test c i b k) (.seq (loopCode ln c i (lower (loopTargets ln i) n b)) k') (loopTargets ln i)
  /-- The same after a `continue` without increment. -/
  | again {k k' : Cont A C E V Label} {g : Targets A} {n ln : ℕ} {c : Option C} {b : Body A C E V}
    (h : MatchK T k k' g) (hs : Structured b) (hl : LoopAt T ln c none (lower (loopTargets ln none) n b) k') :
    MatchK T (.body c none b k) (.seq (loopCode ln c none (lower (loopTargets ln none) n b)) k')
      (loopTargets ln none)
  | body {k k' : Cont A C E V Label} {g : Targets A} {n ln : ℕ} {c : Option C} {i : Option A} {b : Body A C E V}
    (h : MatchK T k k' g) (hs : Structured b) (hl : LoopAt T ln c i (lower (loopTargets ln i) n b) k') :
    MatchK T (.body c i b k) (afterBody ln i k') (loopTargets ln i)
  | doBody {k k' : Cont A C E V Label} {g : Targets A} {n ln : ℕ} {c : C} {b : Body A C E V}
    (h : MatchK T k k' g) (hs : Structured b) (hl : DoAt T ln c (lower (loopTargets ln none) n b) k') :
    MatchK T (.doBody b c k) (afterDoBody ln c k') (loopTargets ln none)

/-- States that match. -/
inductive Match (T : Body A C E V) : State A C E V Label Store → State A C E V Label Store → Prop
  | code {k k' : Cont A C E V Label} {g : Targets A} {n : ℕ} {s : Body A C E V} {σ : Store} (h : MatchK T k k' g)
    (hs : Structured s) (hp : Placed T (lower g n s) k') : Match T ⟨s, k, σ⟩ ⟨lower g n s, k', σ⟩
  /-- A `continue` of a `for` is at its increment. -/
  | incr {k k' k₁ : Cont A C E V Label} {g : Targets A} {n ln : ℕ} {c : Option C} {a : A} {b : Body A C E V}
    {σ : Store} (h : MatchK T k k' g) (hs : Structured b)
    (hl : LoopAt T ln c (some a) (lower (loopTargets ln (some a)) n b) k') :
    Match T ⟨.skip, .body c (some a) b k, σ⟩ ⟨.act a, .seq (.goto (.made .loopTop ln)) k₁, σ⟩

variable {m : Sem A C E V Store} {T P : Body A C E V} {k k' : Cont A C E V Label} {g : Targets A} {n ln : ℕ}
  {σ : Store} {c : Option C} {i : Option A} {s b : Body A C E V}

/-- A statement that is done. -/
theorem Match.done (h : MatchK T k k' g) : Match T (⟨.skip, k, σ⟩ : State A C E V Label Store) ⟨.skip, k', σ⟩ :=
  .code (n := 0) h trivial (.skip T k')

/-! ## `break` and `continue` -/

/-- A `break` leaves the same loop or `switch` in both programs. -/
theorem MatchK.breakOut (h : MatchK T k k' g) :
    (∃ l, g.brk = some l ∧ ∃ kb kb' g', k.breakOut = some kb ∧ Stmt.findLabel l T .stop = some kb' ∧ MatchK T kb kb' g') ∨
    (g.brk = none ∧ ∃ kb kb' g', k.breakOut = some kb ∧ k'.breakOut = some kb' ∧ MatchK T kb kb' g') ∨
    (g.brk = none ∧ k.breakOut = none ∧ k'.breakOut = none) := by
  induction h with
  | stop => exact Or.inr (Or.inr ⟨rfl, rfl, rfl⟩)
  | seq _ _ _ ih => exact ih
  | switch h _ => exact Or.inr (Or.inl ⟨rfl, _, _, _, rfl, rfl, h⟩)
  | entry h _ hl _ => exact Or.inl ⟨_, rfl, _, _, _, rfl, hl.exit, h⟩
  | top h _ hl _ => exact Or.inl ⟨_, rfl, _, _, _, rfl, hl.exit, h⟩
  | again h _ hl _ => exact Or.inl ⟨_, rfl, _, _, _, rfl, hl.exit, h⟩
  | body h _ hl _ => exact Or.inl ⟨_, rfl, _, _, _, rfl, hl.exit, h⟩
  | doBody h _ hl _ => exact Or.inl ⟨_, rfl, _, _, _, rfl, hl.exit, h⟩

/-- The innermost loop around a statement. -/
inductive InLoop (T : Body A C E V) : Cont A C E V Label → Label × Option A → Prop
  | loop {k k' : Cont A C E V Label} {g : Targets A} {n ln : ℕ} {c : Option C} {i : Option A} {b : Body A C E V}
    (h : MatchK T k k' g) (hs : Structured b) (hl : LoopAt T ln c i (lower (loopTargets ln i) n b) k') :
    InLoop T (.body c i b k) (.made .loopTop ln, i)
  | doWhile {k : Cont A C E V Label} {t : Label × Option A} {b : Body A C E V} {c : C} : InLoop T (.doBody b c k) t

theorem MatchK.continueTo (h : MatchK T k k' g) :
    (∃ t kc, g.cont = some t ∧ k.continueTo = some kc ∧ InLoop T kc t) ∨
      (g.cont = none ∧ k.continueTo = none ∧ k'.continueTo = none) := by
  induction h with
  | stop => exact Or.inr ⟨rfl, rfl, rfl⟩
  | seq _ _ _ ih => exact ih
  | switch _ ih => exact ih
  | entry h hs hl _ => exact Or.inl ⟨_, _, rfl, rfl, .loop h hs hl⟩
  | top h hs hl _ => exact Or.inl ⟨_, _, rfl, rfl, .loop h hs hl⟩
  | again h hs hl _ => exact Or.inl ⟨_, _, rfl, rfl, .loop h hs hl⟩
  | body h hs hl _ => exact Or.inl ⟨_, _, rfl, rfl, .loop h hs hl⟩
  | doBody h hs hl _ => exact Or.inl ⟨_, _, rfl, rfl, .doWhile⟩

theorem eval_neg (t : Test C) (σ : Store) : t.neg.eval m σ = !t.eval m σ := by
  unfold Test.eval Test.neg
  cases t.negated <;> simp

/-! ## The code of statements -/

theorem lower_acts (init : List A) : lower g n (Stmt.acts init : Body A C E V) = Stmt.acts init := by
  induction init generalizing n with
  | nil => rfl
  | cons a as ih =>
    rw [Stmt.acts, lower, ih]
    rfl

theorem structured_acts (init : List A) : Structured (Stmt.acts init : Body A C E V) := by
  induction init with
  | nil => trivial
  | cons a as ih => exact ⟨trivial, ih⟩

theorem findDefault_lower (n : ℕ) (hs : Structured b) :
    (b.findDefault = none ∧ (lower g n b).findDefault = none) ∨
      ∃ s n', b.findDefault = some s ∧ Structured s ∧ (lower g n b).findDefault = some (lower g n' s) := by
  induction b generalizing n with
  | option v b r _ ihr =>
    rw [lower, Stmt.findDefault, Stmt.findDefault]
    by_cases hv : v = none
    · rw [if_pos hv, if_pos hv]
      exact Or.inr ⟨_, n, rfl, hs, rfl⟩
    · rw [if_neg hv, if_neg hv]
      exact ihr _ hs.2
  | brk =>
    obtain ⟨gb, gc⟩ := g
    cases gb <;> exact Or.inl ⟨rfl, rfl⟩
  | cont =>
    obtain ⟨gb, gc⟩ := g
    cases gc with
    | none => exact Or.inl ⟨rfl, rfl⟩
    | some t =>
      obtain ⟨l, i⟩ := t
      cases i <;> exact Or.inl ⟨rfl, rfl⟩
  | _ => exact Or.inl ⟨rfl, rfl⟩

/-! ## Every step is matched -/

section

variable [DecidableEq V]

/-- **The top of a loop**: one test, then the body or the end. -/
theorem top_steps (m : Sem A C E V Store) (σ : Store) (hl : LoopAt T ln c i b k') :
    ∃ n, Steps (step m T) (n + 1) ⟨.skip, .seq (loopCode ln c i b) k', σ⟩ (Test.events ⟨false, c⟩)
      (if Test.eval m ⟨false, c⟩ σ then ⟨b, afterBody ln i k', σ⟩ else ⟨.skip, k', σ⟩) := by
  have hstart : Steps (step m T) 2 ⟨.skip, .seq (loopCode ln c i b) k', σ⟩ []
      ⟨makeIfWithGoto ⟨false, c⟩ (.made .loopExit ln) true,
        .seq (.seq (.seq (appendIncr b i) (.goto (.made .loopTop ln))) (.label (.made .loopExit ln))) k', σ⟩ :=
    .silent rfl (.silent rfl (.refl _))
  by_cases htest : Test.eval m ⟨false, c⟩ σ = true
  · rw [if_pos htest]
    have hif : step m T ⟨makeIfWithGoto ⟨false, c⟩ (.made .loopExit ln) true,
        .seq (.seq (.seq (appendIncr b i) (.goto (.made .loopTop ln))) (.label (.made .loopExit ln))) k', σ⟩ =
        some (Test.events ⟨false, c⟩, ⟨.skip,
          .seq (.seq (.seq (appendIncr b i) (.goto (.made .loopTop ln))) (.label (.made .loopExit ln))) k', σ⟩) := by
      have hneg : Test.eval m (Test.neg ⟨false, c⟩) σ = false := by rw [eval_neg, htest]; rfl
      change some (_, if Test.eval m (Test.neg ⟨false, c⟩) σ = true then _ else _) = _
      rw [hneg]
      rfl
    have hbody : ∃ n, Steps (step m T) n ⟨.skip,
        .seq (.seq (.seq (appendIncr b i) (.goto (.made .loopTop ln))) (.label (.made .loopExit ln))) k', σ⟩ []
        ⟨b, afterBody ln i k', σ⟩ := by
      cases i with
      | none => exact ⟨3, .silent rfl (.silent rfl (.silent rfl (.refl _)))⟩
      | some a => exact ⟨4, .silent rfl (.silent rfl (.silent rfl (.silent rfl (.refl _))))⟩
    obtain ⟨n, hbody⟩ := hbody
    refine ⟨2 + n, ?_⟩
    have hall := hstart.trans ((Steps.single hif).trans hbody)
    rw [List.nil_append, List.append_nil] at hall
    rwa [show 2 + (1 + n) = 2 + n + 1 by omega] at hall
  · rw [if_neg htest]
    have hif : step m T ⟨makeIfWithGoto ⟨false, c⟩ (.made .loopExit ln) true,
        .seq (.seq (.seq (appendIncr b i) (.goto (.made .loopTop ln))) (.label (.made .loopExit ln))) k', σ⟩ =
        some (Test.events ⟨false, c⟩, ⟨.goto (.made .loopExit ln),
          .seq (.seq (.seq (appendIncr b i) (.goto (.made .loopTop ln))) (.label (.made .loopExit ln))) k', σ⟩) := by
      have hneg : Test.eval m (Test.neg ⟨false, c⟩) σ = true := by
        rw [eval_neg, Bool.eq_false_iff.2 htest]
        rfl
      change some (_, if Test.eval m (Test.neg ⟨false, c⟩) σ = true then _ else _) = _
      rw [hneg]
      rfl
    have hexit : step m T ⟨.goto (.made .loopExit ln),
        .seq (.seq (.seq (appendIncr b i) (.goto (.made .loopTop ln))) (.label (.made .loopExit ln))) k', σ⟩ =
        some ([], ⟨.skip, k', σ⟩) := by
      change (Stmt.findLabel _ T .stop).map _ = _
      rw [hl.exit]
      rfl
    have hall := hstart.trans ((Steps.single hif).trans (Steps.single hexit))
    rw [List.nil_append, List.append_nil] at hall
    exact ⟨3, hall⟩

/-- Back to the top. -/
theorem goto_top (hl : LoopAt T ln c i b k') (k₁ : Cont A C E V Label) :
    step m T ⟨.goto (.made .loopTop ln), k₁, σ⟩ = some ([], ⟨.skip, .seq (loopCode ln c i b) k', σ⟩) := by
  change (Stmt.findLabel _ T .stop).map _ = _
  rw [hl.top]
  rfl

/-- The step of a loop that tests, from any state that gets to the top. -/
theorem test_next (h : MatchK T k k' g) (hs : Structured b)
    (hl : LoopAt T ln c i (lower (loopTargets ln i) n b) k') {t : State A C E V Label Store} {j : ℕ}
    (ht : Steps (step m T) j t [] ⟨.skip, .seq (loopCode ln c i (lower (loopTargets ln i) n b)) k', σ⟩) :
    ∃ n' t', Steps (step m T) (n' + 1) t (Test.events ⟨false, c⟩) t' ∧
      Match T (if Test.eval m ⟨false, c⟩ σ then ⟨b, .body c i b k, σ⟩ else ⟨.skip, k, σ⟩) t' := by
  obtain ⟨n', htop⟩ := top_steps m σ hl
  refine ⟨j + n', _, ht.trans htop, ?_⟩
  by_cases htest : Test.eval m ⟨false, c⟩ σ = true
  · rw [if_pos htest, if_pos htest]
    exact .code (.body h hs hl) hs hl.body
  · rw [if_neg htest, if_neg htest]
    exact .done h

/-- Only an option becomes an option. -/
theorem findCase_lower (w : V) (n : ℕ) (hs : Structured b) :
    (b.findCase w = none ∧ (lower g n b).findCase w = none) ∨
      ∃ s n', b.findCase w = some s ∧ Structured s ∧ (lower g n b).findCase w = some (lower g n' s) := by
  induction b generalizing n with
  | option v b r _ ihr =>
    rw [lower, Stmt.findCase, Stmt.findCase]
    by_cases hv : v = some w
    · rw [if_pos hv, if_pos hv]
      exact Or.inr ⟨_, n, rfl, hs, rfl⟩
    · rw [if_neg hv, if_neg hv]
      exact ihr _ hs.2
  | brk =>
    obtain ⟨gb, gc⟩ := g
    cases gb <;> exact Or.inl ⟨rfl, rfl⟩
  | cont =>
    obtain ⟨gb, gc⟩ := g
    cases gc with
    | none => exact Or.inl ⟨rfl, rfl⟩
    | some t =>
      obtain ⟨l, i⟩ := t
      cases i <;> exact Or.inl ⟨rfl, rfl⟩
  | _ => exact Or.inl ⟨rfl, rfl⟩

/-- The same option is selected. -/
theorem select_lower (w : V) (n : ℕ) (hs : Structured b) :
    ∃ n', (lower g n b).select w = lower g n' (b.select w) ∧ Structured (b.select w) := by
  unfold Stmt.select
  rcases findCase_lower (g := g) w n hs with ⟨h, h'⟩ | ⟨s, n', h, hs', h'⟩
  · rw [h, h']
    rcases findDefault_lower (g := g) n hs with ⟨h, h'⟩ | ⟨s, n', h, hs', h'⟩
    · rw [h, h']
      exact ⟨0, rfl, trivial⟩
    · rw [h, h']
      exact ⟨n', rfl, hs'⟩
  · rw [h, h']
    exact ⟨n', rfl, hs'⟩

/-- The end of a `do` loop body: the test, then the top or the end. -/
theorem doBody_next {c : C} (h : MatchK T k k' g) (hs : Structured b)
    (hl : DoAt T ln c (lower (loopTargets ln none) n b) k') :
    ∃ n' t', Steps (step m T) (n' + 1) ⟨.skip, afterDoBody ln c k', σ⟩ [.test c] t' ∧
      Match T (if m.test c σ then ⟨b, .doBody b c k, σ⟩ else ⟨.skip, k, σ⟩) t' := by
  have hif : ∀ k₁ : Cont A C E V Label, step m T ⟨makeIfWithGoto (.pos c) (.made .loopTop ln) false, k₁, σ⟩ =
      some ([.test c], if m.test c σ then ⟨.goto (.made .loopTop ln), k₁, σ⟩ else ⟨.skip, k₁, σ⟩) := by
    intro k₁
    change some (_, if Test.eval m (Test.pos c) σ = true then _ else _) = _
    have heval : Test.eval m (Test.pos c) σ = m.test c σ := Bool.xor_false _
    rw [heval]
    rfl
  by_cases htest : m.test c σ = true
  · have hgoto : ∀ k₁ : Cont A C E V Label, step m T ⟨.goto (.made .loopTop ln), k₁, σ⟩ =
        some ([], ⟨.skip, .seq (lower (loopTargets ln none) n b) (afterDoBody ln c k'), σ⟩) := by
      intro k₁
      change (Stmt.findLabel _ T .stop).map _ = _
      rw [hl.top]
      rfl
    refine ⟨3, ⟨lower (loopTargets ln none) n b, afterDoBody ln c k', σ⟩, .silent rfl (.event (hif _) ?_), ?_⟩
    · rw [if_pos htest]
      exact .silent (hgoto _) (.silent rfl (.refl _))
    · rw [if_pos htest]
      exact .code (.doBody h hs hl) hs hl.body
  · refine ⟨4, ⟨.skip, k', σ⟩, .silent rfl (.event (hif _) ?_), ?_⟩
    · rw [if_neg htest]
      exact .silent rfl (.silent rfl (.silent rfl (.refl _)))
    · rw [if_neg htest]
      exact .done h

/-- A statement that is done hands over to the continuation. -/
theorem skip_next (h : MatchK T k k' g) {τ : List (Event A C E)} {s' : State A C E V Label Store}
    (hstep : step m P ⟨.skip, k, σ⟩ = some (τ, s')) :
    ∃ n t', Steps (step m T) (n + 1) ⟨.skip, k', σ⟩ τ t' ∧ Match T s' t' := by
  cases h with
  | stop => cases hstep
  | seq h hs hp =>
    cases hstep
    exact ⟨0, _, .single rfl, .code h hs hp⟩
  | switch h =>
    cases hstep
    exact ⟨0, _, .single rfl, .done h⟩
  | entry h hs hl =>
    cases hstep
    exact test_next h hs hl (.silent rfl (.silent rfl (.silent rfl (.refl _))))
  | top h hs hl =>
    cases hstep
    exact test_next h hs hl (.refl _)
  | again h hs hl =>
    cases hstep
    exact test_next h hs hl (.refl _)
  | @body _ _ _ _ _ _ i _ h hs hl =>
    cases i with
    | none =>
      cases hstep
      exact test_next h hs hl (.silent rfl (.silent (goto_top hl _) (.refl _)))
    | some a =>
      cases hstep
      exact ⟨3, _, .silent rfl (.event rfl (.silent rfl (.silent (goto_top hl _) (.refl _)))), .done (.top h hs hl)⟩
  | doBody h hs hl =>
    cases hstep
    exact doBody_next h hs hl

/-- The state is at no `continue` whose innermost loop is a `do` loop. -/
def NoDoContinue (st : State A C E V Label Store) : Prop :=
  st.stmt = .cont → ∀ b c k, st.cont.continueTo ≠ some (.doBody b c k)

theorem code_next (h : MatchK T k k' g) (hs : Structured s) (hp : Placed T (lower g n s) k')
    (hok : NoDoContinue (⟨s, k, σ⟩ : State A C E V Label Store)) {τ : List (Event A C E)}
    {s' : State A C E V Label Store} (hstep : step m P ⟨s, k, σ⟩ = some (τ, s')) :
    ∃ n' t', Steps (step m T) (n' + 1) ⟨lower g n s, k', σ⟩ τ t' ∧ Match T s' t' := by
  cases s with
  | skip => exact skip_next h hstep
  | act a =>
    cases hstep
    exact ⟨0, _, .single rfl, .done h⟩
  | seq s t =>
    cases hstep
    exact ⟨0, _, .single rfl, .code (.seq h hs.2 hp.seq.2) hs.1 hp.seq.1⟩
  | ifElse keep c s t =>
    cases hstep
    refine ⟨0, _, .single rfl, ?_⟩
    by_cases hc : c.eval m σ = true
    · rw [if_pos hc, if_pos hc]
      exact .code h hs.1 hp.ifElse.1
    · rw [if_neg hc, if_neg hc]
      exact .code h hs.2 hp.ifElse.2
  | switch e b =>
    cases hstep
    obtain ⟨n', hsel, hsb⟩ := select_lower (g := ⟨none, g.cont⟩) (b := b) (m.select e σ) n hs
    have hpl := hp.switch.select (m.select e σ)
    rw [hsel] at hpl
    refine ⟨0, _, .single rfl, ?_⟩
    rw [hsel]
    exact .code (.switch h) hsb hpl
  | option v b r =>
    cases hstep
    exact ⟨0, _, .single rfl, .code (.seq h hs.2 hp.option.2) hs.1 hp.option.1⟩
  | loop init c i b =>
    cases hstep
    have hl := Placed.topTested hp
    have hinit := hp.seq.2.seq.1
    refine ⟨2, _, .silent rfl (.silent rfl (.silent rfl (.refl _))), ?_⟩
    rw [← lower_acts (g := loopTargets (n + loops b + 1) i) (n := 0)] at hinit
    have hm : Match T ⟨.acts init, .test c i b k, σ⟩ _ :=
      .code (.entry (b := b) h hs hl) (structured_acts init) hinit
    rwa [lower_acts] at hm
  | doWhile b c =>
    cases hstep
    have hl := Placed.doWhile hp
    refine ⟨7, _, ?_, .code (.doBody (b := b) h hs hl) hs hl.body⟩
    exact .silent rfl (.silent rfl (.silent rfl (.silent rfl (.silent rfl (.silent rfl (.silent rfl
      (.silent rfl (.refl _))))))))
  | brk =>
    rcases h.breakOut with ⟨l, hg, kb, kb', g', hk, hf, hm⟩ | ⟨hg, kb, kb', g', hk, hk', hm⟩ | ⟨-, hk, -⟩
    · have hsrc : step m P (⟨.brk, k, σ⟩ : State A C E V Label Store) = some ([], ⟨.skip, kb, σ⟩) := by
        change k.breakOut.map _ = _
        rw [hk]
        rfl
      have htgt : step m T ⟨lower g n .brk, k', σ⟩ = some ([], ⟨.skip, kb', σ⟩) := by
        rw [lower, hg]
        change (Stmt.findLabel l T .stop).map _ = _
        rw [hf]
        rfl
      rw [hsrc] at hstep
      cases hstep
      exact ⟨0, _, .single htgt, .done hm⟩
    · have hsrc : step m P (⟨.brk, k, σ⟩ : State A C E V Label Store) = some ([], ⟨.skip, kb, σ⟩) := by
        change k.breakOut.map _ = _
        rw [hk]
        rfl
      have htgt : step m T ⟨lower g n .brk, k', σ⟩ = some ([], ⟨.skip, kb', σ⟩) := by
        rw [lower, hg]
        change k'.breakOut.map _ = _
        rw [hk']
        rfl
      rw [hsrc] at hstep
      cases hstep
      exact ⟨0, _, .single htgt, .done hm⟩
    · change k.breakOut.map _ = _ at hstep
      rw [hk] at hstep
      cases hstep
  | cont =>
    rcases h.continueTo with ⟨t, kc, hg, hk, hin⟩ | ⟨-, hk, -⟩
    · have hsrc : step m P (⟨.cont, k, σ⟩ : State A C E V Label Store) = some ([], ⟨.skip, kc, σ⟩) := by
        change k.continueTo.map _ = _
        rw [hk]
        rfl
      rw [hsrc] at hstep
      cases hstep
      have hcode : lower g n (.cont : Body A C E V) = continueCode t.1 t.2 := by
        rw [lower, hg]
        rfl
      rw [hcode]
      cases hin with
      | @loop _ _ _ _ _ _ i _ h hs hl =>
        cases i with
        | none => exact ⟨0, _, .single (goto_top hl _), .done (.again h hs hl)⟩
        | some a => exact ⟨0, _, .single rfl, .incr h hs hl⟩
      | doWhile => exact (hok rfl _ _ _ hk).elim
    · change k.continueTo.map _ = _ at hstep
      rw [hk] at hstep
      cases hstep
  | label l => exact hs.elim
  | goto l => exact hs.elim

/-- Both programs are at their ends together. -/
theorem code_last (h : MatchK T k k' g) (hs : Structured s)
    (hstep : step m P (⟨s, k, σ⟩ : State A C E V Label Store) = none) :
    step m T (⟨lower g n s, k', σ⟩ : State A C E V Label Store) = none := by
  cases s with
  | skip =>
    cases h with
    | stop => rfl
    | @body _ _ _ _ _ _ i _ _ _ _ => cases i <;> cases hstep
    | _ => cases hstep
  | brk =>
    rcases h.breakOut with ⟨l, hg, kb, kb', g', hk, hf, hm⟩ | ⟨hg, kb, kb', g', hk, hk', hm⟩ | ⟨hg, -, hk'⟩
    · change k.breakOut.map _ = none at hstep
      rw [hk] at hstep
      cases hstep
    · change k.breakOut.map _ = none at hstep
      rw [hk] at hstep
      cases hstep
    · rw [lower, hg]
      change k'.breakOut.map _ = none
      rw [hk']
      rfl
  | cont =>
    rcases h.continueTo with ⟨t, kc, hg, hk, hin⟩ | ⟨hg, -, hk'⟩
    · change k.continueTo.map _ = none at hstep
      rw [hk] at hstep
      cases hstep
    · rw [lower, hg]
      change k'.continueTo.map _ = none
      rw [hk']
      rfl
  | label l => exact hs.elim
  | goto l => exact hs.elim
  | _ => cases hstep

/-- **Loop lowering is a simulation** where no `continue` belongs to a `do` loop. -/
theorem pass1_simulation (m : Sem A C E V Store) (P T : Body A C E V) :
    Simulation (step m P) (step m T) NoDoContinue (fun r r' => r.store = r'.store) (Match T) := by
  constructor
  · rintro _ _ τ s' (⟨h, hs, hp⟩ | ⟨h, hs, hl⟩) hok hstep
    · exact code_next h hs hp hok hstep
    · cases hstep
      exact ⟨2, _, .event rfl (.silent rfl (.silent (goto_top hl _) (.refl _))), .done (.top h hs hl)⟩
  · rintro _ _ (⟨h, hs, hp⟩ | ⟨h, hs, hl⟩) hok hstep
    · exact ⟨0, _, .refl _, code_last h hs hstep, rfl⟩
    · cases hstep

/-- **The goto program does what the structured program does**, in every run that executes no `continue` of a `do`
loop. -/
theorem pass1_same_behaviour (m : Sem A C E V Store) (body : Body A C E V) (hs : Structured body) (n : ℕ)
    (σ : Store) (hok : Always (step m body) NoDoContinue (start body σ)) :
    SameBehaviour m body (pass1 n body).2 σ := by
  have hsim := pass1_simulation m body (pass1 n body).2
  have hmatch : Match (pass1 n body).2 (start body σ) (start (pass1 n body).2 σ) := by
    have hp : Placed (pass1 n body).2 (pass1 n body).2 .stop := by
      rw [pass1_eq]
      exact .whole (labels_lower hs _ n).2
    rw [pass1_eq] at hp ⊢
    exact .code .stop hs hp
  exact ⟨hsim.emits_iff hmatch hok, hsim.ends_iff hmatch hok, fun τ r r' h h' => hsim.ends_fin hmatch hok h h'⟩

end

end OpenHT.Htc
