import OpenHT.Htc.LoopSim

/-!
# `continue` in a `do` loop

The pass sends it to the top of the loop, behind the condition.

* `always_noDoContinue`: a body without one never executes one.
* `do_continue_differs`: what the pass makes of one.
-/

namespace OpenHT.Htc

open Flow Trace

variable {A C E V Store : Type}

/-- No `continue` belongs to a `do` loop; `inDo` if the loop around the statement is one. -/
def DoFree : Bool → Body A C E V → Prop
  | inDo, .cont => inDo = false
  | inDo, .seq s t => DoFree inDo s ∧ DoFree inDo t
  | inDo, .ifElse _ _ s t => DoFree inDo s ∧ DoFree inDo t
  | inDo, .switch _ b => DoFree inDo b
  | inDo, .option _ b r => DoFree inDo b ∧ DoFree inDo r
  | _, .loop _ _ _ b => DoFree false b
  | _, .doWhile b _ => DoFree true b
  | _, .skip | _, .act _ | _, .brk | _, .label _ | _, .goto _ => True

/-- The statements after one in a loop of this kind. -/
inductive FreeK : Cont A C E V Label → Bool → Prop
  | stop (inDo : Bool) : FreeK .stop inDo
  | seq {s : Body A C E V} {k : Cont A C E V Label} {inDo : Bool} (hs : DoFree inDo s) (hn : Structured s)
    (h : FreeK k inDo) : FreeK (.seq s k) inDo
  | switch {k : Cont A C E V Label} {inDo : Bool} (h : FreeK k inDo) : FreeK (.switch k) inDo
  | test {c : Option C} {i : Option A} {b : Body A C E V} {k : Cont A C E V Label} {inDo : Bool} (hb : DoFree false b)
    (hn : Structured b) (h : FreeK k inDo) : FreeK (.test c i b k) false
  | body {c : Option C} {i : Option A} {b : Body A C E V} {k : Cont A C E V Label} {inDo : Bool} (hb : DoFree false b)
    (hn : Structured b) (h : FreeK k inDo) : FreeK (.body c i b k) false
  | doBody {c : C} {b : Body A C E V} {k : Cont A C E V Label} {inDo : Bool} (hb : DoFree true b) (hn : Structured b)
    (h : FreeK k inDo) : FreeK (.doBody b c k) true

/-- What every state of such a body keeps. -/
def FreeState (st : State A C E V Label Store) : Prop :=
  ∃ inDo, DoFree inDo st.stmt ∧ Structured st.stmt ∧ FreeK st.cont inDo

variable {m : Sem A C E V Store} {P : Body A C E V} {k : Cont A C E V Label} {σ : Store} {b : Body A C E V}
  {inDo : Bool}

theorem FreeK.skip (h : FreeK k inDo) : FreeState (⟨.skip, k, σ⟩ : State A C E V Label Store) :=
  ⟨inDo, trivial, trivial, h⟩

theorem FreeK.breakOut (h : FreeK k inDo) {kb : Cont A C E V Label} (hk : k.breakOut = some kb) :
    ∃ d, FreeK kb d := by
  induction h with
  | stop => cases hk
  | seq _ _ _ ih => exact ih hk
  | switch h _ | test _ _ h _ | body _ _ h _ | doBody _ _ h _ =>
    cases hk
    exact ⟨_, h⟩

theorem FreeK.continueTo (h : FreeK k inDo) {kc : Cont A C E V Label} (hk : k.continueTo = some kc) :
    FreeK kc inDo ∧ (inDo = false → ∀ b c k₁, kc ≠ .doBody b c k₁) := by
  induction h with
  | stop => cases hk
  | seq _ _ _ ih => exact ih hk
  | switch _ ih => exact ih hk
  | test hb hn h _ | body hb hn h _ =>
    cases hk
    exact ⟨.body hb hn h, fun _ _ _ _ hne => by cases hne⟩
  | doBody hb hn h _ =>
    cases hk
    exact ⟨.doBody hb hn h, fun hd => by cases hd⟩

theorem doFree_acts (init : List A) : DoFree inDo (Stmt.acts init : Body A C E V) := by
  induction init with
  | nil => trivial
  | cons a as ih => exact ⟨trivial, ih⟩

section

variable [DecidableEq V]

theorem doFree_select (w : V) (h : DoFree inDo b) (hs : Structured b) :
    DoFree inDo (b.select w) ∧ Structured (b.select w) := by
  have hcase : ∀ s, b.findCase w = some s → DoFree inDo s ∧ Structured s := by
    intro s hc
    induction b with
    | option v b r _ ihr =>
      rw [Stmt.findCase] at hc
      split at hc
      · cases hc
        exact ⟨h, hs⟩
      · exact ihr h.2 hs.2 hc
    | _ => cases hc
  have hdefault : ∀ s, b.findDefault = some s → DoFree inDo s ∧ Structured s := by
    intro s hd
    clear hcase
    induction b with
    | option v b r _ ihr =>
      rw [Stmt.findDefault] at hd
      split at hd
      · cases hd
        exact ⟨h, hs⟩
      · exact ihr h.2 hs.2 hd
    | _ => cases hd
  unfold Stmt.select
  cases hc : b.findCase w with
  | some s => exact hcase s hc
  | none =>
    cases hd : b.findDefault with
    | some s => exact hdefault s hd
    | none => exact ⟨trivial, trivial⟩

theorem FreeK.skip_step (h : FreeK k inDo) {τ : List (Event A C E)} {s' : State A C E V Label Store}
    (hstep : step m P ⟨.skip, k, σ⟩ = some (τ, s')) : FreeState s' := by
  cases h with
  | stop => cases hstep
  | seq hs hn h =>
    cases hstep
    exact ⟨_, hs, hn, h⟩
  | switch h =>
    cases hstep
    exact h.skip
  | @test c _ _ _ _ hb hn h =>
    cases hstep
    by_cases hc : Test.eval m ⟨false, c⟩ σ = true
    · rw [if_pos hc]
      exact ⟨false, hb, hn, .body hb hn h⟩
    · rw [if_neg hc]
      exact h.skip
  | @body c i _ _ _ hb hn h =>
    cases i with
    | some a =>
      cases hstep
      exact FreeK.skip (.test hb hn h)
    | none =>
      cases hstep
      by_cases hc : Test.eval m ⟨false, c⟩ σ = true
      · rw [if_pos hc]
        exact ⟨false, hb, hn, .body hb hn h⟩
      · rw [if_neg hc]
        exact h.skip
  | @doBody c _ _ _ hb hn h =>
    cases hstep
    by_cases hc : m.test c σ = true
    · rw [if_pos hc]
      exact ⟨true, hb, hn, .doBody hb hn h⟩
    · rw [if_neg hc]
      exact h.skip

theorem FreeState.step {st st' : State A C E V Label Store} (h : FreeState st) {τ : List (Event A C E)}
    (hstep : step m P st = some (τ, st')) : FreeState st' := by
  obtain ⟨s, k, σ⟩ := st
  obtain ⟨d, hd, hs, hk⟩ := h
  cases s with
  | skip => exact hk.skip_step hstep
  | act a =>
    cases hstep
    exact hk.skip
  | seq s t =>
    cases hstep
    exact ⟨d, hd.1, hs.1, .seq hd.2 hs.2 hk⟩
  | ifElse keep c s t =>
    cases hstep
    by_cases hc : c.eval m σ = true
    · rw [if_pos hc]
      exact ⟨d, hd.1, hs.1, hk⟩
    · rw [if_neg hc]
      exact ⟨d, hd.2, hs.2, hk⟩
  | switch e b =>
    cases hstep
    obtain ⟨h₁, h₂⟩ := doFree_select (b := b) (m.select e σ) hd hs
    exact ⟨d, h₁, h₂, .switch hk⟩
  | option v b r =>
    cases hstep
    exact ⟨d, hd.1, hs.1, .seq hd.2 hs.2 hk⟩
  | loop init c i b =>
    cases hstep
    exact ⟨false, doFree_acts init, structured_acts init, .test hd hs hk⟩
  | doWhile b c =>
    cases hstep
    exact ⟨true, hd, hs, .doBody hd hs hk⟩
  | brk =>
    obtain ⟨kb, hkb, heq⟩ := Option.map_eq_some_iff.1 (hstep : k.breakOut.map _ = _)
    cases heq
    obtain ⟨d', h'⟩ := hk.breakOut hkb
    exact h'.skip
  | cont =>
    obtain ⟨kc, hkc, heq⟩ := Option.map_eq_some_iff.1 (hstep : k.continueTo.map _ = _)
    cases heq
    exact (hk.continueTo hkc).1.skip
  | label l => exact hs.elim
  | goto l => exact hs.elim

/-- **Where no `continue` belongs to a `do` loop, none is ever executed.** -/
theorem always_noDoContinue (m : Sem A C E V Store) {body : Body A C E V} (hs : Structured body)
    (hd : DoFree false body) (σ : Store) : Always (step m body) NoDoContinue (start body σ) := by
  intro n τ r hrun
  have hstart : FreeState (start body σ) := ⟨false, hd, hs, .stop false⟩
  have hfree : FreeState r := by
    generalize start body σ = st at hrun hstart
    induction hrun with
    | refl _ => exact hstart
    | head hstep _ ih => exact ih (hstart.step hstep)
  obtain ⟨d, hdr, -, hk⟩ := hfree
  intro hcont b c k hkc
  rw [hcont] at hdr
  exact (hk.continueTo hkc).2 hdr b c k rfl

end

/-! ## Two loops -/

/-- Actions add, conditions and selectors are limits. -/
def demoSem : Sem ℕ ℕ ℕ ℕ ℕ := ⟨fun a σ => σ + a, fun c σ => decide (σ < c), fun _ σ => σ⟩

/-- `for (; c9; a2) { if (c4) continue; a1; do { a3; break; } while (c5); }` -/
def demoBody : Body ℕ ℕ ℕ ℕ :=
  .loop [] (some 9) (some 2) (.seq (.ifElse false (.pos 4) .cont .skip)
    (.seq (.act 1) (.doWhile (.seq (.act 3) .brk) 5)))

theorem pass1_same_behaviour_demo : SameBehaviour demoSem demoBody (pass1 0 demoBody).2 0 :=
  have hs : Structured demoBody := ⟨⟨trivial, trivial⟩, trivial, trivial, trivial⟩
  have hd : DoFree false demoBody := ⟨⟨rfl, trivial⟩, trivial, trivial, trivial⟩
  pass1_same_behaviour demoSem demoBody hs 0 0 (always_noDoContinue demoSem hs hd 0)

/-- `do { a1; continue; } while (c0);` -/
def doContinue : Body ℕ ℕ ℕ ℕ := .doWhile (.seq (.act 1) .cont) 0

/-- **A `continue` in a `do` loop skips the condition.** The loop ends after one turn in C; the goto program goes
on. -/
theorem do_continue_differs : ¬SameBehaviour demoSem doContinue (pass1 0 doContinue).2 0 := by
  rintro ⟨hemits, -, -⟩
  have hgoto : Emits (step demoSem (pass1 0 doContinue).2) (start (pass1 0 doContinue).2 0)
      [.act 1, .act 1] := by
    refine ⟨15, [], ⟨.skip, .seq (.goto (.made .loopTop 1)) (afterDoBody 1 0 .stop), 2⟩, ?_⟩
    iterate 9 refine .silent rfl ?_
    refine .emit rfl ?_
    iterate 4 refine .silent rfl ?_
    exact .emit rfl (.refl _)
  have hends : Ends (step demoSem doContinue) (start doContinue 0) [.act 1, .test 0] ⟨.skip, .stop, 1⟩ := by
    refine ⟨6, ?_, rfl⟩
    iterate 2 refine .silent rfl ?_
    refine .emit rfl ?_
    iterate 2 refine .silent rfl ?_
    exact .emit rfl (.refl _)
  obtain ⟨n, τ', r, hrun⟩ := (hemits _).2 hgoto
  obtain ⟨m, hs, hend⟩ := hends
  obtain ⟨-, τ'', hτ⟩ := hs.of_ends hend hrun
  cases hτ

end OpenHT.Htc
