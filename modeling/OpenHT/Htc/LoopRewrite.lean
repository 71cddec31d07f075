import OpenHT.Lib.Flow

/-!
# `RewriteControlFlowPass1Visitor`

Loops become labels and jumps, innermost loops first.

* `rewriteTopTestedLoop`, `visitSgDoWhileStmt`: a loop whose body was rewritten.
* `pass1`: the pass over a function body, which numbers the loops.
* `lower`: the same code in one descent, with the targets of `break` and `continue` at hand.
-/

namespace OpenHT.Htc

open Flow

/-- What the name of a new label starts with. -/
inductive LabelBase
  | loopTop
  | loopExit
  | ifElse
  | ifJoin
  | switchJoin
  | switchCase
  | switchDefault
deriving DecidableEq, Repr

/-- A label of the user, or a new one with its number. -/
inductive Label
  | user (n : ℕ)
  | made (base : LabelBase) (ln : ℕ)
deriving DecidableEq, Repr

variable {A C E V : Type}

/-- A statement of a function body. -/
abbrev Body (A C E V : Type) := Stmt A C E V Label

/-- `makeIfWithGoto` -/
def makeIfWithGoto (cond : Test C) (labStmt : Label) (negateCond : Bool) : Body A C E V :=
  .ifElse true (if negateCond then cond.neg else cond) (.goto labStmt) .skip

/-- The code of a `continue`: the increment of a `for`, and the jump. -/
def continueCode (labelTop : Label) : Option A → Body A C E V
  | some incr => .seq (.act incr) (.goto labelTop)
  | none => .goto labelTop

/-- `rewriteActiveContinueStmts`, for the `continue` statements of this loop. -/
def rewriteActiveContinueStmts (labelTop : Label) (incr : Option A) : Body A C E V → Body A C E V
  | .cont => continueCode labelTop incr
  | .seq s t => .seq (rewriteActiveContinueStmts labelTop incr s) (rewriteActiveContinueStmts labelTop incr t)
  | .ifElse keep c s t =>
    .ifElse keep c (rewriteActiveContinueStmts labelTop incr s) (rewriteActiveContinueStmts labelTop incr t)
  | .switch e b => .switch e (rewriteActiveContinueStmts labelTop incr b)
  | .option v b r =>
    .option v (rewriteActiveContinueStmts labelTop incr b) (rewriteActiveContinueStmts labelTop incr r)
  | s => s

attribute [local simp] rewriteActiveContinueStmts

/-- `rewriteActiveBreakStmts`, for the `break` statements of this loop or `switch`. -/
def rewriteActiveBreakStmts (labelExit : Label) : Body A C E V → Body A C E V
  | .brk => .goto labelExit
  | .seq s t => .seq (rewriteActiveBreakStmts labelExit s) (rewriteActiveBreakStmts labelExit t)
  | .ifElse keep c s t =>
    .ifElse keep c (rewriteActiveBreakStmts labelExit s) (rewriteActiveBreakStmts labelExit t)
  | .option v b r => .option v (rewriteActiveBreakStmts labelExit b) (rewriteActiveBreakStmts labelExit r)
  | s => s

attribute [local simp] rewriteActiveBreakStmts

/-- A statement at the end of a block. -/
def appendIncr (body : Body A C E V) : Option A → Body A C E V
  | some incr => .seq body (.act incr)
  | none => body

attribute [local simp] appendIncr

/-- The block of a loop that tests at its top. -/
def topTestedBlock (ln : ℕ) (init : List A) (cond : Option C) (incr : Option A) (body : Body A C E V) :
    Body A C E V :=
  .seq .skip (.seq (Stmt.acts init) (.seq (.label (.made .loopTop ln))
    (.seq (makeIfWithGoto ⟨false, cond⟩ (.made .loopExit ln) true)
      (.seq (.seq (appendIncr body incr) (.goto (.made .loopTop ln))) (.label (.made .loopExit ln))))))

/-- `rewriteTopTestedLoop_Common` -/
def rewriteTopTestedLoop (ln : ℕ) (init : List A) (cond : Option C) (incr : Option A) (body : Body A C E V) :
    Body A C E V :=
  rewriteActiveBreakStmts (.made .loopExit ln)
    (rewriteActiveContinueStmts (.made .loopTop ln) incr (topTestedBlock ln init cond incr body))

/-- The block of a `do` loop. -/
def doWhileBlock (ln : ℕ) (body : Body A C E V) (cond : C) : Body A C E V :=
  .seq .skip (.seq (.seq (.seq (.seq (.label (.made .loopTop ln)) body)
    (makeIfWithGoto (.pos cond) (.made .loopTop ln) false)) .skip) (.label (.made .loopExit ln)))

def visitSgDoWhileStmt (ln : ℕ) (body : Body A C E V) (cond : C) : Body A C E V :=
  rewriteActiveBreakStmts (.made .loopExit ln)
    (rewriteActiveContinueStmts (.made .loopTop ln) none (doWhileBlock ln body cond))

/-- The pass in postorder, with `gensym_counter`. -/
def pass1 : ℕ → Body A C E V → ℕ × Body A C E V
  | n, .seq s t => ((pass1 (pass1 n s).1 t).1, .seq (pass1 n s).2 (pass1 (pass1 n s).1 t).2)
  | n, .ifElse keep c s t =>
    ((pass1 (pass1 n s).1 t).1, .ifElse keep c (pass1 n s).2 (pass1 (pass1 n s).1 t).2)
  | n, .switch e b => ((pass1 n b).1, .switch e (pass1 n b).2)
  | n, .option v b r => ((pass1 (pass1 n b).1 r).1, .option v (pass1 n b).2 (pass1 (pass1 n b).1 r).2)
  | n, .loop init c i b => ((pass1 n b).1 + 1, rewriteTopTestedLoop ((pass1 n b).1 + 1) init c i (pass1 n b).2)
  | n, .doWhile b c => ((pass1 n b).1 + 1, visitSgDoWhileStmt ((pass1 n b).1 + 1) (pass1 n b).2 c)
  | n, s => (n, s)

attribute [local simp] pass1

attribute [local simp] pass1

/-! ## One descent -/

/-- Where `break` and `continue` jump to. -/
structure Targets (A : Type) where
  brk : Option Label
  cont : Option (Label × Option A)

/-- The number of loops. -/
def loops : Body A C E V → ℕ
  | .seq s t => loops s + loops t
  | .ifElse _ _ s t => loops s + loops t
  | .switch _ b => loops b
  | .option _ b r => loops b + loops r
  | .loop _ _ _ b => loops b + 1
  | .doWhile b _ => loops b + 1
  | _ => 0

/-- The targets in the body of a loop. -/
def loopTargets (ln : ℕ) (incr : Option A) : Targets A :=
  ⟨some (.made .loopExit ln), some (.made .loopTop ln, incr)⟩

/-- The code of a statement whose loops are numbered after `n`. -/
def lower (g : Targets A) : ℕ → Body A C E V → Body A C E V
  | n, .seq s t => .seq (lower g n s) (lower g (n + loops s) t)
  | n, .ifElse keep c s t => .ifElse keep c (lower g n s) (lower g (n + loops s) t)
  | n, .switch e b => .switch e (lower ⟨none, g.cont⟩ n b)
  | n, .option v b r => .option v (lower g n b) (lower g (n + loops b) r)
  | n, .loop init c i b =>
    topTestedBlock (n + loops b + 1) init c i (lower (loopTargets (n + loops b + 1) i) n b)
  | n, .doWhile b c => doWhileBlock (n + loops b + 1) (lower (loopTargets (n + loops b + 1) none) n b) c
  | _, .brk => g.brk.elim .brk .goto
  | _, .cont => g.cont.elim .cont fun t => continueCode t.1 t.2
  | _, s => s

attribute [local simp] lower

variable {g : Targets A} {l : Label} {incr : Option A} {n ln : ℕ} {s b : Body A C E V}

attribute [local simp] Flow.Stmt.acts

theorem rewriteContinue_acts (init : List A) :
    rewriteActiveContinueStmts l incr (Stmt.acts init : Body A C E V) = Stmt.acts init := by
  induction init with
  | nil => rfl
  | cons a as ih =>
    rw [Stmt.acts, rewriteActiveContinueStmts, ih]
    rfl

theorem rewriteBreak_acts (init : List A) :
    rewriteActiveBreakStmts l (Stmt.acts init : Body A C E V) = Stmt.acts init := by
  induction init with
  | nil => rfl
  | cons a as ih =>
    rw [Stmt.acts, rewriteActiveBreakStmts, ih]
    rfl

/-- Only the body of a block has statements that are rewritten. -/
theorem rewriteContinue_topTested (init : List A) (c : Option C) (i : Option A) :
    rewriteActiveContinueStmts l incr (topTestedBlock ln init c i b) =
      topTestedBlock ln init c i (rewriteActiveContinueStmts l incr b) := by
  cases i <;> simp [topTestedBlock, appendIncr, makeIfWithGoto, rewriteActiveContinueStmts, rewriteContinue_acts]

theorem rewriteBreak_topTested (init : List A) (c : Option C) (i : Option A) :
    rewriteActiveBreakStmts l (topTestedBlock ln init c i b) =
      topTestedBlock ln init c i (rewriteActiveBreakStmts l b) := by
  cases i <;> simp [topTestedBlock, appendIncr, makeIfWithGoto, rewriteActiveBreakStmts, rewriteBreak_acts]

theorem rewriteContinue_doWhile (c : C) :
    rewriteActiveContinueStmts l incr (doWhileBlock ln b c) =
      doWhileBlock ln (rewriteActiveContinueStmts l incr b) c := rfl

theorem rewriteBreak_doWhile (c : C) :
    rewriteActiveBreakStmts l (doWhileBlock ln b c) = doWhileBlock ln (rewriteActiveBreakStmts l b) c := rfl

/-- The `continue` statements of the innermost loop get their target. -/
theorem rewriteContinue_lower (l : Label) (incr : Option A) (g : Targets A) (n : ℕ) (s : Body A C E V) :
    rewriteActiveContinueStmts l incr (lower g n s) =
      lower ⟨g.brk, some (g.cont.getD (l, incr))⟩ n s := by
  induction s generalizing g n with
  | seq s t ihs iht => rw [lower, rewriteActiveContinueStmts, ihs, iht, lower]
  | ifElse keep c s t ihs iht => rw [lower, rewriteActiveContinueStmts, ihs, iht, lower]
  | switch e b ih => rw [lower, rewriteActiveContinueStmts, ih, lower]
  | option v b r ihb ihr => rw [lower, rewriteActiveContinueStmts, ihb, ihr, lower]
  | loop init c i b ih =>
    rw [lower, rewriteContinue_topTested, ih, lower]
    rfl
  | doWhile b c ih =>
    rw [lower, rewriteContinue_doWhile, ih, lower]
    rfl
  | brk =>
    obtain ⟨gb, gc⟩ := g
    cases gb <;> rfl
  | cont =>
    obtain ⟨gb, gc⟩ := g
    cases gc with
    | none => rfl
    | some t =>
      obtain ⟨l', i⟩ := t
      cases i <;> rfl
  | _ => rfl

/-- So do its `break` statements. -/
theorem rewriteBreak_lower (l : Label) (g : Targets A) (n : ℕ) (s : Body A C E V) :
    rewriteActiveBreakStmts l (lower g n s) = lower ⟨some (g.brk.getD l), g.cont⟩ n s := by
  induction s generalizing g n with
  | seq s t ihs iht => rw [lower, rewriteActiveBreakStmts, ihs, iht, lower]
  | ifElse keep c s t ihs iht => rw [lower, rewriteActiveBreakStmts, ihs, iht, lower]
  | switch e b ih => rfl
  | option v b r ihb ihr => rw [lower, rewriteActiveBreakStmts, ihb, ihr, lower]
  | loop init c i b ih =>
    rw [lower, rewriteBreak_topTested, ih, lower]
    rfl
  | doWhile b c ih =>
    rw [lower, rewriteBreak_doWhile, ih, lower]
    rfl
  | brk =>
    obtain ⟨gb, gc⟩ := g
    cases gb <;> rfl
  | cont =>
    obtain ⟨gb, gc⟩ := g
    cases gc with
    | none => rfl
    | some t =>
      obtain ⟨l', i⟩ := t
      cases i <;> rfl
  | _ => rfl

/-- **The pass in one descent.** -/
theorem pass1_eq (n : ℕ) (s : Body A C E V) : pass1 n s = (n + loops s, lower ⟨none, none⟩ n s) := by
  induction s generalizing n with
  | seq s t ihs iht =>
    rw [pass1, ihs, iht, loops, lower, Nat.add_assoc]
  | ifElse keep c s t ihs iht =>
    rw [pass1, ihs, iht, loops, lower, Nat.add_assoc]
  | switch e b ih => rw [pass1, ih, loops, lower]
  | option v b r ihb ihr =>
    rw [pass1, ihb, ihr, loops, lower, Nat.add_assoc]
  | loop init c i b ih =>
    rw [pass1, ih]
    dsimp only
    rw [rewriteTopTestedLoop, rewriteContinue_topTested, rewriteBreak_topTested, rewriteContinue_lower,
      rewriteBreak_lower, loops, lower]
    rfl
  | doWhile b c ih =>
    rw [pass1, ih]
    dsimp only
    rw [visitSgDoWhileStmt, rewriteContinue_doWhile, rewriteBreak_doWhile, rewriteContinue_lower,
      rewriteBreak_lower, loops, lower]
    rfl
  | _ => rfl

/-! ## The labels of the code -/

/-- No labels and no jumps of its own. -/
def Structured : Body A C E V → Prop
  | .seq s t => Structured s ∧ Structured t
  | .ifElse _ _ s t => Structured s ∧ Structured t
  | .switch _ b => Structured b
  | .option _ b r => Structured b ∧ Structured r
  | .loop _ _ _ b => Structured b
  | .doWhile b _ => Structured b
  | .label _ | .goto _ => False
  | .skip | .act _ | .brk | .cont => True

theorem labels_acts (init : List A) : (Stmt.acts init : Body A C E V).labels = [] := by
  induction init with
  | nil => rfl
  | cons a as ih => exact ih

theorem labels_topTested (init : List A) (c : Option C) (i : Option A) :
    (topTestedBlock ln init c i b).labels = .made .loopTop ln :: (b.labels ++ [.made .loopExit ln]) := by
  cases i <;> simp [topTestedBlock, appendIncr, makeIfWithGoto, Stmt.labels, labels_acts]

theorem labels_doWhile (c : C) :
    (doWhileBlock ln b c).labels = .made .loopTop ln :: (b.labels ++ [.made .loopExit ln]) := by
  simp [doWhileBlock, makeIfWithGoto, Stmt.labels]

/-- A new label of a loop with a number after `n`, up to `m`. -/
def Numbered (n m : ℕ) (l : Label) : Prop := ∃ base ln, l = .made base ln ∧ n < ln ∧ ln ≤ m

theorem Numbered.mono {n' m m' : ℕ} {l : Label} (h : Numbered n m l) (hn : n' ≤ n) (hm : m ≤ m') :
    Numbered n' m' l := by
  obtain ⟨base, ln, rfl, h1, h2⟩ := h
  exact ⟨base, ln, rfl, by omega, by omega⟩

/-- Parts with numbers one after the other share no label. -/
theorem nodup_append_of_numbered {xs ys : List Label} {n m k : ℕ} (hx : ∀ l ∈ xs, Numbered n m l)
    (hy : ∀ l ∈ ys, Numbered m k l) (hxs : xs.Nodup) (hys : ys.Nodup) : (xs ++ ys).Nodup := by
  refine List.nodup_append.2 ⟨hxs, hys, ?_⟩
  rintro l hl _ hl' rfl
  obtain ⟨b₁, l₁, rfl, h₁, h₂⟩ := hx l hl
  obtain ⟨b₂, l₂, heq, h₃, h₄⟩ := hy _ hl'
  cases heq
  omega

/-- The labels of a loop around those of its body. -/
theorem loop_labels {xs : List Label} {m : ℕ} (hx : ∀ l ∈ xs, Numbered n m l) (hxs : xs.Nodup) (hle : n ≤ m) :
    (∀ l ∈ Label.made .loopTop (m + 1) :: (xs ++ [.made .loopExit (m + 1)]), Numbered n (m + 1) l) ∧
      (Label.made .loopTop (m + 1) :: (xs ++ [.made .loopExit (m + 1)])).Nodup := by
  have hnew : ∀ base, Label.made base (m + 1) ∉ xs := by
    intro base hmem
    obtain ⟨b', l', heq, h₁, h₂⟩ := hx _ hmem
    cases heq
    omega
  constructor
  · intro l hl
    rcases List.mem_cons.1 hl with rfl | hl
    · exact ⟨_, _, rfl, by omega, Nat.le_refl _⟩
    · rcases List.mem_append.1 hl with hl | hl
      · exact (hx l hl).mono (Nat.le_refl n) (Nat.le_succ m)
      · obtain rfl := List.mem_singleton.1 hl
        exact ⟨_, _, rfl, by omega, Nat.le_refl _⟩
  · refine List.nodup_cons.2 ⟨fun hl => ?_, List.nodup_append.2 ⟨hxs, by simp, ?_⟩⟩
    · rcases List.mem_append.1 hl with hl | hl
      · exact hnew _ hl
      · cases List.mem_singleton.1 hl
    · rintro l hl l' hl' rfl
      obtain rfl := List.mem_singleton.1 hl'
      exact hnew _ hl

/-- **The new labels are numbered in order and all different.** -/
theorem labels_lower (hs : Structured s) (g : Targets A) (n : ℕ) :
    (∀ l ∈ (lower g n s).labels, Numbered n (n + loops s) l) ∧ (lower g n s).labels.Nodup := by
  have happend : ∀ {s t : Body A C E V} {g g' : Targets A} {n},
      ((∀ l ∈ (lower g n s).labels, Numbered n (n + loops s) l) ∧ (lower g n s).labels.Nodup) →
      ((∀ l ∈ (lower g' (n + loops s) t).labels, Numbered (n + loops s) (n + loops s + loops t) l) ∧
        (lower g' (n + loops s) t).labels.Nodup) →
      (∀ l ∈ (lower g n s).labels ++ (lower g' (n + loops s) t).labels,
        Numbered n (n + (loops s + loops t)) l) ∧
        ((lower g n s).labels ++ (lower g' (n + loops s) t).labels).Nodup := by
    rintro s t g g' n ⟨h₁, h₂⟩ ⟨h₃, h₄⟩
    refine ⟨fun l hl => ?_, nodup_append_of_numbered h₁ h₃ h₂ h₄⟩
    rcases List.mem_append.1 hl with hl | hl
    · exact (h₁ l hl).mono (Nat.le_refl _) (by omega)
    · exact (h₃ l hl).mono (by omega) (by omega)
  induction s generalizing g n with
  | seq s t ihs iht => exact happend (ihs hs.1 g n) (iht hs.2 g _)
  | ifElse keep c s t ihs iht => exact happend (ihs hs.1 g n) (iht hs.2 g _)
  | option v b r ihb ihr => exact happend (ihb hs.1 g n) (ihr hs.2 g _)
  | switch e b ih => exact ih hs _ n
  | loop init c i b ih =>
    rw [lower, labels_topTested]
    obtain ⟨h₁, h₂⟩ := ih hs (loopTargets (n + loops b + 1) i) n
    exact loop_labels h₁ h₂ (Nat.le_add_right n _)
  | doWhile b c ih =>
    rw [lower, labels_doWhile]
    obtain ⟨h₁, h₂⟩ := ih hs (loopTargets (n + loops b + 1) none) n
    exact loop_labels h₁ h₂ (Nat.le_add_right n _)
  | label l => exact hs.elim
  | brk =>
    obtain ⟨gb, gc⟩ := g
    cases gb <;> exact ⟨fun l hl => (by cases hl), List.nodup_nil⟩
  | cont =>
    obtain ⟨gb, gc⟩ := g
    cases gc with
    | none => exact ⟨fun l hl => (by cases hl), List.nodup_nil⟩
    | some t =>
      obtain ⟨l', i⟩ := t
      cases i <;> exact ⟨fun l hl => (by cases hl), List.nodup_nil⟩
  | _ => exact ⟨fun l hl => (by cases hl), List.nodup_nil⟩

end OpenHT.Htc
