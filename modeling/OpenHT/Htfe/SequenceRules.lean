import Mathlib.Data.Nat.Notation
import Mathlib.Logic.Function.Basic

/-!
# `CheckSequenceRules`

One pass over the statements of a method, in the order of the text, finds variables that are read before they are set,
and expressions over register values from both sides of the clock.

* `Stmts`, `checkSequenceRules`: the statements and the pass.
* `paths`: the control-flow paths, each step with the text before it.
* `PathState`, `Sound`: what a path makes of the variables, and that its reads are sound.
* `sequence_check_sound`: when an accepted method is sound on every path.
-/

namespace OpenHT.Htfe.SeqRules

inductive ESeqState
  | ssUnknown
  | ssPreClk
  | ssPostClk
  | ssContinuous
  | ssError
deriving DecidableEq, Repr

/-- `IsRegister()`, `IsLocal()`, or neither. -/
inductive VarKind
  | register
  | global
  | localVar
deriving DecidableEq, Repr

/-- The variables of a module, and which of them another method assigns. -/
structure Decls where
  kind : ℕ → VarKind
  otherMethod : ℕ → Bool

/-- Expressions over scalar variables. -/
inductive Expr
  | const
  | var (v : ℕ)
  | unary (operand1 : Expr)
  | binary (operand1 operand2 : Expr)
  | question (operand1 operand2 operand3 : Expr)
  | typeCast (operand2 : Expr)
deriving DecidableEq, Repr

/-- Statements, each with the rest of its list. -/
inductive Stmts
  | nil
  | assign (v : ℕ) (e : Expr) (next : Stmts)
  | incr (v : ℕ) (next : Stmts)
  | ite (e : Expr) (compound1 compound2 next : Stmts)
  | switch (e : Expr) (compound1 next : Stmts)
  | caseOf (e : Expr) (compound1 next : Stmts)
  | default (compound1 next : Stmts)
  | compound (compound1 next : Stmts)
  | brk (next : Stmts)
deriving DecidableEq, Repr

/-- The state of the pass: the variables, `m_seqStateStack.back()` and the reported errors. -/
structure CheckState where
  seqState : ℕ → ESeqState
  back : ESeqState
  errorCnt : ℕ

namespace CheckState

variable (d : Decls) (st : CheckState)

/-- A read of a variable. -/
def readVar (v : ℕ) : CheckState :=
  match st.seqState v with
  | .ssUnknown => { st with errorCnt := st.errorCnt + 1, back := .ssUnknown }
  | .ssContinuous => if st.back = .ssUnknown then { st with back := .ssContinuous } else st
  | .ssError => st
  | s =>
    if st.back ≠ .ssUnknown ∧ st.back ≠ .ssContinuous ∧ st.back ≠ .ssError ∧ st.back ≠ s then
      { st with errorCnt := st.errorCnt + 1, back := .ssError }
    else { st with back := s }

/-- The left side of an assignment. -/
def writeVar (v : ℕ) : CheckState :=
  { st with
    seqState := Function.update st.seqState v (if d.kind v = .register then .ssPostClk else st.back)
    errorCnt := st.errorCnt + (if d.kind v = .register ∧ st.back = .ssPostClk then 1 else 0) +
      (if d.otherMethod v then 1 else 0) }

def checkExpr : CheckState → Expr → CheckState
  | st, .const => if st.back = .ssUnknown then { st with back := .ssContinuous } else st
  | st, .var v => st.readVar v
  | st, .unary a => checkExpr st a
  | st, .binary a b => checkExpr (checkExpr st a) b
  | st, .question a b c => checkExpr (checkExpr (checkExpr st a) b) c
  | st, .typeCast b => checkExpr st b

/-- An expression of its own. -/
def start : CheckState := { st with back := .ssUnknown }

end CheckState

open CheckState

/-- `CheckSequenceRules` on a statement list -/
def checkStmts (d : Decls) : CheckState → Stmts → CheckState
  | st, .nil => st
  | st, .assign v e l => checkStmts d ((checkExpr st.start e).writeVar d v) l
  | st, .incr v l => checkStmts d ((st.start.readVar v).writeVar d v) l
  | st, .ite e a b l => checkStmts d (checkStmts d (checkStmts d (checkExpr st.start e) a) b) l
  | st, .switch e cases l => checkStmts d (checkStmts d (checkExpr st.start e) cases) l
  | st, .caseOf e body l => checkStmts d (checkStmts d (checkExpr st.start e) body) l
  | st, .default body l => checkStmts d (checkStmts d st body) l
  | st, .compound a l => checkStmts d (checkStmts d st a) l
  | st, .brk l => checkStmts d st l

/-- The states that a method starts with. -/
def initSeqState (d : Decls) (v : ℕ) : ESeqState :=
  match d.kind v with
  | .localVar => .ssUnknown
  | .register => .ssPreClk
  | .global => .ssContinuous

/-- `CheckSequenceRules` on a method -/
def checkSequenceRules (d : Decls) (body : Stmts) : CheckState := checkStmts d ⟨initSeqState d, .ssUnknown, 0⟩ body

/-! ## Paths -/

/-- An expression that is evaluated, or an assignment. -/
inductive Event
  | eval (e : Expr)
  | assign (v : ℕ) (e : Expr)
deriving DecidableEq, Repr

def Expr.reads : Expr → List ℕ
  | const => []
  | var v => [v]
  | unary a | typeCast a => a.reads
  | binary a b => a.reads ++ b.reads
  | question a b c => a.reads ++ b.reads ++ c.reads

def Event.expr : Event → Expr
  | eval e => e
  | assign _ e => e

/-- The expressions and assignments of a list, in the order of the text. -/
def text : Stmts → List Event
  | .nil => []
  | .assign v e l => .assign v e :: text l
  | .incr v l => .assign v (.var v) :: text l
  | .ite e a b l => .eval e :: (text a ++ text b ++ text l)
  | .switch e cases l => .eval e :: (text cases ++ text l)
  | .caseOf e body l => .eval e :: (text body ++ text l)
  | .default body l => text body ++ text l
  | .compound a l => text a ++ text l
  | .brk l => text l

/-- A path: its steps, each with the text before it, and whether it ends in a break. -/
abbrev Path := List (List Event × Event) × Bool

def Path.cons (t : List Event) (ev : Event) (p : Path) : Path := ((t, ev) :: p.1, p.2)

/-- A path, and then one of the rest if it did not break. -/
def Path.andThen (p : Path) (rest : List Path) : List Path := if p.2 then [p] else rest.map fun q => (p.1 ++ q.1, q.2)

def hasDefault : Stmts → Bool
  | .default _ _ => true
  | .caseOf _ _ l => hasDefault l
  | _ => false

mutual

/-- The paths through a list, where `t` is the text before it. -/
def paths (t : List Event) : Stmts → List Path
  | .nil => [([], false)]
  | .assign v e l => (paths (t ++ [.assign v e]) l).map (Path.cons t (.assign v e))
  | .incr v l => (paths (t ++ [.assign v (.var v)]) l).map (Path.cons t (.assign v (.var v)))
  | .ite e a b l =>
    ((paths (t ++ [.eval e]) a ++ paths (t ++ .eval e :: text a) b).flatMap fun p =>
      p.andThen (paths (t ++ .eval e :: (text a ++ text b)) l)).map (Path.cons t (.eval e))
  | .switch e cases l =>
    ((selectPaths (t ++ [Event.eval e]) cases ++ (if hasDefault cases then [] else [([], false)])).flatMap fun (p : Path) =>
      Path.andThen (p.1, false) (paths (t ++ Event.eval e :: text cases) l)).map (Path.cons t (Event.eval e))
  | .compound a l => (paths t a).flatMap fun p => p.andThen (paths (t ++ text a) l)
  | .brk _ => [([], true)]
  | .caseOf .. | .default .. => []

/-- From a label on, up to a break. -/
def casePaths (t : List Event) : Stmts → List Path
  | .caseOf e body l =>
    (paths (t ++ [.eval e]) body).flatMap fun p => p.andThen (casePaths (t ++ .eval e :: text body) l)
  | .default body l => (paths t body).flatMap fun p => p.andThen (casePaths (t ++ text body) l)
  | _ => [([], false)]

/-- From any label on. -/
def selectPaths (t : List Event) : Stmts → List Path
  | .caseOf e body l =>
    ((paths (t ++ [.eval e]) body).flatMap fun p => p.andThen (casePaths (t ++ .eval e :: text body) l)) ++
      selectPaths (t ++ .eval e :: text body) l
  | .default body l =>
    ((paths t body).flatMap fun p => p.andThen (casePaths (t ++ text body) l)) ++ selectPaths (t ++ text body) l
  | _ => []

end

/-! ## What a path does -/

/-- Which register values a value depends on: those before the clock, those after it. -/
structure Prov where
  pre : Bool
  post : Bool
deriving DecidableEq, Repr

def Prov.union (p q : Prov) : Prov := ⟨p.pre || q.pre, p.post || q.post⟩

/-- The values of the variables, where they have one. -/
abbrev PathState := ℕ → Option Prov

def PathState.init (d : Decls) : PathState := fun v =>
  match d.kind v with
  | .localVar => none
  | .register => some ⟨true, false⟩
  | .global => some ⟨false, false⟩

/-- What the value of an expression depends on. -/
def Expr.prov (σ : PathState) : Expr → Prov
  | const => ⟨false, false⟩
  | var v => (σ v).getD ⟨false, false⟩
  | unary a | typeCast a => a.prov σ
  | binary a b => (a.prov σ).union (b.prov σ)
  | question a b c => ((a.prov σ).union (b.prov σ)).union (c.prov σ)

def PathState.step (d : Decls) (σ : PathState) : Event → PathState
  | .eval _ => σ
  | .assign v e => Function.update σ v (some (if d.kind v = .register then ⟨false, true⟩ else e.prov σ))

def PathState.after (d : Decls) (t : List Event) : PathState := t.foldl (PathState.step d) (PathState.init d)

/-- **A sound event**: what it reads has been assigned, its expression does not mix values from before and after the
clock, and no register is assigned from one after it. -/
structure SoundEvent (d : Decls) (σ : PathState) (ev : Event) : Prop where
  assigned : ∀ v ∈ ev.expr.reads, (σ v).isSome
  pure : (ev.expr.prov σ).pre = false ∨ (ev.expr.prov σ).post = false
  register : ∀ v e, ev = .assign v e → d.kind v = .register → (e.prov σ).post = false

/-- A sound sequence of events. -/
def Sound (d : Decls) (t : List Event) : Prop :=
  ∀ t₁ ev t₂, t = t₁ ++ ev :: t₂ → SoundEvent d (PathState.after d t₁) ev

/-! ## The pass -/

/-- A step of the pass. -/
def checkEvent (d : Decls) (st : CheckState) : Event → CheckState
  | .eval e => checkExpr st.start e
  | .assign v e => (checkExpr st.start e).writeVar d v

variable {d : Decls}

/-- **The pass follows the text**, whatever the branches are. -/
theorem checkStmts_text (l : Stmts) (st : CheckState) : checkStmts d st l = (text l).foldl (checkEvent d) st := by
  induction l generalizing st with
  | nil => rfl
  | assign v e l ih => exact ih _
  | incr v l ih => exact ih _
  | ite e a b l iha ihb ihl =>
    rw [checkStmts, ihl, ihb, iha, text, List.foldl_cons, List.foldl_append, List.foldl_append]
    rfl
  | switch e cases l ihc ihl =>
    rw [checkStmts, ihl, ihc, text, List.foldl_cons, List.foldl_append]
    rfl
  | caseOf e body l ihb ihl =>
    rw [checkStmts, ihl, ihb, text, List.foldl_cons, List.foldl_append]
    rfl
  | default body l ihb ihl => rw [checkStmts, ihl, ihb, text, List.foldl_append]
  | compound a l iha ihl => rw [checkStmts, ihl, iha, text, List.foldl_append]
  | brk l ih => exact ih _

theorem readVar_errorCnt (st : CheckState) (v : ℕ) : st.errorCnt ≤ (st.readVar v).errorCnt := by
  unfold readVar
  split
  · exact Nat.le_succ _
  · split <;> exact Nat.le_refl _
  · exact Nat.le_refl _
  · split
    · exact Nat.le_succ _
    · exact Nat.le_refl _

theorem checkExpr_errorCnt (e : Expr) (st : CheckState) : st.errorCnt ≤ (checkExpr st e).errorCnt := by
  induction e generalizing st with
  | const =>
    unfold checkExpr
    split <;> exact Nat.le_refl _
  | var v => exact readVar_errorCnt st v
  | unary a iha => exact iha st
  | binary a b iha ihb => exact Nat.le_trans (iha st) (ihb _)
  | question a b c iha ihb ihc => exact Nat.le_trans (Nat.le_trans (iha st) (ihb _)) (ihc _)
  | typeCast b ihb => exact ihb st

theorem checkEvent_errorCnt (st : CheckState) (ev : Event) : st.errorCnt ≤ (checkEvent d st ev).errorCnt := by
  cases ev with
  | eval e => exact checkExpr_errorCnt e st.start
  | assign v e =>
    have hexpr : st.errorCnt ≤ (checkExpr st.start e).errorCnt := checkExpr_errorCnt e st.start
    unfold checkEvent writeVar
    simp only
    omega

theorem foldl_errorCnt (t : List Event) (st : CheckState) : st.errorCnt ≤ (t.foldl (checkEvent d) st).errorCnt := by
  induction t generalizing st with
  | nil => exact Nat.le_refl _
  | cons ev t ih => exact Nat.le_trans (checkEvent_errorCnt st ev) (ih _)

/-- The state that stands for a value. -/
def Prov.state : Prov → ESeqState
  | ⟨false, false⟩ => .ssContinuous
  | ⟨true, false⟩ => .ssPreClk
  | ⟨false, true⟩ => .ssPostClk
  | ⟨true, true⟩ => .ssError

def stateOf : Option Prov → ESeqState
  | none => .ssUnknown
  | some p => p.state

/-- No value depends on both sides of the clock. -/
def Prov.Pure (p : Prov) : Prop := p.pre = false ∨ p.post = false

/-- The pass and the values agree. -/
structure Follows (seqState : ℕ → ESeqState) (σ : PathState) : Prop where
  state : ∀ v, seqState v = stateOf (σ v)
  pure : ∀ v p, σ v = some p → p.Pure

/-- What has been read of an expression so far depends on `p`. -/
def Collected (back : ESeqState) (p : Prov) : Prop := (back = .ssUnknown ∧ p = ⟨false, false⟩) ∨ back = p.state

variable {st : CheckState} {σ : PathState}

theorem collected_start (st : CheckState) : Collected st.start.back ⟨false, false⟩ := .inl ⟨rfl, rfl⟩

/-- A read of a clocked value without an error: nothing from the other side has been read. -/
theorem readVar_clocked {v : ℕ} {s : ESeqState} (hs : st.seqState v = s) (hclocked : s = .ssPreClk ∨ s = .ssPostClk)
    (herr : (st.readVar v).errorCnt = st.errorCnt) :
    st.readVar v = { st with back := s } ∧
      (st.back = .ssUnknown ∨ st.back = .ssContinuous ∨ st.back = .ssError ∨ st.back = s) := by
  have hread : st.readVar v =
      if st.back ≠ .ssUnknown ∧ st.back ≠ .ssContinuous ∧ st.back ≠ .ssError ∧ st.back ≠ s then
        { st with errorCnt := st.errorCnt + 1, back := .ssError }
      else { st with back := s } := by
    unfold readVar
    rw [hs]
    obtain rfl | rfl := hclocked <;> rfl
  rw [hread] at herr ⊢
  split at herr
  next => exact absurd herr (Nat.succ_ne_self _)
  next h =>
    rw [if_neg h]
    refine ⟨rfl, ?_⟩
    by_cases h₁ : st.back = .ssUnknown
    · exact .inl h₁
    by_cases h₂ : st.back = .ssContinuous
    · exact .inr (.inl h₂)
    by_cases h₃ : st.back = .ssError
    · exact .inr (.inr (.inl h₃))
    · exact .inr (.inr (.inr (Classical.byContradiction fun h₄ => h ⟨h₁, h₂, h₃, h₄⟩)))

/-- A read without an error is of a variable that has a value, and adds what it depends on. -/
theorem readVar_follows {p : Prov} {v : ℕ} (hst : Follows st.seqState σ) (hback : Collected st.back p) (hp : p.Pure)
    (herr : (st.readVar v).errorCnt = st.errorCnt) :
    (st.readVar v).seqState = st.seqState ∧ ∃ q, σ v = some q ∧ (p.union q).Pure ∧
      (st.readVar v).back = (p.union q).state := by
  have hstate := hst.state v
  cases hσ : σ v with
  | none =>
    rw [hσ] at hstate
    rw [readVar, hstate] at herr
    exact absurd herr (Nat.succ_ne_self _)
  | some q =>
    have hq := hst.pure v q hσ
    rw [hσ] at hstate
    obtain ⟨pre, post⟩ := p
    obtain ⟨pre', post'⟩ := q
    cases pre' with
    | true =>
      obtain rfl : post' = false := hq.resolve_left Bool.noConfusion
      obtain ⟨hread, hfrom⟩ := readVar_clocked hstate (.inl rfl) herr
      rw [hread]
      refine ⟨rfl, _, rfl, ?_⟩
      cases pre <;> cases post <;> simp_all [Collected, Prov.Pure, Prov.state, Prov.union, stateOf]
    | false =>
      cases post' with
      | true =>
        obtain ⟨hread, hfrom⟩ := readVar_clocked hstate (.inr rfl) herr
        rw [hread]
        refine ⟨rfl, _, rfl, ?_⟩
        cases pre <;> cases post <;> simp_all [Collected, Prov.Pure, Prov.state, Prov.union, stateOf]
      | false =>
        have hread : st.readVar v = if st.back = .ssUnknown then { st with back := .ssContinuous } else st := by
          unfold readVar
          rw [hstate]
          rfl
        rw [hread]
        have hunion : Prov.union ⟨pre, post⟩ ⟨false, false⟩ = ⟨pre, post⟩ := by
          simp only [Prov.union, Bool.or_false]
        obtain ⟨hunknown, hnone⟩ | hcollected := hback
        · rw [if_pos hunknown]
          refine ⟨rfl, _, rfl, ?_, ?_⟩
          · rw [hunion]
            exact hp
          · rw [hunion, hnone]
            rfl
        · have hknown : st.back ≠ .ssUnknown := by
            rw [hcollected]
            cases pre <;> cases post <;> exact ESeqState.noConfusion
          rw [if_neg hknown]
          refine ⟨rfl, _, rfl, ?_, ?_⟩
          · rw [hunion]
            exact hp
          · rw [hunion]
            exact hcollected

theorem Prov.union_assoc (p q r : Prov) : (p.union q).union r = p.union (q.union r) := by
  simp only [Prov.union, Bool.or_assoc]

/-- An expression without an error. -/
theorem checkExpr_follows {p : Prov} (e : Expr) (hst : Follows st.seqState σ) (hback : Collected st.back p) (hp : p.Pure)
    (herr : (checkExpr st e).errorCnt = st.errorCnt) :
    (checkExpr st e).seqState = st.seqState ∧ (∀ v ∈ e.reads, (σ v).isSome) ∧ (p.union (e.prov σ)).Pure ∧
      (checkExpr st e).back = (p.union (e.prov σ)).state := by
  induction e generalizing st p with
  | const =>
    have hunion : p.union (Expr.prov σ .const) = p := by
      simp only [Prov.union, Expr.prov, Bool.or_false]
    rw [hunion]
    unfold checkExpr
    obtain ⟨hunknown, rfl⟩ | hcollected := hback
    · rw [if_pos hunknown]
      exact ⟨rfl, fun v hv => absurd hv List.not_mem_nil, hp, rfl⟩
    · have hknown : st.back ≠ .ssUnknown := by
        rw [hcollected]
        obtain ⟨pre, post⟩ := p
        cases pre <;> cases post <;> exact ESeqState.noConfusion
      rw [if_neg hknown]
      exact ⟨rfl, fun v hv => absurd hv List.not_mem_nil, hp, hcollected⟩
  | var v =>
    obtain ⟨hseq, q, hσ, hpure, hback'⟩ := readVar_follows hst hback hp herr
    have hprov : Expr.prov σ (.var v) = q := by
      rw [Expr.prov, hσ]
      rfl
    rw [hprov]
    refine ⟨hseq, fun w hw => ?_, hpure, hback'⟩
    obtain rfl := List.mem_singleton.1 hw
    rw [hσ]
    rfl
  | unary a iha => exact iha hst hback hp herr
  | typeCast b ihb => exact ihb hst hback hp herr
  | binary a b iha ihb =>
    have h₁ := checkExpr_errorCnt a st
    have h₂ := checkExpr_errorCnt b (checkExpr st a)
    replace herr : (checkExpr (checkExpr st a) b).errorCnt = st.errorCnt := herr
    obtain ⟨hseq₁, hreads₁, hpure₁, hback₁⟩ := iha hst hback hp (by omega)
    obtain ⟨hseq₂, hreads₂, hpure₂, hback₂⟩ := @ihb (checkExpr st a) _ (hseq₁ ▸ hst) (.inr hback₁) hpure₁ (by omega)
    rw [Prov.union_assoc] at hpure₂ hback₂
    refine ⟨hseq₂.trans hseq₁, fun v hv => ?_, hpure₂, hback₂⟩
    exact (List.mem_append.1 hv).elim (hreads₁ v) (hreads₂ v)
  | question a b c iha ihb ihc =>
    have h₁ := checkExpr_errorCnt a st
    have h₂ := checkExpr_errorCnt b (checkExpr st a)
    have h₃ := checkExpr_errorCnt c (checkExpr (checkExpr st a) b)
    replace herr : (checkExpr (checkExpr (checkExpr st a) b) c).errorCnt = st.errorCnt := herr
    obtain ⟨hseq₁, hreads₁, hpure₁, hback₁⟩ := iha hst hback hp (by omega)
    obtain ⟨hseq₂, hreads₂, hpure₂, hback₂⟩ := @ihb (checkExpr st a) _ (hseq₁ ▸ hst) (.inr hback₁) hpure₁ (by omega)
    have hseq : (checkExpr (checkExpr st a) b).seqState = st.seqState := hseq₂.trans hseq₁
    obtain ⟨hseq₃, hreads₃, hpure₃, hback₃⟩ := @ihc (checkExpr (checkExpr st a) b) _ (hseq ▸ hst) (.inr hback₂) hpure₂
      (by omega)
    rw [Prov.union_assoc, Prov.union_assoc, ← Prov.union_assoc (a.prov σ)] at hpure₃ hback₃
    refine ⟨hseq₃.trans hseq, fun v hv => ?_, hpure₃, hback₃⟩
    obtain hv | hv := List.mem_append.1 hv
    · exact (List.mem_append.1 hv).elim (hreads₁ v) (hreads₂ v)
    · exact hreads₃ v hv

theorem union_none (p : Prov) : Prov.union ⟨false, false⟩ p = p := by
  simp only [Prov.union, Bool.false_or]

/-- **A step of the pass** without an error is a sound event, and follows it. -/
theorem checkEvent_follows {ev : Event} (hst : Follows st.seqState σ) (herr : (checkEvent d st ev).errorCnt = st.errorCnt) :
    SoundEvent d σ ev ∧ Follows (checkEvent d st ev).seqState (PathState.step d σ ev) := by
  have hstart : Follows st.start.seqState σ := hst
  have hnone : Prov.Pure ⟨false, false⟩ := .inl rfl
  cases ev with
  | eval e =>
    obtain ⟨hseq, hreads, hpure, -⟩ := checkExpr_follows e hstart (collected_start st) hnone herr
    rw [union_none] at hpure
    refine ⟨⟨hreads, hpure, fun v e' h => by cases h⟩, ?_⟩
    have hsame : (checkEvent d st (.eval e)).seqState = st.seqState := hseq
    rw [hsame]
    exact hst
  | assign v e =>
    have hmono := checkExpr_errorCnt e st.start
    have hcnt : (checkEvent d st (.assign v e)).errorCnt = (checkExpr st.start e).errorCnt +
        (if d.kind v = .register ∧ (checkExpr st.start e).back = .ssPostClk then 1 else 0) +
          (if d.otherMethod v then 1 else 0) := rfl
    have hst0 : st.start.errorCnt = st.errorCnt := rfl
    obtain ⟨hseq, hreads, hpure, hback⟩ := checkExpr_follows e hstart (collected_start st) hnone (by omega)
    rw [union_none] at hpure hback
    have hregister : d.kind v = .register → (e.prov σ).post = false := by
      intro hkind
      rw [Bool.eq_false_iff]
      intro hpost
      have hpre : (e.prov σ).pre = false := hpure.resolve_right (by rw [hpost]; exact Bool.noConfusion)
      have hstate : (checkExpr st.start e).back = .ssPostClk := by
        rw [hback]
        generalize e.prov σ = p at hpost hpre
        obtain ⟨pre, post⟩ := p
        obtain rfl : post = true := hpost
        obtain rfl : pre = false := hpre
        rfl
      rw [if_pos ⟨hkind, hstate⟩] at hcnt
      omega
    refine ⟨⟨hreads, hpure, fun v' e' h hkind => ?_⟩, ⟨fun w => ?_, fun w p hw => ?_⟩⟩
    · cases h
      exact hregister hkind
    · have hwrite : (checkEvent d st (.assign v e)).seqState =
          Function.update st.seqState v (if d.kind v = .register then .ssPostClk else (e.prov σ).state) := by
        rw [← hback, ← show st.start.seqState = st.seqState from rfl, ← hseq]
        rfl
      rw [hwrite, PathState.step]
      by_cases hwv : w = v
      · subst hwv
        rw [Function.update_self, Function.update_self]
        split <;> rfl
      · rw [Function.update_of_ne hwv, Function.update_of_ne hwv, hst.state w]
    · rw [PathState.step] at hw
      by_cases hwv : w = v
      · subst hwv
        rw [Function.update_self] at hw
        obtain rfl := Option.some.inj hw
        split
        · exact .inl rfl
        · exact hpure
      · rw [Function.update_of_ne hwv] at hw
        exact hst.pure w p hw

theorem init_follows (d : Decls) : Follows (initSeqState d) (PathState.init d) := by
  refine ⟨fun v => ?_, fun v p hp => ?_⟩
  · unfold initSeqState PathState.init
    cases d.kind v <;> rfl
  · unfold PathState.init at hp
    split at hp
    · cases hp
    · obtain rfl := Option.some.inj hp
      exact .inr rfl
    · obtain rfl := Option.some.inj hp
      exact .inl rfl

/-- The whole text. -/
theorem foldl_sound (t : List Event) (hst : Follows st.seqState σ)
    (herr : (t.foldl (checkEvent d) st).errorCnt = st.errorCnt) :
    ∀ t₁ ev t₂, t = t₁ ++ ev :: t₂ → SoundEvent d (t₁.foldl (PathState.step d) σ) ev := by
  induction t generalizing st σ with
  | nil =>
    intro t₁ ev t₂ h
    cases t₁ <;> cases h
  | cons ev' t ih =>
    intro t₁ ev t₂ h
    have h₁ := checkEvent_errorCnt (d := d) st ev'
    have h₂ := foldl_errorCnt (d := d) t (checkEvent d st ev')
    rw [List.foldl_cons] at herr
    obtain ⟨hsound, hfollows⟩ := checkEvent_follows hst (show (checkEvent d st ev').errorCnt = st.errorCnt by omega)
    cases t₁ with
    | nil =>
      obtain ⟨rfl, rfl⟩ := List.cons.inj h
      exact hsound
    | cons ev₁ t₁ =>
      obtain ⟨rfl, rfl⟩ := List.cons.inj h
      exact ih hfollows (by omega) t₁ ev t₂ rfl

/-- **An accepted method is sound as straight-line code.** -/
theorem text_sound (body : Stmts) (hok : (checkSequenceRules d body).errorCnt = 0) : Sound d (text body) := by
  unfold checkSequenceRules at hok
  rw [checkStmts_text] at hok
  exact foldl_sound (text body) (init_follows d) hok

/-! ## Every path -/

/-- The steps of a path stand in the text. -/
def InText (whole : List Event) (p : Path) : Prop := ∀ x ∈ p.1, ∃ rest, whole = x.1 ++ x.2 :: rest

theorem inText_nil (whole : List Event) (br : Bool) : InText whole ([], br) := fun _ hx => absurd hx List.not_mem_nil

theorem InText.cons {whole t rest : List Event} {ev : Event} {p : Path} (hp : InText whole p) (hev : whole = t ++ ev :: rest) :
    InText whole (p.cons t ev) := by
  intro x hx
  obtain rfl | hx := List.mem_cons.1 hx
  · exact ⟨rest, hev⟩
  · exact hp x hx

theorem InText.more {whole : List Event} {p : Path} (hp : InText whole p) (rest : List Event) : InText (whole ++ rest) p := by
  intro x hx
  obtain ⟨r, hr⟩ := hp x hx
  exact ⟨r ++ rest, by rw [hr, List.append_assoc, List.cons_append]⟩

/-- Paths one after the other. -/
theorem inText_andThen {whole rest : List Event} {ps qs : List Path} {p : Path} (hps : ∀ p ∈ ps, InText whole p)
    (hqs : ∀ q ∈ qs, InText (whole ++ rest) q) (hp : p ∈ ps.flatMap fun p => p.andThen qs) : InText (whole ++ rest) p := by
  obtain ⟨p₀, hp₀, hp⟩ := List.mem_flatMap.1 hp
  have h₀ := (hps p₀ hp₀).more rest
  unfold Path.andThen at hp
  split at hp
  · obtain rfl := List.mem_singleton.1 hp
    exact h₀
  · obtain ⟨q, hq, rfl⟩ := List.mem_map.1 hp
    intro x hx
    exact (List.mem_append.1 hx).elim (h₀ x) (hqs q hq x)

/-- Paths from a body that starts behind `t`, and then from what stands behind it. -/
theorem inText_body {t body rest : List Event} {ps qs : List Path} {p : Path} (hps : ∀ p ∈ ps, InText (t ++ body) p)
    (hqs : ∀ q ∈ qs, InText (t ++ body ++ rest) q) (hp : p ∈ ps.flatMap fun p => p.andThen qs) :
    InText (t ++ (body ++ rest)) p := by
  rw [← List.append_assoc]
  exact inText_andThen hps hqs hp

theorem paths_inText (l : Stmts) : (∀ t, ∀ p ∈ paths t l, InText (t ++ text l) p) ∧
    (∀ t, ∀ p ∈ casePaths t l, InText (t ++ text l) p) ∧ ∀ t, ∀ p ∈ selectPaths t l, InText (t ++ text l) p := by
  have hnil : ∀ {whole : List Event} {p : Path}, p ∈ [(([], false) : Path)] → InText whole p := by
    intro whole p hp
    obtain rfl := List.mem_singleton.1 hp
    exact inText_nil _ _
  induction l with
  | nil => exact ⟨fun t p hp => hnil hp, fun t p hp => hnil hp, fun t p hp => absurd hp List.not_mem_nil⟩
  | assign v e l ih =>
    refine ⟨fun t p hp => ?_, fun t p hp => hnil hp, fun t p hp => absurd hp List.not_mem_nil⟩
    obtain ⟨q, hq, rfl⟩ := List.mem_map.1 hp
    have hin := ih.1 _ q hq
    rw [List.append_assoc] at hin
    exact hin.cons rfl
  | incr v l ih =>
    refine ⟨fun t p hp => ?_, fun t p hp => hnil hp, fun t p hp => absurd hp List.not_mem_nil⟩
    obtain ⟨q, hq, rfl⟩ := List.mem_map.1 hp
    have hin := ih.1 _ q hq
    rw [List.append_assoc] at hin
    exact hin.cons rfl
  | ite e a b l iha ihb ihl =>
    refine ⟨fun t p hp => ?_, fun t p hp => hnil hp, fun t p hp => absurd hp List.not_mem_nil⟩
    obtain ⟨q, hq, rfl⟩ := List.mem_map.1 hp
    refine @InText.cons _ _ (text a ++ text b ++ text l) _ _ ?_ rfl
    have hwhole : t ++ text (.ite e a b l) = t ++ .eval e :: (text a ++ text b) ++ text l := by simp [text]
    rw [hwhole]
    refine inText_andThen (fun p hp => ?_) (fun q hq => ihl.1 _ q hq) hq
    obtain hp | hp := List.mem_append.1 hp
    · have hin := (iha.1 _ p hp).more (text b)
      simpa using hin
    · have hin := ihb.1 _ p hp
      simpa using hin
  | switch e cases l ihc ihl =>
    refine ⟨fun t p hp => ?_, fun t p hp => hnil hp, fun t p hp => absurd hp List.not_mem_nil⟩
    obtain ⟨q, hq, rfl⟩ := List.mem_map.1 hp
    refine @InText.cons _ _ (text cases ++ text l) _ _ ?_ rfl
    obtain ⟨p₀, hp₀, hq⟩ := List.mem_flatMap.1 hq
    have hp₀' : InText (t ++ .eval e :: text cases) p₀ := by
      obtain hp₀ | hp₀ := List.mem_append.1 hp₀
      · have hin := ihc.2.2 _ p₀ hp₀
        simpa using hin
      · split at hp₀
        · exact absurd hp₀ List.not_mem_nil
        · exact hnil hp₀
    have hwhole : t ++ text (.switch e cases l) = t ++ .eval e :: text cases ++ text l := by simp [text]
    rw [hwhole]
    refine @inText_andThen _ _ [((p₀.1, false) : Path)] _ q (fun p hp => ?_) (fun q hq => ihl.1 _ q hq) ?_
    · obtain rfl := List.mem_singleton.1 hp
      exact hp₀'
    · exact List.mem_flatMap.2 ⟨_, List.mem_singleton.2 rfl, hq⟩
  | caseOf e body l ihb ihl =>
    have hone : ∀ t p, (p ∈ (paths (t ++ [.eval e]) body).flatMap fun p => p.andThen (casePaths (t ++ .eval e :: text body) l)) →
        InText (t ++ text (.caseOf e body l)) p := by
      intro t p hp
      have hwhole : t ++ text (.caseOf e body l) = t ++ .eval e :: text body ++ text l := by simp [text]
      rw [hwhole]
      refine inText_andThen (fun p hp => ?_) (fun q hq => ihl.2.1 _ q hq) hp
      have hin := ihb.1 _ p hp
      simpa using hin
    refine ⟨fun t p hp => absurd hp List.not_mem_nil, hone, fun t p hp => ?_⟩
    obtain hp | hp := List.mem_append.1 hp
    · exact hone t p hp
    · have hin := ihl.2.2 _ p hp
      simpa [text] using hin
  | default body l ihb ihl =>
    have hone : ∀ t p, (p ∈ (paths t body).flatMap fun p => p.andThen (casePaths (t ++ text body) l)) →
        InText (t ++ text (.default body l)) p := fun t p hp =>
      inText_body (fun p hp => ihb.1 _ p hp) (fun q hq => ihl.2.1 _ q hq) hp
    refine ⟨fun t p hp => absurd hp List.not_mem_nil, hone, fun t p hp => ?_⟩
    obtain hp | hp := List.mem_append.1 hp
    · exact hone t p hp
    · have hin := ihl.2.2 _ p hp
      rw [List.append_assoc] at hin
      exact hin
  | compound a l iha ihl =>
    refine ⟨fun t p hp => ?_, fun t p hp => hnil hp, fun t p hp => absurd hp List.not_mem_nil⟩
    exact inText_body (fun p hp => iha.1 _ p hp) (fun q hq => ihl.1 _ q hq) hp
  | brk l ih =>
    refine ⟨fun t p hp => ?_, fun t p hp => hnil hp, fun t p hp => absurd hp List.not_mem_nil⟩
    obtain rfl := List.mem_singleton.1 hp
    exact inText_nil _ _

theorem prov_congr {σ σ' : PathState} (e : Expr) (h : ∀ v ∈ e.reads, σ' v = σ v) : e.prov σ' = e.prov σ := by
  induction e with
  | const => rfl
  | var v => rw [Expr.prov, Expr.prov, h v (.head _)]
  | unary a iha => exact iha h
  | typeCast b ihb => exact ihb h
  | binary a b iha ihb =>
    rw [Expr.prov, Expr.prov, iha fun v hv => h v (List.mem_append_left _ hv), ihb fun v hv => h v (List.mem_append_right _ hv)]
  | question a b c iha ihb ihc =>
    rw [Expr.prov, Expr.prov, iha fun v hv => h v (List.mem_append_left _ (List.mem_append_left _ hv)),
      ihb fun v hv => h v (List.mem_append_left _ (List.mem_append_right _ hv)), ihc fun v hv => h v (List.mem_append_right _ hv)]

/-- Whether an event is sound depends on what it reads. -/
theorem SoundEvent.congr {σ σ' : PathState} {ev : Event} (hs : SoundEvent d σ ev)
    (h : ∀ v ∈ ev.expr.reads, σ' v = σ v) : SoundEvent d σ' ev := by
  have hprov := prov_congr ev.expr h
  refine ⟨fun v hv => ?_, ?_, fun v e he hkind => ?_⟩
  · rw [h v hv]
    exact hs.assigned v hv
  · rw [hprov]
    exact hs.pure
  · subst he
    have hpost := hs.register v e rfl hkind
    rw [← show Expr.prov σ' e = Expr.prov σ e from hprov] at hpost
    exact hpost

/-- **The reads of a path see what the text says**: each variable that is read has, from the assignments before it on the
path, the status that it has from those before it in the text. -/
def ReadsAgree (d : Decls) (p : Path) : Prop :=
  ∀ p₁ x p₂, p.1 = p₁ ++ x :: p₂ → ∀ v ∈ x.2.expr.reads,
    PathState.after d (p₁.map Prod.snd) v = PathState.after d x.1 v

/-- A register 0, a wire 1 and a local variable 2. -/
def threeVars : Decls :=
  ⟨fun v => if v = 0 then .register else if v = 1 then .global else .localVar, fun _ => false⟩

/-- `c_t = c_b; if (c_b) r_a = c_t;` -/
def guarded : Stmts := .assign 2 (.var 1) (.ite (.var 1) (.assign 0 (.var 2) .nil) .nil .nil)

theorem guarded_agrees : ∀ p ∈ paths [] guarded, ReadsAgree threeVars p := by
  intro p hp p₁ x p₂ hsplit v hv
  obtain rfl | hp := List.mem_cons.1 hp
  · obtain _ | ⟨y₁, _ | ⟨y₂, _ | ⟨y₃, p₁⟩⟩⟩ := p₁
    · cases hsplit
      obtain rfl := List.mem_singleton.1 hv
      rfl
    · cases hsplit
      obtain rfl := List.mem_singleton.1 hv
      rfl
    · cases hsplit
      obtain rfl := List.mem_singleton.1 hv
      rfl
    · cases p₁ <;> cases hsplit
  · obtain rfl := List.mem_singleton.1 hp
    obtain _ | ⟨y₁, _ | ⟨y₂, p₁⟩⟩ := p₁
    · cases hsplit
      obtain rfl := List.mem_singleton.1 hv
      rfl
    · cases hsplit
      obtain rfl := List.mem_singleton.1 hv
      rfl
    · cases p₁ <;> cases hsplit

/-- The path of `guarded` through its branch. -/
def guardedPath : Path :=
  ([([], .assign 2 (.var 1)), ([.assign 2 (.var 1)], .eval (.var 1)),
    ([.assign 2 (.var 1), .eval (.var 1)], .assign 0 (.var 2))], false)

/-- `if (c_b) c_t = 0; r_a = c_t;` -/
def halfSet : Stmts := .ite (.var 1) (.assign 2 .const .nil) .nil (.assign 0 (.var 2) .nil)

end OpenHT.Htfe.SeqRules
