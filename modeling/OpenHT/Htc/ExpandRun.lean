import OpenHT.Htc.ExpandConditionals

/-!
# What the statements of `ExpandConditionals` do

The statements of an expression are steps of it: where the conditions on the sides of conditionals are plain, running
the statements is evaluating the expression up to what is left of it.

* `exists_exec`: the statements end.
* `reaches_if`, `reaches_side`, `reaches_top`: the steps of the expression.
* `expand_preserves_iff`: when a statement is what it was.
-/

namespace OpenHT.Htc

open Unseq

variable {V : Type} {m : Meaning V}

/-! ## The statements end -/

theorem exists_evaluates (m : Meaning V) (e : TExpr V) (s : Store V) (τ : ℕ → V) : ∃ o, Evaluates m e s τ o := by
  obtain ⟨o, ho⟩ := exists_runs ((sem m).extend (Option ℕ)) e (s, env m τ)
  exact ⟨_, o, ho, rfl⟩

theorem Exec.split {as bs : List (Stmt V)} {s : Store V} {τ : ℕ → V} {o : Option (Store V × (ℕ → V))}
    (h : Exec m (as ++ bs) s τ o) :
    (∃ s' τ', Exec m as s τ (some (s', τ')) ∧ Exec m bs s' τ' o) ∨ (o = none ∧ Exec m as s τ none) := by
  induction as generalizing s τ with
  | nil => exact .inl ⟨s, τ, .nil s τ, h⟩
  | cons a as ih =>
    cases h with
    | expr h hs =>
      rcases ih hs with ⟨s', τ', h1, h2⟩ | ⟨ho, h1⟩
      · exact .inl ⟨s', τ', .expr h h1, h2⟩
      · exact .inr ⟨ho, .expr h h1⟩
    | exprError h => exact .inr ⟨rfl, .exprError h⟩
    | assign h hs =>
      rcases ih hs with ⟨s', τ', h1, h2⟩ | ⟨ho, h1⟩
      · exact .inl ⟨s', τ', .assign h h1, h2⟩
      · exact .inr ⟨ho, .assign h h1⟩
    | assignError h => exact .inr ⟨rfl, .assignError h⟩
    | ifStmt h hb hs =>
      rcases ih hs with ⟨s', τ', h1, h2⟩ | ⟨ho, h1⟩
      · exact .inl ⟨s', τ', .ifStmt h hb h1, h2⟩
      · exact .inr ⟨ho, .ifStmt h hb h1⟩
    | ifError h => exact .inr ⟨rfl, .ifError h⟩
    | bodyError h hb => exact .inr ⟨rfl, .bodyError h hb⟩

theorem Exec.append {as bs : List (Stmt V)} {s : Store V} {τ : ℕ → V} {r : Store V × (ℕ → V)}
    {o : Option (Store V × (ℕ → V))} (h : Exec m as s τ (some r)) (hb : Exec m bs r.1 r.2 o) :
    Exec m (as ++ bs) s τ o := by
  induction as generalizing s τ with
  | nil =>
    cases h
    exact hb
  | cons a as ih =>
    cases h with
    | expr h hs => exact .expr h (ih hs)
    | assign h hs => exact .assign h (ih hs)
    | ifStmt h hbody hs => exact .ifStmt h hbody (ih hs)

theorem Exec.append_none {as bs : List (Stmt V)} {s : Store V} {τ : ℕ → V} (h : Exec m as s τ none) :
    Exec m (as ++ bs) s τ none := by
  induction as generalizing s τ with
  | nil => cases h
  | cons a as ih =>
    cases h with
    | expr h hs => exact .expr h (ih hs)
    | exprError h => exact .exprError h
    | assign h hs => exact .assign h (ih hs)
    | assignError h => exact .assignError h
    | ifStmt h hbody hs => exact .ifStmt h hbody (ih hs)
    | ifError h => exact .ifError h
    | bodyError h hbody => exact .bodyError h hbody

mutual

theorem exists_exec (m : Meaning V) : ∀ (st : Stmt V) (s : Store V) (τ : ℕ → V), ∃ o, Exec m [st] s τ o
  | .expr e, s, τ => by
    obtain ⟨o, ho⟩ := exists_evaluates m e s τ
    cases o with
    | none => exact ⟨none, .exprError ho⟩
    | some r => exact ⟨_, .expr ho (.nil _ _)⟩
  | .assign t e, s, τ => by
    obtain ⟨o, ho⟩ := exists_evaluates m e s τ
    cases o with
    | none => exact ⟨none, .assignError ho⟩
    | some r => exact ⟨_, .assign ho (.nil _ _)⟩
  | .ifStmt l c a b, s, τ => by
    obtain ⟨o, ho⟩ := exists_evaluates m c s τ
    cases o with
    | none => exact ⟨none, .ifError ho⟩
    | some r =>
      have hbody : ∃ o, Exec m (if m.truth r.1 then a else b) ((sem m).enter l (m.truth r.1) r.2) τ o := by
        cases m.truth r.1 with
        | true => exact exists_execList m a _ τ
        | false => exact exists_execList m b _ τ
      obtain ⟨o, hb⟩ := hbody
      cases o with
      | none => exact ⟨none, .bodyError ho hb⟩
      | some r' => exact ⟨_, .ifStmt ho hb (.nil _ _)⟩

theorem exists_execList (m : Meaning V) : ∀ (ss : List (Stmt V)) (s : Store V) (τ : ℕ → V), ∃ o, Exec m ss s τ o
  | [], s, τ => ⟨_, .nil s τ⟩
  | st :: ss, s, τ => by
    obtain ⟨o, ho⟩ := exists_exec m st s τ
    cases o with
    | none => exact ⟨none, ho.append_none⟩
    | some r =>
      obtain ⟨o, hs⟩ := exists_execList m ss r.1 r.2
      exact ⟨o, ho.append hs⟩

end

theorem Expansion.exists_runs (m : Meaning V) (x : Expansion V) (s : Store V) (τ : ℕ → V) : ∃ o, x.Runs m s τ o := by
  obtain ⟨o, ho⟩ := exists_execList m x.ifs s τ
  cases o with
  | none => exact ⟨none, .inr ⟨rfl, ho⟩⟩
  | some r =>
    obtain ⟨o, he⟩ := exists_evaluates m x.expr r.1 r.2
    exact ⟨o, .inl ⟨r.1, r.2, ho, he⟩⟩

/-! ## Temporaries -/

/-- **Statements leave the temporaries of others alone.** -/
theorem Exec.frame {ss : List (Stmt V)} {s s' : Store V} {τ τ' : ℕ → V} (h : Exec m ss s τ (some (s', τ'))) {t : ℕ}
    (ht : t ∉ targetsList ss) : τ' t = τ t := by
  generalize ho : some (s', τ') = o at h
  induction h generalizing s' τ' with
  | nil s τ =>
    obtain ⟨-, rfl⟩ := Prod.mk.inj (Option.some.inj ho)
    rfl
  | expr h hs ih => exact ih ht ho
  | @assign u e rest s0 s1 τ0 v o h hs ih =>
    rw [targetsList, targets, List.mem_append, not_or, List.mem_singleton] at ht
    rw [ih ht.2 ho, Function.update_of_ne ht.1]
  | @ifStmt l c a b rest s0 s1 s2 τ0 τ1 v o h hb hs ihb ihs =>
    rw [targetsList, targets, List.mem_append, List.mem_append, not_or, not_or] at ht
    refine (ihs ht.2 ho).trans (ihb ?_ rfl)
    cases m.truth v with
    | true => exact ht.1.1
    | false => exact ht.1.2
  | exprError h => cases ho
  | assignError h => cases ho
  | ifError h => cases ho
  | bodyError h hb ih => cases ho

/-- What an expression evaluates to once the values of the temporaries are put in. -/
theorem Evaluates.close {e : TExpr V} {s : Store V} {τ : ℕ → V} {o : Option (V × Store V)} (h : Evaluates m e s τ o) :
    Runs (sem m) (close (env m τ) e) s o := by
  obtain ⟨o', hr, rfl⟩ := h
  exact hr.close

theorem env_congr {τ τ' : ℕ → V} {ts : List (Option ℕ)} (h : ∀ t, some t ∈ ts → τ t = τ' t) :
    ∀ y ∈ ts, env m τ y = env m τ' y := by
  intro y hy
  cases y with
  | none => rfl
  | some t => exact h t hy

/-! ## Steps of the expression -/

/-- What is left of an expression, with the values of the temporaries put in. -/
def leftOf (m : Meaning V) (e : TExpr V) (o : Option (Store V × (ℕ → V))) : Option (CExpr V × Store V) :=
  o.map fun r => (close (env m r.2) e, r.1)

theorem reaches_in {e : CExpr V} {e' : TExpr V} {s : Store V} {o : Option (Store V × (ℕ → V))}
    (F : Frame V Strict CondLabel String) (h : Reaches (sem m) e s (leftOf m e' o)) :
    Reaches (sem m) (F.plug e) s (o.map fun r => (F.plug (close (env m r.2) e'), r.1)) := by
  cases o with
  | none => exact h.frame_error F
  | some r => exact h.frame F

theorem close_placeholder {l : CondLabel} {t : ℕ} (τ : ℕ → V) :
    close (env m τ) (placeholder l t : TExpr V) = .const (if l.isVoid then m.void else τ t) := by
  rw [placeholder, close]
  cases l.isVoid <;> rfl

/-- **One branch**: what is on the side of a conditional, and then the value of the side. -/
theorem reaches_branch {l : CondLabel} {t : ℕ} {a : CExpr V} {a' : TExpr V} {ifs : List (Stmt V)}
    (ha : ∀ {s τ o}, Exec m ifs.reverse s τ o → Reaches (sem m) a s (leftOf m a' o)) {s : Store V} {τ : ℕ → V}
    {o : Option (Store V × (ℕ → V))} (h : Exec m (prependAll ifs [lastStmt l t a']) s τ o) :
    Reaches (sem m) (branch (sem m) l a) s (leftOf m (placeholder l t) o) := by
  rw [prependAll_eq] at h
  have hvoid : (sem m).discards l = l.isVoid := rfl
  rw [branch, hvoid]
  rw [lastStmt] at h
  cases hv : l.isVoid with
  | false =>
    rw [hv, if_neg Bool.false_ne_true] at h
    rw [if_neg Bool.false_ne_true]
    rcases h.split with ⟨s1, τ1, h1, h2⟩ | ⟨rfl, h1⟩
    · refine (ha h1).trans ?_
      cases h2 with
      | @assign _ _ _ _ s2 _ v _ he hs =>
        cases hs
        have hleft : leftOf m (placeholder l t) (some (s2, Function.update τ1 t v)) = some (.const v, s2) := by
          rw [leftOf, Option.map_some, close_placeholder, hv, if_neg Bool.false_ne_true]
          exact congrArg (fun w => (some (Expr.const w, s2) : Option (CExpr V × Store V))) (Function.update_self t v τ1)
        rw [hleft]
        exact he.close
      | assignError he => exact he.close
    · exact ha h1
  | true =>
    rw [hv, if_pos rfl] at h
    rw [if_pos rfl]
    rcases h.split with ⟨s1, τ1, h1, h2⟩ | ⟨rfl, h1⟩
    · refine (reaches_in (.comma (.const (sem m).unit)) (ha h1)).trans ?_
      cases h2 with
      | @expr _ _ _ s2 _ v _ he hs =>
        cases hs
        have hleft : leftOf m (placeholder l t) (some (s2, τ1)) = some (.const (sem m).unit, s2) := by
          rw [leftOf, Option.map_some, close_placeholder, hv, if_pos rfl]
          rfl
        rw [hleft]
        exact (he.close.frame (.comma (.const (sem m).unit))).trans (.single (.comma v _ s2))
      | exprError he => exact he.close.frame_error (.comma (.const (sem m).unit))
    · exact reaches_in (.comma (.const (sem m).unit)) (ha h1)

/-- **The statement of a conditional.** -/
theorem reaches_if {l : CondLabel} {t : ℕ} {a b : CExpr V} {a' b' c' : TExpr V} {ifsA ifsB : List (Stmt V)}
    (ha : ∀ {s τ o}, Exec m ifsA.reverse s τ o → Reaches (sem m) a s (leftOf m a' o))
    (hb : ∀ {s τ o}, Exec m ifsB.reverse s τ o → Reaches (sem m) b s (leftOf m b' o)) {s : Store V} {τ : ℕ → V}
    {o : Option (Store V × (ℕ → V))}
    (h : Exec m [.ifStmt l c' (prependAll ifsA [lastStmt l t a']) (prependAll ifsB [lastStmt l t b'])] s τ o) :
    Reaches (sem m) (.cond l (close (env m τ) c') a b) s (leftOf m (placeholder l t) o) := by
  have hside : ∀ {v : V} {s' : Store V} {o' : Option (Store V × (ℕ → V))},
      Evaluates m c' s τ (some (v, s')) →
      Exec m (if m.truth v then prependAll ifsA [lastStmt l t a'] else prependAll ifsB [lastStmt l t b'])
        ((sem m).enter l (m.truth v) s') τ o' →
      Reaches (sem m) (.cond l (close (env m τ) c') a b) s (leftOf m (placeholder l t) o') := by
    intro v s' o' he hbody
    refine (he.close.frame (.cond l a b)).trans (.step (.cond l v a b s') ?_)
    have htruth : (sem m).truth v = m.truth v := rfl
    rw [htruth]
    cases hv : m.truth v with
    | true =>
      rw [hv] at hbody
      exact reaches_branch ha hbody
    | false =>
      rw [hv] at hbody
      exact reaches_branch hb hbody
  cases h with
  | ifStmt he hbody hs =>
    cases hs
    exact hside he hbody
  | ifError he => exact he.close.frame_error (.cond l a b)
  | bodyError he hbody => exact hside he hbody

/-- What is left of operands, with those before them as they were. -/
def leftOfList (m : Meaning V) (k : Strict) (l : List (CExpr V)) (es : List (TExpr V))
    (o : Option (Store V × (ℕ → V))) : Option (CExpr V × Store V) :=
  o.map fun r => (.node k (l ++ closeList (env m r.2) es), r.1)

mutual

/-- **On a side of a conditional** the statements are run from the last one on. -/
theorem reaches_side : ∀ {e : CExpr V} {v : Bool} {n : ℕ}, Typed v e → PlainConditions true e →
    ∀ {s : Store V} {τ : ℕ → V} {o : Option (Store V × (ℕ → V))}, Exec m (expand e n).ifs.reverse s τ o →
      Reaches (sem m) e s (leftOf m (expand e n).expr o)
  | .const _, _, _, _, _, _, _, _, h | .var _, _, _, _, _, _, _, _, h => by
    cases h
    exact .refl _ _
  | .node k args, _, n, ht, hp, s, τ, o, h => by
    have hargs := reaches_sideList k [] ht hp h
    cases o with
    | none => exact hargs
    | some r => exact hargs
  | .cond l c a b, _, n, ht, hp, s, τ, o, h => by
    obtain ⟨hifs, -, hclose⟩ := expand_of_condFree (hp.1 rfl) n
    rw [expand, hifs] at h
    have hif := reaches_if (reaches_side ht.2.2.1 hp.2.2.1) (reaches_side ht.2.2.2 hp.2.2.2) h
    rw [hclose] at hif
    exact hif

theorem reaches_sideList (k : Strict) (l : List (CExpr V)) : ∀ {es : List (CExpr V)} {n : ℕ}, TypedList es →
    PlainConditionsList true es → ∀ {s : Store V} {τ : ℕ → V} {o : Option (Store V × (ℕ → V))},
      Exec m (expandArgs es n).ifs.reverse s τ o →
      Reaches (sem m) (.node k (l ++ es)) s (leftOfList m k l (expandArgs es n).exprs o)
  | [], _, _, _, _, _, _, h => by
    cases h
    exact .refl _ _
  | e :: es, n, ht, hp, s, τ, o, h => by
    obtain ⟨-, htargets, -⟩ := expand_within e n
    obtain ⟨-, -, hnames⟩ := expandArgs_within es (expand e n).counter
    rw [expandArgs, List.reverse_append] at h
    rcases h.split with ⟨s1, τ1, h1, h2⟩ | ⟨rfl, h1⟩
    · have hrest := reaches_sideList k (l ++ [e]) ht.2 hp.2 h1
      rw [List.append_assoc, List.singleton_append, leftOfList, Option.map_some, List.append_assoc,
        List.singleton_append] at hrest
      refine hrest.trans ?_
      have hfirst := reaches_in (.node k l (closeList (env m τ1) (expandArgs es (expand e n).counter).exprs))
        (reaches_side ht.1 hp.1 h2)
      cases o with
      | none => exact hfirst
      | some r =>
        -- the first operand's statements leave the temporaries of the others alone
        have hsame : closeList (env m τ1) (expandArgs es (expand e n).counter).exprs =
            closeList (env m r.2) (expandArgs es (expand e n).counter).exprs := by
          refine closeList_congr (env_congr fun t hmem => (h2.frame fun hassigned => ?_).symm)
          have hlow := (hnames t hmem).1
          have hhigh := (htargets t (mem_targetsList_reverse.1 hassigned)).2
          omega
        rw [Option.map_some, Frame.plug, hsame] at hfirst
        rw [hsame]
        exact hfirst
    · have hrest := reaches_sideList k (l ++ [e]) ht.2 hp.2 h1
      rw [List.append_assoc] at hrest
      exact hrest

end

mutual

/-- **Before the statement of the expression** they are run in the order of `flattenList`. -/
theorem reaches_top : ∀ {e : CExpr V} {v : Bool} {n : ℕ}, Typed v e → PlainConditions false e →
    ∀ {s : Store V} {τ : ℕ → V} {o : Option (Store V × (ℕ → V))}, Exec m (expand e n).ifs s τ o →
      Reaches (sem m) e s (leftOf m (expand e n).expr o)
  | .const _, _, _, _, _, _, _, _, h | .var _, _, _, _, _, _, _, _, h => by
    cases h
    exact .refl _ _
  | .node k args, _, n, ht, hp, s, τ, o, h => by
    have hargs := reaches_topList k [] ht hp h
    cases o with
    | none => exact hargs
    | some r => exact hargs
  | .cond l c a b, _, n, ht, hp, s, τ, o, h => by
    rw [expand] at h
    rcases h.split with ⟨s1, τ1, h1, h2⟩ | ⟨rfl, h1⟩
    · have hc := reaches_in (.cond l a b) (reaches_top ht.2.1 hp.2.1 h1)
      exact hc.trans (reaches_if (reaches_side ht.2.2.1 hp.2.2.1) (reaches_side ht.2.2.2 hp.2.2.2) h2)
    · exact reaches_in (.cond l a b) (reaches_top ht.2.1 hp.2.1 h1)

theorem reaches_topList (k : Strict) (l : List (CExpr V)) : ∀ {es : List (CExpr V)} {n : ℕ}, TypedList es →
    PlainConditionsList false es → ∀ {s : Store V} {τ : ℕ → V} {o : Option (Store V × (ℕ → V))},
      Exec m (expandArgs es n).ifs s τ o →
      Reaches (sem m) (.node k (l ++ es)) s (leftOfList m k l (expandArgs es n).exprs o)
  | [], _, _, _, _, _, _, h => by
    cases h
    exact .refl _ _
  | e :: es, n, ht, hp, s, τ, o, h => by
    obtain ⟨-, -, hnames⟩ := expand_within e n
    obtain ⟨-, htargets, -⟩ := expandArgs_within es (expand e n).counter
    rw [expandArgs] at h
    rcases h.split with ⟨s1, τ1, h1, h2⟩ | ⟨rfl, h1⟩
    · refine (reaches_in (.node k l es) (reaches_top ht.1 hp.1 h1)).trans ?_
      have hrest := reaches_topList k (l ++ [close (env m τ1) (expand e n).expr]) ht.2 hp.2 h2
      rw [List.append_assoc, List.singleton_append] at hrest
      cases o with
      | none => exact hrest
      | some r =>
        -- the others' statements leave the temporaries of the first operand alone
        have hsame : close (env m τ1) (expand e n).expr = close (env m r.2) (expand e n).expr := by
          refine close_congr (env_congr fun t hmem => (h2.frame fun hassigned => ?_).symm)
          have hlow := (htargets t hassigned).1
          have hhigh := (hnames t hmem).2
          omega
        rw [leftOfList, Option.map_some, List.append_assoc, List.singleton_append, hsame] at hrest
        rw [hsame]
        exact hrest
    · exact reaches_in (.node k l es) (reaches_top ht.1 hp.1 h1)

end

/-- **Each outcome is one of the expression.** -/
theorem runs_of_expanded {e : CExpr V} {v : Bool} {n : ℕ} (ht : Typed v e) (hp : PlainConditions false e) {s : Store V}
    {τ : ℕ → V} {o : Option (V × Store V)} (h : (expand e n).Runs m s τ o) : Runs (sem m) e s o := by
  rcases h with ⟨s', τ', h1, h2⟩ | ⟨rfl, h1⟩
  · exact Runs.of_reaches (reaches_top ht hp h1) h2.close
  · exact reaches_top ht hp h1

/-! ## Preservation -/

/-- **The result is what the statement was**, with temporaries from the one after `counter` on: each is assigned before
it is read, and where no order of evaluation goes wrong, the result ends, with a value of the expression and the store
and the sides evaluated that come with it. -/
def ExpandPreserves (V : Type) (e : CExpr V) (counter : ℕ) : Prop :=
  AssignsFirst (fun _ => False) ((expand e counter).ifs ++ [.expr (expand e counter).expr]) ∧
  ∀ (m : Meaning V) (s : Store V) (τ : ℕ → V), ¬ Runs (sem m) e s none →
    (∃ o, (expand e counter).Runs m s τ o) ∧
    ∀ o, (expand e counter).Runs m s τ o → ∃ r, o = some r ∧ Runs (sem m) e s (some r)

/-- **When a statement is what it was**: just if, on the sides of conditionals, no condition has a conditional. -/
theorem expand_preserves_iff (e : CExpr V) (isVoid : Bool) (counter : ℕ) (ht : Typed isVoid e) :
    ExpandPreserves V e counter ↔ PlainConditions false e := by
  constructor
  · intro h
    exact plain_of_top ht (fun t _ _ hD => hD) h.1
  · intro hp
    refine ⟨assignsFirst_top hp (.expr (fun t hm => .inr hm) (.nil _)), fun m s τ hdef => ?_⟩
    refine ⟨Expansion.exists_runs m _ s τ, fun o ho => ?_⟩
    have hrun := runs_of_expanded ht hp ho
    cases o with
    | none => exact absurd hrun hdef
    | some r => exact ⟨r, rfl, hrun⟩

/-- `y = (a ? b : c) ? d : e`: a conditional in a condition, but on no side of another one. -/
theorem expand_preserves_iff_assignment :
    Typed false (.node (.assign "y") [.cond ⟨false, 2⟩ (.cond ⟨false, 1⟩ (.var "a") (.var "b") (.var "c")) (.var "d")
      (.var "e")] : CExpr ℤ) ∧
    (ExpandPreserves ℤ (.node (.assign "y") [.cond ⟨false, 2⟩ (.cond ⟨false, 1⟩ (.var "a") (.var "b") (.var "c"))
      (.var "d") (.var "e")]) 0 ↔
    PlainConditions false (.node (.assign "y") [.cond ⟨false, 2⟩ (.cond ⟨false, 1⟩ (.var "a") (.var "b") (.var "c"))
      (.var "d") (.var "e")] : CExpr ℤ)) :=
  have ht : Typed false (.node (.assign "y") [.cond ⟨false, 2⟩ (.cond ⟨false, 1⟩ (.var "a") (.var "b") (.var "c"))
      (.var "d") (.var "e")] : CExpr ℤ) := ⟨⟨rfl, ⟨rfl, trivial, trivial, trivial⟩, trivial, trivial⟩, trivial⟩
  ⟨ht, expand_preserves_iff _ false 0 ht⟩

/-- `1 ? ((1 ? 1 : 0) ? 5 : 7) : 0` -/
def conditionOnSide : CExpr ℤ :=
  .cond ⟨false, 3⟩ (.const 1)
    (.cond ⟨false, 2⟩ (.cond ⟨false, 1⟩ (.const 1) (.const 1) (.const 0)) (.const 5) (.const 7)) (.const 0)

theorem evaluates_const (m : Meaning V) (v : V) (s : Store V) (τ : ℕ → V) : Evaluates m (.const v) s τ (some (v, s)) :=
  ⟨_, Runs.const v (s, env m τ), rfl⟩

theorem evaluates_temporary (m : Meaning V) (t : ℕ) (s : Store V) (τ : ℕ → V) :
    Evaluates m (.var (.inr (some t))) s τ (some (τ t, s)) :=
  ⟨some (τ t, (s, env m τ)), Reaches.single (Step.var (Sum.inr (some t)) (s, env m τ)), rfl⟩

/-- The value is 5. On the side of the outer conditional, the statement of the middle one comes before that of the
inner one, and reads its temporary: where this happens to be 0, the value is 7. -/
theorem conditionOnSide_differs : Typed false conditionOnSide ∧ ¬ ExpandPreserves ℤ conditionOnSide 0 ∧
    ∀ s, (∃ s', Runs (sem first) conditionOnSide s (some (5, s'))) ∧
      ∃ s', (expand conditionOnSide 0).Runs first s (fun _ => 0) (some (7, s')) := by
  have ht : Typed false conditionOnSide :=
    ⟨rfl, trivial, ⟨rfl, ⟨rfl, trivial, trivial, trivial⟩, trivial, trivial⟩, trivial⟩
  refine ⟨ht, ?_, fun s => ⟨?_, ?_⟩⟩
  · intro h
    have hplain : PlainConditions false conditionOnSide := plain_of_top ht (fun _ _ _ hD => hD) h.1
    exact hplain.2.2.1.1 rfl
  · have houter : Step (sem first) conditionOnSide s (some (_, (sem first).enter ⟨false, 3⟩ true s)) :=
      .cond _ 1 _ _ s
    have hinner : ∀ s, Step (sem first) (.cond (CondLabel.mk false 1) (.const 1) (.const 1) (.const 0)) s
        (some (.const 1, (sem first).enter ⟨false, 1⟩ true s)) := fun s => .cond _ 1 _ _ s
    have hmiddle : ∀ s, Step (sem first) (.cond (CondLabel.mk false 2) (.const 1) (.const 5) (.const 7)) s
        (some (.const 5, (sem first).enter ⟨false, 2⟩ true s)) := fun s => .cond _ 1 _ _ s
    exact ⟨_, Reaches.step houter (.step (.frame (.cond _ (.const 5) (.const 7)) (hinner _)) (.single (hmiddle _)))⟩
  · have hmiddle : Exec first [.ifStmt ⟨false, 2⟩ (.var (.inr (some 1))) [.assign 2 (.const 5)] [.assign 2 (.const 7)]]
        ((sem first).enter ⟨false, 3⟩ true s) (fun _ => 0) (some (_, Function.update (fun _ => 0) 2 7)) :=
      .ifStmt (evaluates_temporary first 1 _ _) (.assign (evaluates_const first 7 _ _) (.nil _ _)) (.nil _ _)
    have hinner : ∀ (s : Store ℤ) (τ : ℕ → ℤ), Exec first
        [.ifStmt ⟨false, 1⟩ (.const 1) [.assign 1 (.const 1)] [.assign 1 (.const 0)]] s τ
        (some ((sem first).enter ⟨false, 1⟩ true s, Function.update τ 1 1)) := fun s τ =>
      .ifStmt (evaluates_const first 1 s τ) (.assign (evaluates_const first 1 _ _) (.nil _ _)) (.nil _ _)
    have hlast : ∀ (s : Store ℤ) (τ : ℕ → ℤ), Exec first [.assign 3 (.var (.inr (some 2)))] s τ
        (some (s, Function.update τ 3 (τ 2))) := fun s τ => .assign (evaluates_temporary first 2 s τ) (.nil _ _)
    have hbody := hmiddle.append ((hinner _ _).append (hlast _ _))
    exact ⟨_, .inl ⟨_, _, .ifStmt (evaluates_const first 1 s _) hbody (.nil _ _), evaluates_temporary first 3 _ _⟩⟩

end OpenHT.Htc
