import OpenHT.Htc.ExprStore

/-!
# `ExpandConditionals`

The pass turns conditional expressions into `if` statements that assign their value to a new temporary. It takes them
in postorder. The statement goes before the one that the expression is in; where the expression is on a side of another
conditional, it goes to the front of that branch of the other one's statement, once all statements have been made.

* `Stmt`, `expand`: the statements, and what becomes of an expression.
* `Exec`, `Expanded.Runs`: what the statements do to the store and to the temporaries.
* `AssignsFirst`: on every path a temporary is assigned before it is read.
* `expand_preserves_iff`: a statement is what it was just if, on the side of a conditional, no condition has a
  conditional.
-/

namespace OpenHT.Htc

open Unseq

variable {V : Type}

/-- Expressions that read temporaries; `none` is the null expression that is left of a `void` conditional. -/
abbrev TExpr (V : Type) := Expr V Strict CondLabel (String ⊕ Option ℕ)

/-- The statements that the pass makes; an `if` has the label of its conditional expression. -/
inductive Stmt (V : Type)
  | expr (e : TExpr V)
  | assign (t : ℕ) (e : TExpr V)
  | ifStmt (l : CondLabel) (c : TExpr V) (trueBody falseBody : List (Stmt V))

/-! ## The pass -/

/-- What becomes of an expression: what is in its place, the `if` statements of the conditionals that are on no side of
another one in it, in the order of `flattenList`, and the number of the last temporary. -/
structure Expansion (V : Type) where
  expr : TExpr V
  ifs : List (Stmt V)
  counter : ℕ

/-- The same for operands. -/
structure Expansions (V : Type) where
  exprs : List (TExpr V)
  ifs : List (Stmt V)
  counter : ℕ

/-- The last statement of a branch; one without a value makes no assignment. -/
def lastStmt (l : CondLabel) (t : ℕ) (e : TExpr V) : Stmt V := if l.isVoid then .expr e else .assign t e

/-- What is in the place of a conditional expression. -/
def placeholder (l : CondLabel) (t : ℕ) : TExpr V := .var (.inr (if l.isVoid then none else some t))

/-- `prependStatement`, one statement after another. -/
def prependAll (ifs block : List (Stmt V)) : List (Stmt V) := ifs.foldl (fun block s => s :: block) block

mutual

/-- `postVisitSgFunctionDeclaration`, with temporaries from the one after `counter` on. -/
def expand : CExpr V → ℕ → Expansion V
  | .const v, n => ⟨.const v, [], n⟩
  | .var x, n => ⟨.var (.inl x), [], n⟩
  | .node k args, n => ⟨.node k (expandArgs args n).exprs, (expandArgs args n).ifs, (expandArgs args n).counter⟩
  | .comma a b, n =>
    let a' := expand a n
    let b' := expand b a'.counter
    ⟨.comma a'.expr b'.expr, a'.ifs ++ b'.ifs, b'.counter⟩
  | .cond l c a b, n =>
    let c' := expand c n
    let a' := expand a c'.counter
    let b' := expand b a'.counter
    let t := b'.counter + 1
    -- what is in the condition is on no side of this one; what is on a side is deferred into its branch
    ⟨placeholder l t, c'.ifs ++ [.ifStmt l c'.expr (prependAll a'.ifs [lastStmt l t a'.expr])
      (prependAll b'.ifs [lastStmt l t b'.expr])], t⟩

def expandArgs : List (CExpr V) → ℕ → Expansions V
  | [], n => ⟨[], [], n⟩
  | e :: es, n =>
    let e' := expand e n
    let es' := expandArgs es e'.counter
    ⟨e'.expr :: es'.exprs, e'.ifs ++ es'.ifs, es'.counter⟩

end

theorem prependAll_eq (ifs block : List (Stmt V)) : prependAll ifs block = ifs.reverse ++ block := by
  induction ifs generalizing block with
  | nil => rfl
  | cons s ifs ih => rw [prependAll, List.foldl_cons, ← prependAll, ih, List.reverse_cons, List.append_assoc,
      List.singleton_append]

/-! ## What the statements do -/

/-- The values of temporaries. -/
def env (m : Meaning V) (τ : ℕ → V) (t : Option ℕ) : V := t.elim m.void τ

/-- An expression with temporaries; nothing in it writes one. -/
def Evaluates (m : Meaning V) (e : TExpr V) (s : Store V) (τ : ℕ → V) (o : Option (V × Store V)) : Prop :=
  ∃ o', Runs ((sem m).extend (Option ℕ)) e (s, env m τ) o' ∧ o = o'.map fun r => (r.1, r.2.1)

/-- Statements one after another; `none` is an error. -/
inductive Exec (m : Meaning V) : List (Stmt V) → Store V → (ℕ → V) → Option (Store V × (ℕ → V)) → Prop
  | nil (s : Store V) (τ : ℕ → V) : Exec m [] s τ (some (s, τ))
  | expr {e : TExpr V} {rest : List (Stmt V)} {s s' : Store V} {τ : ℕ → V} {v : V} {o : Option (Store V × (ℕ → V))}
    (h : Evaluates m e s τ (some (v, s'))) (hs : Exec m rest s' τ o) : Exec m (.expr e :: rest) s τ o
  | exprError {e : TExpr V} {rest : List (Stmt V)} {s : Store V} {τ : ℕ → V} (h : Evaluates m e s τ none) :
    Exec m (.expr e :: rest) s τ none
  | assign {t : ℕ} {e : TExpr V} {rest : List (Stmt V)} {s s' : Store V} {τ : ℕ → V} {v : V}
    {o : Option (Store V × (ℕ → V))} (h : Evaluates m e s τ (some (v, s')))
    (hs : Exec m rest s' (Function.update τ t v) o) : Exec m (.assign t e :: rest) s τ o
  | assignError {t : ℕ} {e : TExpr V} {rest : List (Stmt V)} {s : Store V} {τ : ℕ → V} (h : Evaluates m e s τ none) :
    Exec m (.assign t e :: rest) s τ none
  | ifStmt {l : CondLabel} {c : TExpr V} {a b rest : List (Stmt V)} {s s' s'' : Store V} {τ τ' : ℕ → V} {v : V}
    {o : Option (Store V × (ℕ → V))} (h : Evaluates m c s τ (some (v, s')))
    (hb : Exec m (if m.truth v then a else b) ((sem m).enter l (m.truth v) s') τ (some (s'', τ')))
    (hs : Exec m rest s'' τ' o) : Exec m (.ifStmt l c a b :: rest) s τ o
  | ifError {l : CondLabel} {c : TExpr V} {a b rest : List (Stmt V)} {s : Store V} {τ : ℕ → V}
    (h : Evaluates m c s τ none) : Exec m (.ifStmt l c a b :: rest) s τ none
  | bodyError {l : CondLabel} {c : TExpr V} {a b rest : List (Stmt V)} {s s' : Store V} {τ : ℕ → V} {v : V}
    (h : Evaluates m c s τ (some (v, s')))
    (hb : Exec m (if m.truth v then a else b) ((sem m).enter l (m.truth v) s') τ none) :
    Exec m (.ifStmt l c a b :: rest) s τ none

/-- The `if` statements and then the expression. -/
def Expansion.Runs (m : Meaning V) (x : Expansion V) (s : Store V) (τ : ℕ → V) (o : Option (V × Store V)) : Prop :=
  (∃ s' τ', Exec m x.ifs s τ (some (s', τ')) ∧ Evaluates m x.expr s' τ' o) ∨ (o = none ∧ Exec m x.ifs s τ none)

/-- **On every path a temporary is assigned before it is read**; those of `D` are at the start. -/
inductive AssignsFirst : (ℕ → Prop) → List (Stmt V) → Prop
  | nil (D : ℕ → Prop) : AssignsFirst D []
  | expr {D : ℕ → Prop} {e : TExpr V} {rest : List (Stmt V)} (h : ∀ t, some t ∈ names e → D t)
    (hs : AssignsFirst D rest) : AssignsFirst D (.expr e :: rest)
  | assign {D : ℕ → Prop} {t : ℕ} {e : TExpr V} {rest : List (Stmt V)} (h : ∀ t, some t ∈ names e → D t)
    (hs : AssignsFirst (fun u => D u ∨ u = t) rest) : AssignsFirst D (.assign t e :: rest)
  | ifStmt {D : ℕ → Prop} {l : CondLabel} {c : TExpr V} {a b rest : List (Stmt V)} (h : ∀ t, some t ∈ names c → D t)
    (ha : AssignsFirst D (a ++ rest)) (hb : AssignsFirst D (b ++ rest)) : AssignsFirst D (.ifStmt l c a b :: rest)

/-! ## Kinds of expressions -/

mutual

/-- Built from variables, constants, calls, strict operators and conditionals. A conditional of type `void` is a whole
statement or a side of one. -/
def Typed (isVoid : Bool) : CExpr V → Prop
  | .const _ | .var _ => True
  | .node _ args => TypedList args
  | .comma _ _ => False
  | .cond l c a b => l.isVoid = isVoid ∧ Typed false c ∧ Typed isVoid a ∧ Typed isVoid b

def TypedList : List (CExpr V) → Prop
  | [] => True
  | e :: es => Typed false e ∧ TypedList es

end

mutual

def CondFree : CExpr V → Prop
  | .const _ | .var _ => True
  | .node _ args => CondFreeList args
  | .comma a b => CondFree a ∧ CondFree b
  | .cond _ _ _ _ => False

def CondFreeList : List (CExpr V) → Prop
  | [] => True
  | e :: es => CondFree e ∧ CondFreeList es

end

mutual

/-- **On the side of a conditional, no condition has a conditional.** -/
def PlainConditions (onSide : Bool) : CExpr V → Prop
  | .const _ | .var _ => True
  | .node _ args => PlainConditionsList onSide args
  | .comma a b => PlainConditions onSide a ∧ PlainConditions onSide b
  | .cond _ c a b =>
    (onSide = true → CondFree c) ∧ PlainConditions onSide c ∧ PlainConditions true a ∧ PlainConditions true b

def PlainConditionsList (onSide : Bool) : List (CExpr V) → Prop
  | [] => True
  | e :: es => PlainConditions onSide e ∧ PlainConditionsList onSide es

end

/-! ## Numbers of temporaries -/

mutual

/-- The temporaries that a statement may assign. -/
def targets : Stmt V → List ℕ
  | .expr _ => []
  | .assign t _ => [t]
  | .ifStmt _ _ a b => targetsList a ++ targetsList b

def targetsList : List (Stmt V) → List ℕ
  | [] => []
  | s :: ss => targets s ++ targetsList ss

end

theorem targetsList_append (l r : List (Stmt V)) : targetsList (l ++ r) = targetsList l ++ targetsList r := by
  induction l with
  | nil => rfl
  | cons s l ih => rw [List.cons_append, targetsList, ih, targetsList, List.append_assoc]

theorem mem_targetsList_reverse {l : List (Stmt V)} {t : ℕ} : t ∈ targetsList l.reverse ↔ t ∈ targetsList l := by
  induction l with
  | nil => exact Iff.rfl
  | cons s l ih =>
    rw [List.reverse_cons, targetsList_append, targetsList, List.mem_append, ih, targetsList, List.append_nil,
      targetsList, List.mem_append]
    exact Or.comm

theorem mem_targets_lastStmt {l : CondLabel} {t u : ℕ} {e : TExpr V} (h : u ∈ targetsList [lastStmt l t e]) : u = t := by
  rw [lastStmt] at h
  cases hv : l.isVoid with
  | false =>
    rw [hv] at h
    exact List.mem_singleton.1 h
  | true =>
    rw [hv] at h
    exact absurd h List.not_mem_nil

theorem mem_names_placeholder {l : CondLabel} {t u : ℕ} (h : some u ∈ names (placeholder l t : TExpr V)) :
    l.isVoid = false ∧ u = t := by
  rw [placeholder] at h
  cases hv : l.isVoid with
  | false =>
    rw [hv] at h
    exact ⟨rfl, Option.some.inj (List.mem_singleton.1 h)⟩
  | true =>
    rw [hv] at h
    exact absurd (List.mem_singleton.1 h) (Option.some_ne_none u)

/-- Temporaries that were made from one number to another. -/
def Within (n k : ℕ) (ts : List ℕ) (names : List (Option ℕ)) : Prop :=
  n ≤ k ∧ (∀ t ∈ ts, n < t ∧ t ≤ k) ∧ ∀ t, some t ∈ names → n < t ∧ t ≤ k

mutual

/-- **An expression has temporaries of its own.** -/
theorem expand_within : ∀ (e : CExpr V) (n : ℕ),
    Within n (expand e n).counter (targetsList (expand e n).ifs) (names (expand e n).expr)
  | .const _, n | .var _, n =>
    ⟨Nat.le_refl n, fun _ h => absurd h List.not_mem_nil, fun _ h => absurd h List.not_mem_nil⟩
  | .node _ args, n => expandArgs_within args n
  | .comma a b, n => by
    obtain ⟨hna, hta, hma⟩ := expand_within a n
    obtain ⟨hnb, htb, hmb⟩ := expand_within b (expand a n).counter
    refine ⟨Nat.le_trans hna hnb, fun t ht => ?_, fun t ht => ?_⟩
    · rw [expand, targetsList_append] at ht
      rw [expand]
      rcases List.mem_append.1 ht with ht | ht
      · have h := hta t ht
        exact ⟨h.1, Nat.le_trans h.2 hnb⟩
      · have h := htb t ht
        exact ⟨Nat.lt_of_le_of_lt hna h.1, h.2⟩
    · rw [expand, names] at ht
      rw [expand]
      rcases List.mem_append.1 ht with ht | ht
      · have h := hma t ht
        exact ⟨h.1, Nat.le_trans h.2 hnb⟩
      · have h := hmb t ht
        exact ⟨Nat.lt_of_le_of_lt hna h.1, h.2⟩
  | .cond l c a b, n => by
    obtain ⟨hnc, htc, -⟩ := expand_within c n
    obtain ⟨hna, hta, -⟩ := expand_within a (expand c n).counter
    obtain ⟨hnb, htb, -⟩ := expand_within b (expand a (expand c n).counter).counter
    rw [expand]
    dsimp only
    refine ⟨by omega, fun t ht => ?_, fun t ht => ?_⟩
    · rw [targetsList_append, targetsList, targets, targetsList, List.append_nil, prependAll_eq, prependAll_eq,
        targetsList_append, targetsList_append, List.mem_append, List.mem_append, List.mem_append, List.mem_append,
        mem_targetsList_reverse, mem_targetsList_reverse] at ht
      rcases ht with ht | (ht | ht) | ht | ht
      · have h := htc t ht
        omega
      · have h := hta t ht
        omega
      · have h := mem_targets_lastStmt ht
        omega
      · have h := htb t ht
        omega
      · have h := mem_targets_lastStmt ht
        omega
    · have h := (mem_names_placeholder ht).2
      omega

theorem expandArgs_within : ∀ (es : List (CExpr V)) (n : ℕ),
    Within n (expandArgs es n).counter (targetsList (expandArgs es n).ifs) (namesList (expandArgs es n).exprs)
  | [], n => ⟨Nat.le_refl n, fun _ h => absurd h List.not_mem_nil, fun _ h => absurd h List.not_mem_nil⟩
  | e :: es, n => by
    obtain ⟨hna, hta, hma⟩ := expand_within e n
    obtain ⟨hnb, htb, hmb⟩ := expandArgs_within es (expand e n).counter
    refine ⟨Nat.le_trans hna hnb, fun t ht => ?_, fun t ht => ?_⟩
    · rw [expandArgs, targetsList_append] at ht
      rw [expandArgs]
      rcases List.mem_append.1 ht with ht | ht
      · have h := hta t ht
        exact ⟨h.1, Nat.le_trans h.2 hnb⟩
      · have h := htb t ht
        exact ⟨Nat.lt_of_le_of_lt hna h.1, h.2⟩
    · rw [expandArgs, namesList] at ht
      rw [expandArgs]
      rcases List.mem_append.1 ht with ht | ht
      · have h := hma t ht
        exact ⟨h.1, Nat.le_trans h.2 hnb⟩
      · have h := hmb t ht
        exact ⟨Nat.lt_of_le_of_lt hna h.1, h.2⟩

end

/-! ## Assigned before it is read -/

theorem AssignsFirst.mono {D D' : ℕ → Prop} {ss : List (Stmt V)} (h : AssignsFirst D ss) (hD : ∀ t, D t → D' t) :
    AssignsFirst D' ss := by
  induction h generalizing D' with
  | nil D => exact .nil D'
  | expr h _ ih => exact .expr (fun t ht => hD t (h t ht)) (ih hD)
  | assign h _ ih => exact .assign (fun t ht => hD t (h t ht)) (ih fun t ht => ht.imp_left (hD t))
  | ifStmt h _ _ iha ihb => exact .ifStmt (fun t ht => hD t (h t ht)) (iha hD) (ihb hD)

mutual

theorem expand_of_condFree : ∀ {e : CExpr V}, CondFree e → ∀ n,
    (expand e n).ifs = [] ∧ (∀ y, y ∉ names (expand e n).expr) ∧ ∀ ρ : Option ℕ → V, close ρ (expand e n).expr = e
  | .const _, _, _ | .var _, _, _ => ⟨rfl, fun _ => List.not_mem_nil, fun _ => rfl⟩
  | .node k args, h, n => by
    obtain ⟨hifs, hnames, hexprs⟩ := expandArgs_of_condFree h n
    refine ⟨hifs, hnames, fun ρ => ?_⟩
    rw [expand, close, hexprs]
  | .comma a b, h, n => by
    obtain ⟨ha, hna, hca⟩ := expand_of_condFree h.1 n
    obtain ⟨hb, hnb, hcb⟩ := expand_of_condFree h.2 (expand a n).counter
    refine ⟨?_, fun y hy => (List.mem_append.1 hy).elim (hna y) (hnb y), fun ρ => ?_⟩
    · rw [expand, ha, hb]
      rfl
    · rw [expand, close, hca, hcb]

theorem expandArgs_of_condFree : ∀ {es : List (CExpr V)}, CondFreeList es → ∀ n,
    (expandArgs es n).ifs = [] ∧ (∀ y, y ∉ namesList (expandArgs es n).exprs) ∧
      ∀ ρ : Option ℕ → V, closeList ρ (expandArgs es n).exprs = es
  | [], _, _ => ⟨rfl, fun _ => List.not_mem_nil, fun _ => rfl⟩
  | e :: es, h, n => by
    obtain ⟨ha, hna, hca⟩ := expand_of_condFree h.1 n
    obtain ⟨hb, hnb, hcb⟩ := expandArgs_of_condFree h.2 (expand e n).counter
    refine ⟨?_, fun y hy => (List.mem_append.1 hy).elim (hna y) (hnb y), fun ρ => ?_⟩
    · rw [expandArgs, ha, hb]
      rfl
    · rw [expandArgs, closeList, hca, hcb]

end

mutual

/-- An operand with a conditional reads a temporary. -/
theorem condFree_of_names : ∀ {e : CExpr V} {n : ℕ}, Typed false e → (∀ t, some t ∉ names (expand e n).expr) → CondFree e
  | .const _, _, _, _ | .var _, _, _, _ => trivial
  | .node _ _, _, ht, h => condFreeList_of_names ht h
  | .cond l c a b, n, ht, h => by
    have hv : l.isVoid = false := ht.1
    refine absurd ?_ (h ((expand b (expand a (expand c n).counter).counter).counter + 1))
    rw [expand, placeholder, hv]
    exact List.mem_singleton.2 rfl

theorem condFreeList_of_names : ∀ {es : List (CExpr V)} {n : ℕ}, TypedList es →
    (∀ t, some t ∉ namesList (expandArgs es n).exprs) → CondFreeList es
  | [], _, _, _ => trivial
  | _ :: _, _, ht, h =>
    ⟨condFree_of_names ht.1 fun t hm => h t (List.mem_append_left _ hm),
      condFreeList_of_names ht.2 fun t hm => h t (List.mem_append_right _ hm)⟩

end

mutual

theorem plainConditions_of_condFree (onSide : Bool) : ∀ {e : CExpr V}, CondFree e → PlainConditions onSide e
  | .const _, _ | .var _, _ => trivial
  | .node _ _, h => plainConditionsList_of_condFree onSide h
  | .comma _ _, h => ⟨plainConditions_of_condFree onSide h.1, plainConditions_of_condFree onSide h.2⟩

theorem plainConditionsList_of_condFree (onSide : Bool) : ∀ {es : List (CExpr V)}, CondFreeList es →
    PlainConditionsList onSide es
  | [], _ => trivial
  | _ :: _, h => ⟨plainConditions_of_condFree onSide h.1, plainConditionsList_of_condFree onSide h.2⟩

end

/-- What the last statement of a branch needs, and what it leaves. -/
theorem assignsFirst_lastStmt {D : ℕ → Prop} {l : CondLabel} {t : ℕ} {e : TExpr V} {rest : List (Stmt V)}
    (hread : ∀ u, some u ∈ names e → D u)
    (hrest : AssignsFirst (fun u => D u ∨ some u ∈ names (placeholder l t : TExpr V)) rest) :
    AssignsFirst D (lastStmt l t e :: rest) := by
  rw [lastStmt]
  cases hv : l.isVoid with
  | false =>
    refine .assign hread (hrest.mono fun u hu => hu.imp_right fun hm => ?_)
    exact (mem_names_placeholder hm).2
  | true =>
    refine .expr hread (hrest.mono fun u hu => hu.elim id fun hm => ?_)
    exact absurd ((mem_names_placeholder hm).1.symm.trans hv) Bool.false_ne_true

/-- **The statement of a conditional**, where what is on its sides is assigned first. -/
theorem assignsFirst_if {a b : CExpr V} {na nb t : ℕ} {l : CondLabel} {c' : TExpr V} {D : ℕ → Prop} {rest : List (Stmt V)}
    (ha : ∀ {D : ℕ → Prop} {rest : List (Stmt V)},
      AssignsFirst (fun t => D t ∨ some t ∈ names (expand a na).expr) rest →
      AssignsFirst D ((expand a na).ifs.reverse ++ rest))
    (hb : ∀ {D : ℕ → Prop} {rest : List (Stmt V)},
      AssignsFirst (fun t => D t ∨ some t ∈ names (expand b nb).expr) rest →
      AssignsFirst D ((expand b nb).ifs.reverse ++ rest))
    (hc : ∀ t, some t ∈ names c' → D t)
    (hrest : AssignsFirst (fun u => D u ∨ some u ∈ names (placeholder l t : TExpr V)) rest) :
    AssignsFirst D (.ifStmt l c' (prependAll (expand a na).ifs [lastStmt l t (expand a na).expr])
      (prependAll (expand b nb).ifs [lastStmt l t (expand b nb).expr]) :: rest) := by
  rw [prependAll_eq, prependAll_eq]
  refine .ifStmt hc ?_ ?_
  · rw [List.append_assoc]
    exact ha (assignsFirst_lastStmt (fun _ hu => .inr hu) (hrest.mono fun _ hu => hu.imp_left .inl))
  · rw [List.append_assoc]
    exact hb (assignsFirst_lastStmt (fun _ hu => .inr hu) (hrest.mono fun _ hu => hu.imp_left .inl))

mutual

/-- On a side of a conditional the statements stand in reverse order. -/
theorem assignsFirst_side : ∀ {e : CExpr V} {n : ℕ}, PlainConditions true e → ∀ {D : ℕ → Prop} {rest : List (Stmt V)},
    AssignsFirst (fun t => D t ∨ some t ∈ names (expand e n).expr) rest →
    AssignsFirst D ((expand e n).ifs.reverse ++ rest)
  | .const _, _, _, _, _, h | .var _, _, _, _, _, h => h.mono fun _ ht => ht.elim id fun hm => absurd hm List.not_mem_nil
  | .node _ _, _, hp, _, _, h => assignsFirst_sideList hp h
  | .comma a b, n, hp, D, rest, h => by
    rw [expand, List.reverse_append, List.append_assoc]
    refine assignsFirst_side hp.2 (assignsFirst_side hp.1 (h.mono fun t ht => ?_))
    rcases ht with ht | ht
    · exact .inl (.inl ht)
    · exact (List.mem_append.1 ht).elim .inr fun hb => .inl (.inr hb)
  | .cond l c a b, n, hp, D, rest, h => by
    obtain ⟨hifs, hnames, -⟩ := expand_of_condFree (hp.1 rfl) n
    rw [expand, hifs, List.nil_append]
    exact assignsFirst_if (assignsFirst_side hp.2.2.1) (assignsFirst_side hp.2.2.2)
      (fun t ht => absurd ht (hnames (some t))) h

theorem assignsFirst_sideList : ∀ {es : List (CExpr V)} {n : ℕ}, PlainConditionsList true es →
    ∀ {D : ℕ → Prop} {rest : List (Stmt V)},
    AssignsFirst (fun t => D t ∨ some t ∈ namesList (expandArgs es n).exprs) rest →
    AssignsFirst D ((expandArgs es n).ifs.reverse ++ rest)
  | [], _, _, _, _, h => h.mono fun _ ht => ht.elim id fun hm => absurd hm List.not_mem_nil
  | e :: es, n, hp, D, rest, h => by
    rw [expandArgs, List.reverse_append, List.append_assoc]
    refine assignsFirst_sideList hp.2 (assignsFirst_side hp.1 (h.mono fun t ht => ?_))
    rcases ht with ht | ht
    · exact .inl (.inl ht)
    · exact (List.mem_append.1 ht).elim .inr fun hb => .inl (.inr hb)

end

mutual

/-- Before the statement of the expression they stand in order. -/
theorem assignsFirst_top : ∀ {e : CExpr V} {n : ℕ}, PlainConditions false e → ∀ {D : ℕ → Prop} {rest : List (Stmt V)},
    AssignsFirst (fun t => D t ∨ some t ∈ names (expand e n).expr) rest → AssignsFirst D ((expand e n).ifs ++ rest)
  | .const _, _, _, _, _, h | .var _, _, _, _, _, h => h.mono fun _ ht => ht.elim id fun hm => absurd hm List.not_mem_nil
  | .node _ _, _, hp, _, _, h => assignsFirst_topList hp h
  | .comma a b, n, hp, D, rest, h => by
    rw [expand, List.append_assoc]
    refine assignsFirst_top hp.1 (assignsFirst_top hp.2 (h.mono fun t ht => ?_))
    rcases ht with ht | ht
    · exact .inl (.inl ht)
    · exact (List.mem_append.1 ht).elim (fun ha => .inl (.inr ha)) .inr
  | .cond l c a b, n, hp, D, rest, h => by
    rw [expand, List.append_assoc]
    refine assignsFirst_top hp.2.1 ?_
    exact assignsFirst_if (assignsFirst_side hp.2.2.1) (assignsFirst_side hp.2.2.2) (fun _ ht => .inr ht)
      (h.mono fun _ ht => ht.imp_left .inl)

theorem assignsFirst_topList : ∀ {es : List (CExpr V)} {n : ℕ}, PlainConditionsList false es →
    ∀ {D : ℕ → Prop} {rest : List (Stmt V)},
    AssignsFirst (fun t => D t ∨ some t ∈ namesList (expandArgs es n).exprs) rest →
    AssignsFirst D ((expandArgs es n).ifs ++ rest)
  | [], _, _, _, _, h => h.mono fun _ ht => ht.elim id fun hm => absurd hm List.not_mem_nil
  | e :: es, n, hp, D, rest, h => by
    rw [expandArgs, List.append_assoc]
    refine assignsFirst_top hp.1 (assignsFirst_topList hp.2 (h.mono fun t ht => ?_))
    rcases ht with ht | ht
    · exact .inl (.inl ht)
    · exact (List.mem_append.1 ht).elim (fun ha => .inl (.inr ha)) .inr

end

/-! ## Read before it is assigned -/

mutual

theorem AssignsFirst.after : ∀ {s : Stmt V} {D : ℕ → Prop} {rest : List (Stmt V)}, AssignsFirst D (s :: rest) →
    ∃ D', AssignsFirst D' rest ∧ ∀ t, D' t → D t ∨ t ∈ targets s
  | .expr _, D, _, h => by
    cases h with
    | expr _ hs => exact ⟨D, hs, fun _ ht => .inl ht⟩
  | .assign t _, D, _, h => by
    cases h with
    | assign _ hs => exact ⟨_, hs, fun _ hu => hu.imp_right List.mem_singleton.2⟩
  | .ifStmt l c a b, D, _, h => by
    cases h with
    | ifStmt _ ha _ =>
      -- the path through the first branch
      obtain ⟨D', hs, hD⟩ := AssignsFirst.afterList ha
      exact ⟨D', hs, fun t ht => (hD t ht).imp_right (List.mem_append_left _)⟩

/-- **There is a path to what comes after**, with what the statements may assign. -/
theorem AssignsFirst.afterList : ∀ {ss : List (Stmt V)} {D : ℕ → Prop} {rest : List (Stmt V)},
    AssignsFirst D (ss ++ rest) → ∃ D', AssignsFirst D' rest ∧ ∀ t, D' t → D t ∨ t ∈ targetsList ss
  | [], D, _, h => ⟨D, h, fun _ ht => .inl ht⟩
  | s :: ss, D, _, h => by
    obtain ⟨D', hs, hD⟩ := AssignsFirst.after h
    obtain ⟨D'', hrest, hD'⟩ := AssignsFirst.afterList hs
    refine ⟨D'', hrest, fun t ht => ?_⟩
    rcases hD' t ht with ht | ht
    · exact (hD t ht).imp_right (List.mem_append_left _)
    · exact .inr (List.mem_append_right _ ht)

end

/-- None of the temporaries from one number to another is in the set. -/
def Fresh (n k : ℕ) (D : ℕ → Prop) : Prop := ∀ t, n < t → t ≤ k → ¬ D t

/-- The sides of a conditional whose statement reads nothing too early. -/
theorem plain_of_if {a b : CExpr V} {na nb k t : ℕ} {l : CondLabel} {c' : TExpr V} {D : ℕ → Prop} {rest : List (Stmt V)}
    (ha : ∀ {D : ℕ → Prop} {rest : List (Stmt V)}, Fresh na (expand a na).counter D →
      AssignsFirst D ((expand a na).ifs.reverse ++ rest) → PlainConditions true a)
    (hb : ∀ {D : ℕ → Prop} {rest : List (Stmt V)}, Fresh nb (expand b nb).counter D →
      AssignsFirst D ((expand b nb).ifs.reverse ++ rest) → PlainConditions true b)
    (hna : (expand a na).counter = nb) (hk : (expand b nb).counter ≤ k) (hD : Fresh na k D)
    (h : AssignsFirst D (.ifStmt l c' (prependAll (expand a na).ifs [lastStmt l t (expand a na).expr])
      (prependAll (expand b nb).ifs [lastStmt l t (expand b nb).expr]) :: rest)) :
    (∀ u, some u ∈ names c' → D u) ∧ PlainConditions true a ∧ PlainConditions true b := by
  rw [prependAll_eq, prependAll_eq] at h
  cases h with
  | ifStmt hc htrue hfalse =>
    rw [List.append_assoc] at htrue hfalse
    have hle : na ≤ nb := hna ▸ (expand_within a na).1
    have hle' := (expand_within b nb).1
    refine ⟨hc, ha (fun u h1 h2 => hD u h1 ?_) htrue, hb (fun u h1 h2 => hD u ?_ ?_) hfalse⟩
    · omega
    · omega
    · omega

mutual

theorem plain_of_side : ∀ {e : CExpr V} {v : Bool} {n : ℕ} {D : ℕ → Prop} {rest : List (Stmt V)}, Typed v e →
    Fresh n (expand e n).counter D → AssignsFirst D ((expand e n).ifs.reverse ++ rest) → PlainConditions true e
  | .const _, _, _, _, _, _, _, _ | .var _, _, _, _, _, _, _, _ => trivial
  | .node _ _, _, _, _, _, ht, hD, h => plain_of_sideList ht hD h
  | .cond l c a b, v, n, D, rest, ht, hD, h => by
    obtain ⟨hnc, -, hmc⟩ := expand_within c n
    have hna := (expand_within a (expand c n).counter).1
    have hnb := (expand_within b (expand a (expand c n).counter).counter).1
    rw [expand, List.reverse_append, List.append_assoc] at h
    rw [expand] at hD
    dsimp only at hD
    have hD' : Fresh (expand c n).counter (expand b (expand a (expand c n).counter).counter).counter D :=
      fun t h1 h2 => hD t (by omega) (by omega)
    obtain ⟨hread, ha, hb⟩ := plain_of_if (plain_of_side ht.2.2.1) (plain_of_side ht.2.2.2) rfl (Nat.le_refl _) hD' h
    -- the condition can read no temporary that was made for it
    have hc : CondFree c := by
      refine condFree_of_names (n := n) ht.2.1 fun t hm => ?_
      have hrange := hmc t hm
      exact hD t hrange.1 (by omega) (hread t hm)
    exact ⟨fun _ => hc, plainConditions_of_condFree true hc, ha, hb⟩

theorem plain_of_sideList : ∀ {es : List (CExpr V)} {n : ℕ} {D : ℕ → Prop} {rest : List (Stmt V)}, TypedList es →
    Fresh n (expandArgs es n).counter D → AssignsFirst D ((expandArgs es n).ifs.reverse ++ rest) →
    PlainConditionsList true es
  | [], _, _, _, _, _, _ => trivial
  | e :: es, n, D, rest, ht, hD, h => by
    obtain ⟨hne, -, -⟩ := expand_within e n
    obtain ⟨hnes, htes, -⟩ := expandArgs_within es (expand e n).counter
    rw [expandArgs, List.reverse_append, List.append_assoc] at h
    rw [expandArgs] at hD
    refine ⟨?_, plain_of_sideList ht.2 (fun t h1 h2 => hD t (Nat.lt_of_le_of_lt hne h1) h2) h⟩
    obtain ⟨D', hrest, hafter⟩ := h.afterList
    refine plain_of_side ht.1 (fun t h1 h2 hDt => ?_) hrest
    rcases hafter t hDt with hDt | hmem
    · exact hD t h1 (Nat.le_trans h2 hnes) hDt
    · have hrange := htes t (mem_targetsList_reverse.1 hmem)
      omega

end

mutual

theorem plain_of_top : ∀ {e : CExpr V} {v : Bool} {n : ℕ} {D : ℕ → Prop} {rest : List (Stmt V)}, Typed v e →
    Fresh n (expand e n).counter D → AssignsFirst D ((expand e n).ifs ++ rest) → PlainConditions false e
  | .const _, _, _, _, _, _, _, _ | .var _, _, _, _, _, _, _, _ => trivial
  | .node _ _, _, _, _, _, ht, hD, h => plain_of_topList ht hD h
  | .cond l c a b, v, n, D, rest, ht, hD, h => by
    obtain ⟨hnc, htc, -⟩ := expand_within c n
    have hna := (expand_within a (expand c n).counter).1
    have hnb := (expand_within b (expand a (expand c n).counter).counter).1
    rw [expand, List.append_assoc] at h
    rw [expand] at hD
    dsimp only at hD
    have hc : PlainConditions false c := plain_of_top ht.2.1 (fun t h1 h2 => hD t h1 (by omega)) h
    obtain ⟨D', hrest, hafter⟩ := h.afterList
    have hD' : Fresh (expand c n).counter (expand b (expand a (expand c n).counter).counter).counter D' := by
      intro t h1 h2 hDt
      rcases hafter t hDt with hDt | hmem
      · exact hD t (by omega) (by omega) hDt
      · have hrange := htc t hmem
        omega
    obtain ⟨-, ha, hb⟩ := plain_of_if (plain_of_side ht.2.2.1) (plain_of_side ht.2.2.2) rfl (Nat.le_refl _) hD' hrest
    exact ⟨fun hside => absurd hside Bool.false_ne_true, hc, ha, hb⟩

theorem plain_of_topList : ∀ {es : List (CExpr V)} {n : ℕ} {D : ℕ → Prop} {rest : List (Stmt V)}, TypedList es →
    Fresh n (expandArgs es n).counter D → AssignsFirst D ((expandArgs es n).ifs ++ rest) → PlainConditionsList false es
  | [], _, _, _, _, _, _ => trivial
  | e :: es, n, D, rest, ht, hD, h => by
    obtain ⟨hne, hte, -⟩ := expand_within e n
    obtain ⟨hnes, -, -⟩ := expandArgs_within es (expand e n).counter
    rw [expandArgs, List.append_assoc] at h
    rw [expandArgs] at hD
    refine ⟨plain_of_top ht.1 (fun t h1 h2 => hD t h1 (Nat.le_trans h2 hnes)) h, ?_⟩
    obtain ⟨D', hrest, hafter⟩ := h.afterList
    refine plain_of_topList ht.2 (fun t h1 h2 hDt => ?_) hrest
    rcases hafter t hDt with hDt | hmem
    · exact hD t (Nat.lt_of_le_of_lt hne h1) h2 hDt
    · have hrange := hte t hmem
      omega

end

end OpenHT.Htc
