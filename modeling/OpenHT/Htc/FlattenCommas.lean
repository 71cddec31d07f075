import OpenHT.Htc.ExprStore

/-!
# `FlattenCommas`

The pass takes comma expressions apart. It visits them in postorder: a copy of the left operand goes to a list, and
the right operand takes the place of the comma. In the end the copies become statements before the statement that the
expression is in, or before the `if` or `switch` that it is the condition of.

* `reduce`, `insertList`: the expression that is left, and the list of copies.
* `cOrder`: the left operands in the order of C.
* `flatten_preserves_iff`: a statement is what it was just if no comma is in the right operand of another one.
-/

namespace OpenHT.Htc

open Unseq

variable {V : Type}

/-! ## The pass -/

mutual

/-- The expression once its commas are collapsed. -/
def reduce : CExpr V → CExpr V
  | .const v => .const v
  | .var x => .var x
  | .node k args => .node k (reduceList args)
  | .comma _ b => reduce b
  | .cond d c a b => .cond d (reduce c) (reduce a) (reduce b)

def reduceList : List (CExpr V) → List (CExpr V)
  | [] => []
  | e :: es => reduce e :: reduceList es

end

/-- A place in an expression: which operand, from the root on. -/
abbrev Path := List ℕ

mutual

/-- `insertList`: the copies of left operands, each with the place of its comma. -/
def insertList (p : Path) : CExpr V → List (Path × CExpr V)
  | .const _ | .var _ => []
  | .node _ args => insertArgs p 0 args
  | .comma a b => insertList (p ++ [0]) a ++ insertList (p ++ [1]) b ++ [(p, reduce a)]
  | .cond _ c a b => insertList (p ++ [0]) c ++ insertList (p ++ [1]) a ++ insertList (p ++ [2]) b

def insertArgs (p : Path) : ℕ → List (CExpr V) → List (Path × CExpr V)
  | _, [] => []
  | i, e :: es => insertList (p ++ [i]) e ++ insertArgs p (i + 1) es

end

/-- What an expression is of a statement. -/
inductive Place
  /-- All of an expression statement, or part of a declaration or a `return`. -/
  | statement
  | ifCondition
  | switchSelector
deriving DecidableEq, Repr

/-- Where new statements go: before the statement around the expression, or before its parent. -/
inductive InsertPoint
  | enclosing
  | parent
deriving DecidableEq, Repr

/-- `insertPoint`; the condition of an `if` is an expression statement whose parent is the `if`. -/
def insertPoint : Place → InsertPoint
  | .statement => .enclosing
  | .ifCondition | .switchSelector => .parent

/-- What becomes of an expression: new statements, where they are, and the expression in its old place. -/
structure Flattened (V : Type) where
  inserted : List (CExpr V)
  point : InsertPoint
  expr : CExpr V

/-- `FlattenCommas` -/
def flatten (place : Place) (e : CExpr V) : Flattened V :=
  ⟨(insertList [] e).map Prod.snd, insertPoint place, reduce e⟩

/-! ## What the result does -/

/-- Expression statements one after another; `none` is an error. -/
inductive SeqExec (m : Meaning V) : List (CExpr V) → Store V → Option (Store V) → Prop
  | nil (s : Store V) : SeqExec m [] s (some s)
  | cons {a : CExpr V} {as : List (CExpr V)} {s s' : Store V} {v : V} {c : Option (Store V)}
    (h : Runs (sem m) a s (some (v, s'))) (hs : SeqExec m as s' c) : SeqExec m (a :: as) s c
  | error {a : CExpr V} {as : List (CExpr V)} {s : Store V} (h : Runs (sem m) a s none) : SeqExec m (a :: as) s none

/-- The new statements come before the expression. -/
def Flattened.Precedes (f : Flattened V) (place : Place) : Prop :=
  match place, f.point with
  | .statement, _ => True
  | .ifCondition, .parent | .switchSelector, .parent => True
  | .ifCondition, .enclosing | .switchSelector, .enclosing => False

/-- The new statements and then the expression. -/
def Flattened.Runs (m : Meaning V) (f : Flattened V) (s : Store V) (o : Option (V × Store V)) : Prop :=
  (∃ s', SeqExec m f.inserted s (some s') ∧ Unseq.Runs (sem m) f.expr s' o) ∨ (o = none ∧ SeqExec m f.inserted s none)

/-! ## The order of C -/

mutual

/-- The left operands of commas from left to right. -/
def cOrder (p : Path) : CExpr V → List (Path × CExpr V)
  | .const _ | .var _ => []
  | .node _ args => cOrderArgs p 0 args
  | .comma a b => cOrder (p ++ [0]) a ++ (p, reduce a) :: cOrder (p ++ [1]) b
  | .cond _ c a b => cOrder (p ++ [0]) c ++ cOrder (p ++ [1]) a ++ cOrder (p ++ [2]) b

def cOrderArgs (p : Path) : ℕ → List (CExpr V) → List (Path × CExpr V)
  | _, [] => []
  | i, e :: es => cOrder (p ++ [i]) e ++ cOrderArgs p (i + 1) es

end

mutual

/-- Built from variables, constants, assignments, calls, strict operators and commas. -/
def NoCond : CExpr V → Prop
  | .const _ | .var _ => True
  | .node _ args => NoCondList args
  | .comma a b => NoCond a ∧ NoCond b
  | .cond _ _ _ _ => False

def NoCondList : List (CExpr V) → Prop
  | [] => True
  | e :: es => NoCond e ∧ NoCondList es

end

mutual

def CommaFree : CExpr V → Prop
  | .const _ | .var _ => True
  | .node _ args => CommaFreeList args
  | .comma _ _ => False
  | .cond _ c a b => CommaFree c ∧ CommaFree a ∧ CommaFree b

def CommaFreeList : List (CExpr V) → Prop
  | [] => True
  | e :: es => CommaFree e ∧ CommaFreeList es

end

mutual

/-- **No comma is in the right operand of another one.** -/
def LeftNested : CExpr V → Prop
  | .const _ | .var _ => True
  | .node _ args => LeftNestedList args
  | .comma a b => LeftNested a ∧ CommaFree b
  | .cond _ c a b => LeftNested c ∧ LeftNested a ∧ LeftNested b

def LeftNestedList : List (CExpr V) → Prop
  | [] => True
  | e :: es => LeftNested e ∧ LeftNestedList es

end

mutual

theorem reduce_of_commaFree : ∀ {e : CExpr V}, CommaFree e → reduce e = e
  | .const _, _ | .var _, _ => rfl
  | .node _ _, h => congrArg _ (reduceList_of_commaFree h)
  | .comma _ _, h => h.elim
  | .cond d c a b, h => by
    rw [reduce, reduce_of_commaFree h.1, reduce_of_commaFree h.2.1, reduce_of_commaFree h.2.2]

theorem reduceList_of_commaFree : ∀ {es : List (CExpr V)}, CommaFreeList es → reduceList es = es
  | [], _ => rfl
  | e :: es, h => by rw [reduceList, reduce_of_commaFree h.1, reduceList_of_commaFree h.2]

end

mutual

/-- The list is empty just if there is no comma. -/
theorem insertList_eq_nil_iff (p : Path) : ∀ {e : CExpr V}, insertList p e = [] ↔ CommaFree e
  | .const _ | .var _ => iff_of_true rfl trivial
  | .node _ _ => insertArgs_eq_nil_iff p 0
  | .comma a b => iff_of_false (by simp [insertList]) id
  | .cond d c a b => by
    rw [insertList, List.append_eq_nil_iff, List.append_eq_nil_iff, insertList_eq_nil_iff, insertList_eq_nil_iff,
      insertList_eq_nil_iff, and_assoc, CommaFree]

theorem insertArgs_eq_nil_iff (p : Path) (i : ℕ) : ∀ {es : List (CExpr V)}, insertArgs p i es = [] ↔ CommaFreeList es
  | [] => iff_of_true rfl trivial
  | e :: es => by
    rw [insertArgs, List.append_eq_nil_iff, insertList_eq_nil_iff, insertArgs_eq_nil_iff, CommaFreeList]

end

mutual

theorem cOrder_length (p : Path) : ∀ e : CExpr V, (cOrder p e).length = (insertList p e).length
  | .const _ | .var _ => rfl
  | .node _ args => cOrderArgs_length p 0 args
  | .comma a b => by
    rw [cOrder, insertList, List.length_append, List.length_cons, List.length_append, List.length_append,
      cOrder_length, cOrder_length, List.length_singleton]
    omega
  | .cond d c a b => by
    rw [cOrder, insertList, List.length_append, List.length_append, List.length_append, List.length_append,
      cOrder_length, cOrder_length, cOrder_length]

theorem cOrderArgs_length (p : Path) (i : ℕ) : ∀ es : List (CExpr V),
    (cOrderArgs p i es).length = (insertArgs p i es).length
  | [] => rfl
  | e :: es => by
    rw [cOrderArgs, insertArgs, List.length_append, List.length_append, cOrder_length, cOrderArgs_length]

end

mutual

/-- The places are in the expression. -/
theorem length_le_of_mem (p : Path) : ∀ {e : CExpr V} {q : Path × CExpr V}, q ∈ insertList p e → p.length ≤ q.1.length
  | .node _ _, _, h => length_le_of_mem_args p 0 h
  | .comma a b, q, h => by
    rw [insertList, List.append_assoc, List.mem_append, List.mem_append, List.mem_singleton] at h
    have hlen : ∀ i : ℕ, (p ++ [i]).length = p.length + 1 := fun i => List.length_append
    have h0 := hlen 0
    have h1 := hlen 1
    rcases h with h | h | rfl
    · have hle := length_le_of_mem _ h
      omega
    · have hle := length_le_of_mem _ h
      omega
    · exact Nat.le_refl _
  | .cond d c a b, q, h => by
    rw [insertList, List.append_assoc, List.mem_append, List.mem_append] at h
    have hlen : ∀ i : ℕ, (p ++ [i]).length = p.length + 1 := fun i => List.length_append
    have h0 := hlen 0
    have h1 := hlen 1
    have h2 := hlen 2
    rcases h with h | h | h
    · have hle := length_le_of_mem _ h
      omega
    · have hle := length_le_of_mem _ h
      omega
    · have hle := length_le_of_mem _ h
      omega

theorem length_le_of_mem_args (p : Path) (i : ℕ) : ∀ {es : List (CExpr V)} {q : Path × CExpr V},
    q ∈ insertArgs p i es → p.length ≤ q.1.length
  | e :: es, q, h => by
    rw [insertArgs, List.mem_append] at h
    rcases h with h | h
    · have hle := length_le_of_mem _ h
      have hlen : (p ++ [i]).length = p.length + 1 := List.length_append
      omega
    · exact length_le_of_mem_args p (i + 1) h

end

mutual

/-- **The order of the list is the order of C** just if no comma is in the right operand of another one: there it
would come before the left operand of the outer comma. -/
theorem insertList_eq_cOrder_iff (p : Path) : ∀ {e : CExpr V}, insertList p e = cOrder p e ↔ LeftNested e
  | .const _ | .var _ => iff_of_true rfl trivial
  | .node _ _ => insertArgs_eq_cOrder_iff p 0
  | .comma a b => by
    have ha := insertList_eq_cOrder_iff (p ++ [0]) (e := a)
    rw [insertList, cOrder, List.append_assoc, LeftNested]
    constructor
    · intro h
      obtain ⟨hleft, hright⟩ := List.append_inj h (cOrder_length _ _).symm
      refine ⟨ha.1 hleft, (insertList_eq_nil_iff (p ++ [1])).1 ?_⟩
      cases hb : insertList (p ++ [1]) b with
      | nil => rfl
      | cons q qs =>
        rw [hb] at hright
        obtain ⟨rfl, -⟩ := List.cons.inj hright
        have hle : (p ++ [1]).length ≤ p.length := length_le_of_mem (p ++ [1]) (hb ▸ List.mem_cons_self)
        have hlen : (p ++ [1]).length = p.length + 1 := List.length_append
        omega
    · rintro ⟨hleft, hb⟩
      have hnil := (insertList_eq_nil_iff (p ++ [1])).2 hb
      have hnil' : cOrder (p ++ [1]) b = [] := by
        apply List.eq_nil_of_length_eq_zero
        rw [cOrder_length, hnil]
        rfl
      rw [ha.2 hleft, hnil, hnil']
      rfl
  | .cond d c a b => by
    have hc := insertList_eq_cOrder_iff (p ++ [0]) (e := c)
    have ha := insertList_eq_cOrder_iff (p ++ [1]) (e := a)
    have hb := insertList_eq_cOrder_iff (p ++ [2]) (e := b)
    rw [insertList, cOrder, List.append_assoc, List.append_assoc, LeftNested]
    constructor
    · intro h
      obtain ⟨h1, h⟩ := List.append_inj h (cOrder_length _ _).symm
      obtain ⟨h2, h3⟩ := List.append_inj h (cOrder_length _ _).symm
      exact ⟨hc.1 h1, ha.1 h2, hb.1 h3⟩
    · rintro ⟨h1, h2, h3⟩
      rw [hc.2 h1, ha.2 h2, hb.2 h3]

theorem insertArgs_eq_cOrder_iff (p : Path) (i : ℕ) : ∀ {es : List (CExpr V)},
    insertArgs p i es = cOrderArgs p i es ↔ LeftNestedList es
  | [] => iff_of_true rfl trivial
  | e :: es => by
    have he := insertList_eq_cOrder_iff (p ++ [i]) (e := e)
    have hes : insertArgs p (i + 1) es = cOrderArgs p (i + 1) es ↔ LeftNestedList es :=
      insertArgs_eq_cOrder_iff p (i + 1)
    rw [insertArgs, cOrderArgs, LeftNestedList]
    constructor
    · intro h
      obtain ⟨h1, h2⟩ := List.append_inj h (cOrder_length _ _).symm
      exact ⟨he.1 h1, hes.1 h2⟩
    · rintro ⟨h1, h2⟩
      rw [he.2 h1, hes.2 h2]

end

/-! ## What the new statements do -/

theorem SeqExec.split {m : Meaning V} {as bs : List (CExpr V)} {s : Store V} {c : Option (Store V)}
    (h : SeqExec m (as ++ bs) s c) :
    (∃ s', SeqExec m as s (some s') ∧ SeqExec m bs s' c) ∨ (c = none ∧ SeqExec m as s none) := by
  induction as generalizing s with
  | nil => exact .inl ⟨s, .nil s, h⟩
  | cons a as ih =>
    cases h with
    | cons h hs =>
      rcases ih hs with ⟨s', h1, h2⟩ | ⟨hc, h1⟩
      · exact .inl ⟨s', .cons h h1, h2⟩
      · exact .inr ⟨hc, .cons h h1⟩
    | error h => exact .inr ⟨rfl, .error h⟩

theorem exists_seqExec (m : Meaning V) (as : List (CExpr V)) (s : Store V) : ∃ c, SeqExec m as s c := by
  induction as generalizing s with
  | nil => exact ⟨_, .nil s⟩
  | cons a as ih =>
    obtain ⟨o, ho⟩ := exists_runs (sem m) a s
    cases o with
    | none => exact ⟨none, .error ho⟩
    | some r =>
      obtain ⟨c, hc⟩ := ih r.2
      exact ⟨c, .cons ho hc⟩

theorem Flattened.exists_runs (m : Meaning V) (f : Flattened V) (s : Store V) : ∃ o, f.Runs m s o := by
  obtain ⟨c, hc⟩ := exists_seqExec m f.inserted s
  cases c with
  | none => exact ⟨none, .inr ⟨rfl, hc⟩⟩
  | some s' =>
    obtain ⟨o, ho⟩ := Unseq.exists_runs (sem m) f.expr s'
    exact ⟨o, .inl ⟨s', hc, ho⟩⟩

/-- What an expression that is left reaches. -/
def left (e : CExpr V) (c : Option (Store V)) : Option (CExpr V × Store V) := c.map fun s => (e, s)

/-- If the part in a frame reaches what is left of it, so does the whole. -/
theorem reaches_frame {m : Meaning V} (F : Frame V Strict CondLabel String) {e e' : CExpr V} {s : Store V}
    {c : Option (Store V)} (h : Reaches (sem m) e s (left e' c)) :
    Reaches (sem m) (F.plug e) s (left (F.plug e') c) := by
  cases c with
  | none => exact h.frame_error F
  | some s' => exact h.frame F

mutual

/-- **The copies do what the commas do**: the expression can take the same steps, and what is left of it is the
reduced expression. -/
theorem reaches_reduce {m : Meaning V} (p : Path) : ∀ {e : CExpr V}, NoCond e → LeftNested e →
    ∀ {s : Store V} {c : Option (Store V)}, SeqExec m ((insertList p e).map Prod.snd) s c →
      Reaches (sem m) e s (left (reduce e) c)
  | .const _, _, _, _, _, h | .var _, _, _, _, _, h => by
    cases h
    exact .refl _ _
  | .node k args, hc, hl, s, c, h => reaches_reduceList p 0 k [] hc hl h
  | .comma a b, hc, hl, s, c, h => by
    have hb : insertList (p ++ [1]) b = [] := (insertList_eq_nil_iff _).2 hl.2
    rw [insertList, hb, List.append_nil, List.map_append] at h
    rw [reduce, reduce_of_commaFree hl.2]
    rcases h.split with ⟨s1, h1, h2⟩ | ⟨rfl, h1⟩
    · have hleft := reaches_frame (.comma b) (reaches_reduce (p ++ [0]) hc.1 hl.1 h1)
      refine hleft.trans ?_
      -- the statement that is a copy of the left operand
      cases h2 with
      | cons hr hs =>
        cases hs
        exact (hr.frame (.comma b)).trans (.single (.comma _ b _))
      | error hr => exact hr.frame_error (.comma b)
    · exact reaches_frame (.comma b) (reaches_reduce (p ++ [0]) hc.1 hl.1 h1)

/-- The operands one after another. -/
theorem reaches_reduceList {m : Meaning V} (p : Path) (i : ℕ) (k : Strict) (l : List (CExpr V)) :
    ∀ {es : List (CExpr V)}, NoCondList es → LeftNestedList es → ∀ {s : Store V} {c : Option (Store V)},
      SeqExec m ((insertArgs p i es).map Prod.snd) s c →
      Reaches (sem m) (.node k (l ++ es)) s (left (.node k (l ++ reduceList es)) c)
  | [], _, _, s, c, h => by
    cases h
    exact .refl _ _
  | e :: es, hc, hl, s, c, h => by
    rw [insertArgs, List.map_append] at h
    rcases h.split with ⟨s1, h1, h2⟩ | ⟨rfl, h1⟩
    · have hfirst := reaches_frame (.node k l es) (reaches_reduce (p ++ [i]) hc.1 hl.1 h1)
      have hrest := reaches_reduceList p (i + 1) k (l ++ [reduce e]) hc.2 hl.2 h2
      rw [List.append_assoc, List.append_assoc] at hrest
      exact hfirst.trans hrest
    · exact reaches_frame (.node k l es) (reaches_reduce (p ++ [i]) hc.1 hl.1 h1)

end

/-- **Each outcome is one of the original expression.** -/
theorem runs_of_flattened {m : Meaning V} {place : Place} {e : CExpr V} (hc : NoCond e) (hl : LeftNested e)
    {s : Store V} {o : Option (V × Store V)} (h : (flatten place e).Runs m s o) : Unseq.Runs (sem m) e s o := by
  rcases h with ⟨s', h1, h2⟩ | ⟨rfl, h1⟩
  · exact Runs.of_reaches (reaches_reduce [] hc hl h1) h2
  · exact reaches_reduce [] hc hl h1

/-! ## Preservation -/

/-- No order of evaluation goes wrong. -/
def Defined (m : Meaning V) (e : CExpr V) (s : Store V) : Prop := ¬ Unseq.Runs (sem m) e s none

/-- **The result is what the expression was**: the left operands are in the order of C and before the expression, and
where the expression is defined, the result ends, with a value and a store of the expression. -/
def Preserves (V : Type) (place : Place) (e : CExpr V) : Prop :=
  (insertList [] e = cOrder [] e ∧ (flatten place e).Precedes place) ∧
  ∀ (m : Meaning V) (s : Store V), Defined m e s →
    (∃ o, (flatten place e).Runs m s o) ∧
    ∀ o, (flatten place e).Runs m s o → ∃ r, o = some r ∧ Unseq.Runs (sem m) e s (some r)

theorem flatten_precedes (place : Place) (e : CExpr V) : (flatten place e).Precedes place := by
  cases place <;> exact trivial

/-- **When a statement is what it was**: just if no comma is in the right operand of another one. -/
theorem flatten_preserves_iff (place : Place) (e : CExpr V) (hc : NoCond e) : Preserves V place e ↔ LeftNested e := by
  constructor
  · intro h
    exact (insertList_eq_cOrder_iff []).1 h.1.1
  · intro hl
    refine ⟨⟨(insertList_eq_cOrder_iff []).2 hl, flatten_precedes place e⟩, fun m s hdef => ?_⟩
    refine ⟨Flattened.exists_runs m _ s, fun o ho => ?_⟩
    have hrun := runs_of_flattened hc hl ho
    cases o with
    | none => exact absurd hrun hdef
    | some r => exact ⟨r, rfl, hrun⟩

/-- The assignment of a number to a variable. -/
def setTo (x : String) (n : ℤ) : CExpr ℤ := .node (.assign x) [.const n]

/-- `x = 1, x = 2, f(x)`: no comma is in the right operand of another one. -/
theorem flatten_preserves_iff_left : NoCond (.comma (.comma (setTo "x" 1) (setTo "x" 2)) (.node (.call "f") [.var "x"])) ∧
    (Preserves ℤ .ifCondition (.comma (.comma (setTo "x" 1) (setTo "x" 2)) (.node (.call "f") [.var "x"])) ↔
      LeftNested (.comma (.comma (setTo "x" 1) (setTo "x" 2)) (.node (.call "f") [.var "x"] : CExpr ℤ))) :=
  have hc : NoCond (.comma (.comma (setTo "x" 1) (setTo "x" 2)) (.node (.call "f") [.var "x"])) :=
    ⟨⟨⟨trivial, trivial⟩, ⟨trivial, trivial⟩⟩, ⟨trivial, trivial⟩⟩
  ⟨hc, flatten_preserves_iff .ifCondition _ hc⟩

/-- `x = 1, (x = 2, x)` -/
def rightNested : CExpr ℤ := .comma (setTo "x" 1) (.comma (setTo "x" 2) (.var "x"))

theorem runs_setTo (x : String) (n : ℤ) (s : Store ℤ) :
    Unseq.Runs (sem first) (setTo x n) s (some (n, { s with vars := Function.update s.vars x n })) :=
  Reaches.single (Step.apply (Strict.assign x) [n] s)

/-- The value of the right operand is 2, and that of the statements is 1: there `x = 2` comes before `x = 1`. -/
theorem rightNested_differs : NoCond rightNested ∧ ¬ Preserves ℤ .statement rightNested ∧
    ∀ s, (∀ o, Unseq.Runs (sem first) rightNested s o → o.map Prod.fst = some 2) ∧
      ∃ s', (flatten .statement rightNested).Runs first s (some (1, s')) := by
  refine ⟨⟨⟨trivial, trivial⟩, ⟨trivial, trivial⟩, trivial⟩, ?_, fun s => ⟨?_, ?_⟩⟩
  · intro h
    have hnested : LeftNested rightNested := (insertList_eq_cOrder_iff []).1 h.1.1
    exact hnested.2
  · intro o h
    rcases h.comma_inv with ⟨v, s1, h1, h⟩ | ⟨-, h1⟩
    · rcases h.comma_inv with ⟨w, s2, h2, h3⟩ | ⟨-, h2⟩
      · obtain ⟨-, rfl⟩ := Prod.mk.inj (Option.some.inj h2.unary_inv)
        rw [h3.var_inv]
        have hx : Function.update s1.vars "x" (2 : ℤ) "x" = 2 := Function.update_self ..
        exact congrArg some hx
      · cases h2.unary_inv
    · cases h1.unary_inv
  · have hx : Function.update (Function.update s.vars "x" 2) "x" (1 : ℤ) "x" = 1 := Function.update_self ..
    have hread : Step (sem first) (.var "x") ⟨Function.update (Function.update s.vars "x" 2) "x" 1, s.taken⟩
        (some (.const (Function.update (Function.update s.vars "x" 2) "x" 1 "x"), _)) := .var "x" _
    rw [hx] at hread
    exact ⟨_, .inl ⟨_, .cons (runs_setTo "x" 2 s) (.cons (runs_setTo "x" 1 _) (.nil _)), .single hread⟩⟩

end OpenHT.Htc
