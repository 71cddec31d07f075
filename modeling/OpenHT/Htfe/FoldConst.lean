import Mathlib.Data.List.Forall2
import OpenHT.Htfe.ConstOps

/-!
# `FoldConstantExpr`

Constant expressions are folded bottom up. An operator on a conditional with constant branches is pushed into the
branches, and two such conditionals with one condition are merged.

* `Operand`, `eval`: expressions and their values.
* `Operand.Folded`: the tree, with the messages and the conditions of the conditionals that were merged.
* `fold`: `FoldConstantExpr`, which ends (`fold_ends`).
* `fold_constant_expr_sound`: the value is the same if merged conditions are.
-/

namespace OpenHT.Htfe

open CConstValue

/-- A sub-field of an operand: its name, and how many of the indices are its. -/
structure SubField where
  ident : String
  indexCnt : ℕ
  bBitIndex : Bool
deriving DecidableEq, Repr

/-- `CHtfeOperand`. Each node has its `m_opWidth`; a variable has what `GetMinWidth` returns, its bit indices, its
array indices and those of its sub-fields. -/
inductive Operand
  | const (value : CConstValue) (opWidth : Int)
  | var (member : String) (minWidth : Int) (subField : List SubField) (paramList indexList : List Operand) (opWidth : Int)
  | unary (op : UnOp) (e₁ : Operand) (opWidth : Int)
  | binary (op : BinOp) (e₁ e₂ : Operand) (opWidth : Int)
  | typeCast (isSigned : Bool) (width : ℕ) (e₂ : Operand) (opWidth : Int)
  | question (e₁ e₂ e₃ : Operand) (opWidth : Int)
  | comma (e₁ e₂ : Operand) (opWidth : Int)

/-- The values of variables, members and elements: by name, sub-fields, bit indices and array indices. -/
abbrev Values := String → List SubField → List CConstValue → List CConstValue → CConstValue

namespace Operand

def opWidth : Operand → Int
  | const _ w | var _ _ _ _ _ w | unary _ _ w | binary _ _ _ w | typeCast _ _ _ w | question _ _ _ w | comma _ _ w => w

/-- `IsConstValue`, with `GetConstValue` -/
def constValue : Operand → Option CConstValue
  | const v _ => some v
  | _ => none

def isConstValue (e : Operand) : Bool := e.constValue.isSome

section

variable (concat : CConstValue → CConstValue → CConstValue) (σ : Values)

mutual

/-- The value of an expression, `none` if it is undefined. `concat` is the operator `,`, which constants do not have. -/
def eval : Operand → Option CConstValue
  | const v _ => some v
  | var member _ subField paramList indexList _ => do
    let params ← evalList paramList
    let indices ← evalList indexList
    return σ member subField params indices
  | unary op e₁ _ => eval e₁ >>= op.eval
  | binary op e₁ e₂ _ => do
    let l ← eval e₁
    let r ← eval e₂
    op.eval l r
  | typeCast isSigned width e₂ _ => eval e₂ >>= CConstValue.cast isSigned width
  | question e₁ e₂ e₃ _ => do
    let c ← eval e₁
    if c.nonzero then eval e₂ else eval e₃
  | comma e₁ e₂ _ => do
    let l ← eval e₁
    let r ← eval e₂
    return concat l r

def evalList : List Operand → Option (List CConstValue)
  | [] => some []
  | e :: es => do
    let v ← eval e
    let vs ← evalList es
    return v :: vs

end

end

/-- `IsConstCondExpression` -/
def isConstCond : Operand → Bool
  | question _ e₂ e₃ _ => (e₂.isConstValue || e₂.isConstCond) && (e₃.isConstValue || e₃.isConstCond)
  | _ => false

/-- `IsExpressionEqual` -/
def isExpressionEqual : Operand → Operand → Bool
  | const v₁ _, const v₂ _ => (v₁.equalEqual v₂).nonzero
  | var m₁ w₁ _ [] _ _, var m₂ w₂ _ [] _ _ => m₁ == m₂ && w₁ == w₂
  | var m₁ w₁ _ (const p₁ _ :: ps₁) _ _, var m₂ w₂ _ (const p₂ _ :: ps₂) _ _ =>
    m₁ == m₂ && w₁ == w₂ && ps₁.length == ps₂.length && (p₁.equalEqual p₂).nonzero
  | _, _ => false

/-- `MergeConstCondExpression` on `op` of two conditionals. -/
def mergeConstCond (op : BinOp) : Operand → Operand → Operand
  | question c₁ a₁ b₁ w, question _ a₂ b₂ _ => question c₁ (binary op a₁ a₂ 0) (binary op b₁ b₂ 0) w
  | e₁, e₂ => binary op e₁ e₂ 0

/-- `PushConstCondExpression` on a conditional on the left, before it is folded again. -/
def pushLeft (op : BinOp) (k : CConstValue) (kw w : Int) : Operand → Operand
  | question c a b cw => question c (binary op a (const k 0) 0) (binary op b (const k kw) cw) w
  | e => binary op e (const k kw) w

/-- The same on a conditional on the right. -/
def pushRight (op : BinOp) (k : CConstValue) (kw w : Int) : Operand → Operand
  | question c a b cw => question c (binary op (const k 0) a 0) (binary op (const k kw) b cw) w
  | e => binary op (const k kw) e w

end Operand

/-! ## Folding -/

/-- Why a call does not return: it was given too little fuel, or it computes what C++ leaves undefined. -/
inductive Stop
  | fuel
  | undef
deriving DecidableEq, Repr

/-- What `FoldConstantExpr` leaves: the tree, its errors and warnings, the conditions of the conditionals that it
has merged, and the value it returns. -/
structure Folded where
  tree : Operand
  msgs : List String
  merges : List (Operand × Operand)
  ret : Bool

namespace Folded

/-- A tree without further messages. -/
def keep (tree : Operand) (rs : List Folded) : Folded :=
  ⟨tree, (rs.map msgs).flatten, (rs.map merges).flatten, false⟩

/-- `SetIsLeaf` and `SetConstValue` -/
def leaf (value : CConstValue) (opWidth : Int) (msgs : List String) (rs : List Folded) : Folded :=
  ⟨.const value opWidth, (rs.map Folded.msgs).flatten ++ msgs, (rs.map merges).flatten, true⟩

end Folded

namespace Operand

def orUndef {α : Type} : Option α → Except Stop α
  | some a => .ok a
  | none => .error .undef

def foldList (f : Operand → Except Stop Folded) : List Operand → Except Stop (List Folded)
  | [] => .ok []
  | e :: es => do
    let r ← f e
    let rs ← foldList f es
    return r :: rs

/-- The messages of a binary operator on these operands. -/
def binaryMsgs (op : BinOp) (e₁ e₂ : Operand) : List String :=
  match op, e₂.constValue with
  | .slash, some v => if v.isZero then ["division by zero"] else []
  | .lessLess, some v | .greaterGreater, some v =>
    let op1Width := if e₁.opWidth ≤ 32 then 32 else if e₁.opWidth ≤ 64 then 64 else e₁.opWidth
    if op1Width < (getSint64 v).value ∨ (getSint64 v).value < 0 then
      ["shift amount is too large or negative, shift forced to zero"]
    else []
  | _, _ => []

/-- A binary operator on folded operands that is neither merged nor pushed. -/
def foldBinary (op : BinOp) (r₁ r₂ : Folded) (w : Int) : Except Stop Folded :=
  let msgs := binaryMsgs op r₁.tree r₂.tree
  if msgs ≠ [] then .ok (.leaf (.of .int32 0) w msgs [r₁, r₂])
  else match r₁.tree.constValue, r₂.tree.constValue with
    | some l, some r => (orUndef (op.eval l r)).map fun v => .leaf v w [] [r₁, r₂]
    | _, _ => .ok (.keep (.binary op r₁.tree r₂.tree w) [r₁, r₂])

/-- The condition of a conditional. -/
def cond : Operand → Operand
  | question c _ _ _ => c
  | e => e

/-- `FoldConstantExpr` -/
def fold : ℕ → Operand → Except Stop Folded
  | 0, _ => .error .fuel
  | n + 1, e =>
    match e with
    | const v w => .ok ⟨const v w, [], [], true⟩
    | var member minWidth subField paramList indexList w => do
      let rs ← foldList (fold n) paramList
      return .keep (var member minWidth subField (rs.map Folded.tree) indexList w) rs
    | comma e₁ e₂ w => .ok (.keep (comma e₁ e₂ w) [])
    | unary op e₁ w => do
      let r₁ ← fold n e₁
      match r₁.tree.constValue with
      | none => return .keep (unary op r₁.tree w) [r₁]
      | some v => (orUndef (op.eval v)).map fun v => .leaf v w [] [r₁]
    | typeCast isSigned width e₂ w => do
      let r₂ ← fold n e₂
      match r₂.tree.constValue with
      | none => return .keep (typeCast isSigned width r₂.tree w) [r₂]
      | some v =>
        if 64 < width then return .keep (typeCast isSigned width r₂.tree w) [r₂]
        else (orUndef (v.cast isSigned width)).map fun v => .leaf v w [] [r₂]
    | question e₁ e₂ e₃ w => do
      let r₁ ← fold n e₁
      let r₂ ← fold n e₂
      let r₃ ← fold n e₃
      match r₁.tree.constValue, r₂.tree.constValue, r₃.tree.constValue with
      | some c, some a, some b => return .leaf (if c.nonzero then a else b) w [] [r₁, r₂, r₃]
      | _, _, _ => return .keep (question r₁.tree r₂.tree r₃.tree w) [r₁, r₂, r₃]
    | binary op e₁ e₂ w => do
      let r₁ ← fold n e₁
      let r₂ ← fold n e₂
      if r₁.tree.isConstCond && r₂.tree.isConstCond && isExpressionEqual r₁.tree.cond r₂.tree.cond then
        let r := Folded.keep (mergeConstCond op r₁.tree r₂.tree) [r₁, r₂]
        return { r with merges := r.merges ++ [(r₁.tree.cond, r₂.tree.cond)] }
      else match if r₁.ret && r₂.tree.isConstCond then r₁.tree.constValue else none,
          if r₂.ret && r₁.tree.isConstCond then r₂.tree.constValue else none with
        | some k, _ => do
          let r ← fold n (pushRight op k r₁.tree.opWidth w r₂.tree)
          return .keep r.tree [r₁, r₂, r]
        | none, some k => do
          let r ← fold n (pushLeft op k r₂.tree.opWidth w r₁.tree)
          return .keep r.tree [r₁, r₂, r]
        | none, none => foldBinary op r₁ r₂ w

/-! ## It ends -/

mutual

/-- Pushing an operator makes a tree lighter. -/
def weight : Operand → ℕ
  | const _ _ => 2
  | var _ _ _ paramList _ _ => 2 + weightList paramList
  | unary _ e₁ _ => weight e₁ + 1
  | binary _ e₁ e₂ _ => (weight e₁ + 1) * (weight e₂ + 1)
  | typeCast _ _ e₂ _ => weight e₂ + 1
  | question e₁ e₂ e₃ _ => weight e₁ + weight e₂ + weight e₃ + 1
  | comma e₁ e₂ _ => weight e₁ + weight e₂ + 1

def weightList : List Operand → ℕ
  | [] => 0
  | e :: es => weight e + weightList es

end

attribute [local simp] weight

theorem weight_pos (e : Operand) : 0 < e.weight := by
  cases e with
  | const v w => exact Nat.succ_pos 1
  | var m mw sf ps is w => exact Nat.lt_add_right _ (Nat.succ_pos 1)
  | unary op e₁ w => exact Nat.succ_pos _
  | binary op e₁ e₂ w => exact Nat.mul_pos (Nat.succ_pos _) (Nat.succ_pos _)
  | typeCast s wd e₂ w => exact Nat.succ_pos _
  | question e₁ e₂ e₃ w => exact Nat.succ_pos _
  | comma e₁ e₂ w => exact Nat.succ_pos _

/-- The operands of a binary operator are lighter than it. -/
theorem weight_operands (op : BinOp) (e₁ e₂ : Operand) (w : Int) :
    e₁.weight < (binary op e₁ e₂ w).weight ∧ e₂.weight < (binary op e₁ e₂ w).weight := by
  exact ⟨Nat.le_mul_of_pos_right (e₁.weight + 1) (Nat.succ_pos e₂.weight),
    Nat.le_mul_of_pos_left (e₂.weight + 1) (Nat.succ_pos e₁.weight)⟩

variable {n : ℕ} {r : Folded}

theorem weight_binary_mono {op : BinOp} {e₁ e₂ t₁ t₂ : Operand} {w : Int} (h₁ : t₁.weight ≤ e₁.weight)
    (h₂ : t₂.weight ≤ e₂.weight) : (binary op t₁ t₂ w).weight ≤ (binary op e₁ e₂ w).weight :=
  Nat.mul_le_mul (Nat.succ_le_succ h₁) (Nat.succ_le_succ h₂)

theorem bind_ok {α β : Type} {x : Except Stop α} {f : α → Except Stop β} {b : β} (h : x >>= f = .ok b) :
    ∃ a, x = .ok a ∧ f a = .ok b := by
  cases x with
  | error s => cases h
  | ok a => exact ⟨a, rfl, h⟩

theorem constValue_some {e : Operand} {k : CConstValue} (h : e.constValue = some k) : e = const k e.opWidth := by
  cases e with
  | const v w => 
    obtain rfl : v = k := Option.some.inj h
    exact rfl
  | _ => cases h

theorem isConstCond_question {e : Operand} (h : e.isConstCond) : ∃ a b w, e = question e.cond a b w := by
  cases e with
  | question c a b w => exact ⟨a, b, w, rfl⟩
  | _ => cases h

theorem pushLeft_weight {op : BinOp} {k : CConstValue} {kw w : Int} {e : Operand} (h : e.isConstCond) :
    (pushLeft op k kw w e).weight < (binary op e (const k kw) w).weight := by
  obtain ⟨a, b, cw, he⟩ := isConstCond_question h
  have hpos := e.cond.weight_pos
  rw [he]
  simp only [pushLeft, weight]
  omega

theorem pushRight_weight {op : BinOp} {k : CConstValue} {kw w : Int} {e : Operand} (h : e.isConstCond) :
    (pushRight op k kw w e).weight < (binary op (const k kw) e w).weight := by
  obtain ⟨a, b, cw, he⟩ := isConstCond_question h
  have hpos := e.cond.weight_pos
  rw [he]
  simp only [pushRight, weight]
  omega

theorem mergeConstCond_weight {op : BinOp} {w : Int} {e₁ e₂ : Operand} (h₁ : e₁.isConstCond) (h₂ : e₂.isConstCond) :
    (mergeConstCond op e₁ e₂).weight ≤ (binary op e₁ e₂ w).weight := by
  obtain ⟨a₁, b₁, w₁, he₁⟩ := isConstCond_question h₁
  obtain ⟨a₂, b₂, w₂, he₂⟩ := isConstCond_question h₂
  rw [he₁, he₂]
  simp only [mergeConstCond, weight]
  generalize e₁.cond.weight = x₁, a₁.weight = y₁, b₁.weight = z₁
  generalize e₂.cond.weight = x₂, a₂.weight = y₂, b₂.weight = z₂
  have hy : (y₁ + 1) * (y₂ + 1) ≤ (y₁ + 1) * (x₂ + y₂ + z₂ + 1 + 1) := Nat.mul_le_mul_left _ (by omega)
  have hz : (z₁ + 1) * (z₂ + 1) ≤ z₁ * (x₂ + y₂ + z₂ + 1 + 1) + (z₂ + 1) := by
    have := Nat.mul_le_mul_left z₁ (show z₂ + 1 ≤ x₂ + y₂ + z₂ + 1 + 1 by omega)
    rw [Nat.succ_mul]
    omega
  have hx : x₁ ≤ x₁ * (x₂ + y₂ + z₂ + 1 + 1) := Nat.le_mul_of_pos_right _ (by omega)
  have hprod : (x₁ + y₁ + z₁ + 1 + 1) * (x₂ + y₂ + z₂ + 1 + 1) =
      x₁ * (x₂ + y₂ + z₂ + 1 + 1) + (y₁ + 1) * (x₂ + y₂ + z₂ + 1 + 1) + z₁ * (x₂ + y₂ + z₂ + 1 + 1) +
        (x₂ + y₂ + z₂ + 1 + 1) := by
    rw [← Nat.add_mul, ← Nat.add_mul, ← Nat.succ_mul]
    congr 1
    omega
  omega

/-- **A binary operator.** On folded operands it is merged, pushed into a conditional that is folded again, or
left where it is. -/
theorem fold_binary_cases {op : BinOp} {e₁ e₂ : Operand} {w : Int} (h : fold (n + 1) (binary op e₁ e₂ w) = .ok r) :
    ∃ r₁ r₂, fold n e₁ = .ok r₁ ∧ fold n e₂ = .ok r₂ ∧
      ((r₁.tree.isConstCond ∧ r₂.tree.isConstCond ∧ isExpressionEqual r₁.tree.cond r₂.tree.cond = true ∧
          r.tree = mergeConstCond op r₁.tree r₂.tree ∧
          r.msgs = r₁.msgs ++ r₂.msgs ∧ r.merges = r₁.merges ++ r₂.merges ++ [(r₁.tree.cond, r₂.tree.cond)]) ∨
        (∃ k kw t, r₁.tree = const k kw ∧ r₂.tree.isConstCond ∧ fold n (pushRight op k kw w r₂.tree) = .ok t ∧
          r = .keep t.tree [r₁, r₂, t]) ∨
        (∃ k kw t, r₂.tree = const k kw ∧ r₁.tree.isConstCond ∧ fold n (pushLeft op k kw w r₁.tree) = .ok t ∧
          r = .keep t.tree [r₁, r₂, t]) ∨
        foldBinary op r₁ r₂ w = .ok r) := by
  unfold fold at h
  obtain ⟨r₁, h₁, h⟩ := bind_ok h
  obtain ⟨r₂, h₂, h⟩ := bind_ok h
  refine ⟨r₁, r₂, h₁, h₂, ?_⟩
  split at h
  next hm =>
    simp only [Bool.and_eq_true] at hm
    obtain rfl := Except.ok.inj h
    refine .inl ⟨hm.1.1, hm.1.2, hm.2, rfl, ?_, ?_⟩ <;> simp [Folded.keep]
  next =>
    split at h
    next k hk =>
      obtain ⟨t, ht, h⟩ := bind_ok h
      obtain rfl := Except.ok.inj h
      split at hk
      next hc =>
        rw [Bool.and_eq_true] at hc
        exact .inr (.inl ⟨k, _, t, constValue_some hk, hc.2, ht, rfl⟩)
      next => cases hk
    next k hx hk =>
      obtain ⟨t, ht, h⟩ := bind_ok h
      obtain rfl := Except.ok.inj h
      split at hk
      next hc =>
        rw [Bool.and_eq_true] at hc
        exact .inr (.inr (.inl ⟨k, _, t, constValue_some hk, hc.2, ht, rfl⟩))
      next => cases hk
    next => exact .inr (.inr (.inr h))

theorem orUndef_ok {α β : Type} {x : Option α} {f : α → β} {b : β} (h : (orUndef x).map f = .ok b) :
    ∃ a, x = some a ∧ b = f a := by
  cases x with
  | none => cases h
  | some a => exact ⟨a, rfl, (Except.ok.inj h).symm⟩

theorem foldList_ok {f : Operand → Except Stop Folded} {es : List Operand} {rs : List Folded}
    (h : foldList f es = .ok rs) : List.Forall₂ (fun e r => f e = .ok r) es rs := by
  induction es generalizing rs with
  | nil =>
    obtain rfl := Except.ok.inj h
    exact .nil
  | cons e es ih =>
    obtain ⟨r, hr, h⟩ := bind_ok h
    obtain ⟨rs', hrs, h⟩ := bind_ok h
    obtain rfl := Except.ok.inj h
    exact .cons hr (ih hrs)

theorem weightList_le {es : List Operand} {rs : List Folded}
    (h : List.Forall₂ (fun e r => r.tree.weight ≤ e.weight) es rs) : weightList (rs.map Folded.tree) ≤ weightList es := by
  induction h with
  | nil => exact Nat.le_refl 0
  | cons h _ ih => exact Nat.add_le_add h ih

/-- What a binary operator on folded operands becomes: a constant, or the operator. -/
theorem foldBinary_cases {op : BinOp} {r₁ r₂ : Folded} {w : Int} (h : foldBinary op r₁ r₂ w = .ok r) :
    (∃ msgs, msgs ≠ [] ∧ r = .leaf (.of .int32 0) w msgs [r₁, r₂]) ∨
      (∃ l k v, r₁.tree.constValue = some l ∧ r₂.tree.constValue = some k ∧ op.eval l k = some v ∧
        r = .leaf v w [] [r₁, r₂]) ∨
      r = .keep (binary op r₁.tree r₂.tree w) [r₁, r₂] := by
  unfold foldBinary at h
  dsimp only at h
  split at h
  next hm => exact .inl ⟨_, hm, (Except.ok.inj h).symm⟩
  next =>
    split at h
    next l k hl hk =>
      obtain ⟨v, hv, hr⟩ := orUndef_ok h
      exact .inr (.inl ⟨l, k, v, hl, hk, hv, hr⟩)
    next => exact .inr (.inr (Except.ok.inj h).symm)

theorem fold_weight {e : Operand} (h : fold n e = .ok r) : r.tree.weight ≤ e.weight := by
  induction n generalizing e r with
  | zero => cases h
  | succ n ih =>
    have leaf_le : ∀ (e : Operand) v w, (const v w).weight ≤ e.weight + 1 := by
      intro e v w
      exact Nat.succ_le_succ e.weight_pos
    cases e with
    | const v w =>
      obtain rfl := Except.ok.inj h
      exact Nat.le_refl _
    | var m mw sf ps is w =>
      obtain ⟨rs, hrs, h⟩ := bind_ok h
      obtain rfl := Except.ok.inj h
      exact Nat.add_le_add_left (weightList_le ((foldList_ok hrs).imp fun _ _ => ih)) 2
    | comma e₁ e₂ w =>
      obtain rfl := Except.ok.inj h
      exact Nat.le_refl _
    | unary op e₁ w =>
      obtain ⟨r₁, h₁, h⟩ := bind_ok h
      split at h
      next =>
        obtain rfl := Except.ok.inj h
        exact Nat.succ_le_succ (ih h₁)
      next v hv =>
        obtain ⟨u, hu, rfl⟩ := orUndef_ok h
        exact leaf_le e₁ u w
    | typeCast s wd e₂ w =>
      obtain ⟨r₂, h₂, h⟩ := bind_ok h
      split at h
      next =>
        obtain rfl := Except.ok.inj h
        exact Nat.succ_le_succ (ih h₂)
      next v hv =>
        split at h
        next =>
          obtain rfl := Except.ok.inj h
          exact Nat.succ_le_succ (ih h₂)
        next =>
          obtain ⟨u, hu, rfl⟩ := orUndef_ok h
          exact leaf_le e₂ u w
    | question e₁ e₂ e₃ w =>
      obtain ⟨r₁, h₁, h⟩ := bind_ok h
      obtain ⟨r₂, h₂, h⟩ := bind_ok h
      obtain ⟨r₃, h₃, h⟩ := bind_ok h
      split at h
      next =>
        obtain rfl := Except.ok.inj h
        refine Nat.le_trans (leaf_le e₁ _ w) (Nat.succ_le_succ ?_)
        exact Nat.le_trans (Nat.le_add_right e₁.weight e₂.weight) (Nat.le_add_right _ _)
      next =>
        obtain rfl := Except.ok.inj h
        exact Nat.succ_le_succ (Nat.add_le_add (Nat.add_le_add (ih h₁) (ih h₂)) (ih h₃))
    | binary op e₁ e₂ w =>
      obtain ⟨r₁, r₂, h₁, h₂, hcases⟩ := fold_binary_cases h
      have hmono : (binary op r₁.tree r₂.tree w).weight ≤ (binary op e₁ e₂ w).weight :=
        weight_binary_mono (ih h₁) (ih h₂)
      refine Nat.le_trans ?_ hmono
      have hleft := weight_operands op r₁.tree r₂.tree w
      obtain ⟨hc₁, hc₂, -, ht, -⟩ | ⟨k, kw, t, hk, hc, ht, rfl⟩ | ⟨k, kw, t, hk, hc, ht, rfl⟩ | hb := hcases
      · rw [ht]
        exact mergeConstCond_weight hc₁ hc₂
      · rw [hk]
        exact Nat.le_trans (ih ht : t.tree.weight ≤ _) (Nat.le_of_lt (pushRight_weight hc))
      · rw [hk]
        exact Nat.le_trans (ih ht : t.tree.weight ≤ _) (Nat.le_of_lt (pushLeft_weight hc))
      · have hleaf : ∀ v w', (const v w').weight ≤ (binary op r₁.tree r₂.tree w).weight := by
          intro v w'
          exact Nat.le_trans (leaf_le r₁.tree v w') hleft.1
        obtain ⟨msgs, -, rfl⟩ | ⟨l, k, v, -, -, -, rfl⟩ | rfl := foldBinary_cases hb
        · exact hleaf _ w
        · exact hleaf v w
        · exact Nat.le_refl _

theorem bind_ne_fuel {α β : Type} {x : Except Stop α} {f : α → Except Stop β} (hx : x ≠ .error .fuel)
    (hf : ∀ a, x = .ok a → f a ≠ .error .fuel) : x >>= f ≠ .error .fuel := by
  cases x with
  | error s =>
    intro h
    exact hx (by rw [Except.error.inj h])
  | ok a => exact hf a rfl

theorem orUndef_ne_fuel {α β : Type} {x : Option α} {f : α → β} : (orUndef x).map f ≠ .error .fuel := by
  cases x with
  | none =>
    intro h
    cases Except.error.inj h
  | some a =>
    intro h
    cases h

theorem foldList_ne_fuel {f : Operand → Except Stop Folded} {es : List Operand}
    (h : ∀ e, e.weight ≤ weightList es → f e ≠ .error .fuel) : foldList f es ≠ .error .fuel := by
  induction es with
  | nil =>
    intro h
    cases h
  | cons e es ih =>
    refine bind_ne_fuel (h e (Nat.le_add_right _ _)) fun r _ => bind_ne_fuel (ih ?_) fun rs _ h => by cases h
    intro e' he'
    exact h e' (Nat.le_trans he' (Nat.le_add_left _ _))

/-- **Folding ends**, with as much fuel as the tree is heavy. -/
theorem fold_ends {e : Operand} (hn : e.weight ≤ n) : fold n e ≠ .error .fuel := by
  induction n generalizing e with
  | zero => exact absurd e.weight_pos (Nat.not_lt.2 hn)
  | succ n ih =>
    cases e with
    | const v w =>
      intro h
      cases h
    | comma e₁ e₂ w =>
      intro h
      cases h
    | var m mw sf ps is w =>
      have hps : 2 + weightList ps ≤ n + 1 := hn
      refine bind_ne_fuel (foldList_ne_fuel fun e he => ih (by omega)) fun rs _ h => by cases h
    | unary op e₁ w =>
      refine bind_ne_fuel (ih (Nat.le_of_succ_le_succ hn)) fun r₁ _ => ?_
      split
      next =>
        intro h
        cases h
      next => exact orUndef_ne_fuel
    | typeCast s wd e₂ w =>
      refine bind_ne_fuel (ih (Nat.le_of_succ_le_succ hn)) fun r₂ _ => ?_
      split
      next =>
        intro h
        cases h
      next =>
        split
        next =>
          intro h
          cases h
        next => exact orUndef_ne_fuel
    | question e₁ e₂ e₃ w =>
      have hq : e₁.weight + e₂.weight + e₃.weight + 1 ≤ n + 1 := hn
      refine bind_ne_fuel (ih (by omega)) fun r₁ _ => bind_ne_fuel (ih (by omega)) fun r₂ _ =>
        bind_ne_fuel (ih (by omega)) fun r₃ _ => ?_
      split <;>
      · intro h
        cases h
    | binary op e₁ e₂ w =>
      obtain ⟨hlt₁, hlt₂⟩ := weight_operands op e₁ e₂ w
      refine bind_ne_fuel (ih (by omega)) fun r₁ h₁ => bind_ne_fuel (ih (by omega)) fun r₂ h₂ => ?_
      have hmono : (binary op r₁.tree r₂.tree w).weight ≤ n + 1 :=
        Nat.le_trans (weight_binary_mono (fold_weight h₁) (fold_weight h₂)) hn
      split
      next =>
        intro h
        cases h
      next =>
        -- a conditional that an operator was pushed into is lighter than the operator was
        split
        next k hk =>
          split at hk
          next hc =>
            rw [Bool.and_eq_true] at hc
            rw [constValue_some hk] at hmono
            have hlt : (pushRight op k r₁.tree.opWidth w r₂.tree).weight < _ := pushRight_weight hc.2
            exact bind_ne_fuel (ih (by omega)) fun t _ h => by cases h
          next => cases hk
        next k hx hk =>
          split at hk
          next hc =>
            rw [Bool.and_eq_true] at hc
            rw [constValue_some hk] at hmono
            have hlt : (pushLeft op k r₂.tree.opWidth w r₁.tree).weight < _ := pushLeft_weight hc.2
            exact bind_ne_fuel (ih (by omega)) fun t _ h => by cases h
          next => cases hk
        next =>
          unfold foldBinary
          dsimp only
          split
          next =>
            intro h
            cases h
          next =>
            split
            next => exact orUndef_ne_fuel
            next =>
              intro h
              cases h

/-! ## It keeps values -/

section

variable (concat : CConstValue → CConstValue → CConstValue) (σ : Values)

/-- Which branch a condition takes. -/
def truth (c : Operand) : Option Bool := (eval concat σ c).map nonzero

/-- No message was printed, and the conditions of merged conditionals are true together. -/
structure Clean (r : Folded) : Prop where
  msgs : r.msgs = []
  merges : ∀ p ∈ r.merges, truth concat σ p.1 = truth concat σ p.2

variable {concat σ}

theorem clean_keep {t : Operand} {rs : List Folded} (h : Clean concat σ (.keep t rs)) : ∀ x ∈ rs, Clean concat σ x := by
  intro x hx
  have hmsgs := List.flatten_eq_nil_iff.1 h.msgs
  refine ⟨hmsgs _ (List.mem_map_of_mem hx), fun p hp => h.merges p ?_⟩
  exact List.mem_flatten.2 ⟨_, List.mem_map_of_mem hx, hp⟩

theorem clean_leaf {v : CConstValue} {w : Int} {msgs : List String} {rs : List Folded}
    (h : Clean concat σ (.leaf v w msgs rs)) : msgs = [] ∧ ∀ x ∈ rs, Clean concat σ x := by
  obtain ⟨hrs, hmsgs⟩ := List.append_eq_nil_iff.1 h.msgs
  exact ⟨hmsgs, clean_keep (t := .const v w) ⟨hrs, h.merges⟩⟩

theorem eval_const {e : Operand} {k : CConstValue} (h : e.constValue = some k) : eval concat σ e = some k := by
  rw [constValue_some h]
  rfl

theorem eval_question (c a b : Operand) (w : Int) :
    eval concat σ (question c a b w) =
      (truth concat σ c).bind fun t => if t then eval concat σ a else eval concat σ b := by
  unfold truth
  cases hc : eval concat σ c <;> simp [eval, hc]

theorem eval_binary (op : BinOp) (a b : Operand) (w : Int) :
    eval concat σ (binary op a b w) = (eval concat σ a).bind fun l => (eval concat σ b).bind fun r => op.eval l r := rfl

/-- An operator with a constant on its right may be pushed. -/
theorem eval_pushLeft {op : BinOp} {k : CConstValue} {kw w : Int} {e : Operand} (h : e.isConstCond) :
    eval concat σ (pushLeft op k kw w e) = eval concat σ (binary op e (const k kw) w) := by
  obtain ⟨a, b, cw, he⟩ := isConstCond_question h
  rw [he, eval_binary, eval_question]
  unfold pushLeft
  rw [eval_question, eval_binary, eval_binary]
  cases truth concat σ e.cond with
  | none => rfl
  | some t => cases t <;> rfl

/-- The same with a constant on its left. -/
theorem eval_pushRight {op : BinOp} {k : CConstValue} {kw w : Int} {e : Operand} (h : e.isConstCond) :
    eval concat σ (pushRight op k kw w e) = eval concat σ (binary op (const k kw) e w) := by
  obtain ⟨a, b, cw, he⟩ := isConstCond_question h
  rw [he, eval_binary, eval_question]
  unfold pushRight
  rw [eval_question, eval_binary, eval_binary]
  cases truth concat σ e.cond with
  | none => rfl
  | some t => cases t <;> rfl

/-- Two conditionals may be merged if their conditions are true together. -/
theorem eval_mergeConstCond {op : BinOp} {w : Int} {e₁ e₂ : Operand} (h₁ : e₁.isConstCond) (h₂ : e₂.isConstCond)
    (hcond : truth concat σ e₁.cond = truth concat σ e₂.cond) :
    eval concat σ (mergeConstCond op e₁ e₂) = eval concat σ (binary op e₁ e₂ w) := by
  obtain ⟨a₁, b₁, w₁, he₁⟩ := isConstCond_question h₁
  obtain ⟨a₂, b₂, w₂, he₂⟩ := isConstCond_question h₂
  rw [he₁, he₂, eval_binary, eval_question, eval_question]
  unfold mergeConstCond
  rw [eval_question, eval_binary, eval_binary, ← hcond]
  cases truth concat σ e₁.cond with
  | none => rfl
  | some t => cases t <;> rfl

theorem evalList_eq {f : Operand → Except Stop Folded} {es : List Operand} {rs : List Folded}
    (h : List.Forall₂ (fun e r => f e = .ok r) es rs)
    (hf : ∀ e r, f e = .ok r → Clean concat σ r → eval concat σ r.tree = eval concat σ e)
    (hrs : ∀ x ∈ rs, Clean concat σ x) : evalList concat σ (rs.map Folded.tree) = evalList concat σ es := by
  induction h with
  | nil => rfl
  | cons h _ ih =>
    have hhead := hf _ _ h (hrs _ (.head _))
    have htail := ih fun x hx => hrs x (.tail _ hx)
    rw [List.map_cons]
    unfold evalList
    rw [hhead, htail]

theorem fold_sound {e : Operand} (h : fold n e = .ok r) (hr : Clean concat σ r) :
    eval concat σ r.tree = eval concat σ e := by
  induction n generalizing e r with
  | zero => cases h
  | succ n ih =>
    cases e with
    | const v w =>
      obtain rfl := Except.ok.inj h
      exact rfl
    | comma e₁ e₂ w =>
      obtain rfl := Except.ok.inj h
      exact rfl
    | var m mw sf ps is w =>
      obtain ⟨rs, hrs, h⟩ := bind_ok h
      obtain rfl := Except.ok.inj h
      have hps := evalList_eq (foldList_ok hrs) (fun _ _ => ih) (clean_keep hr)
      simp only [Folded.keep, eval, hps]
    | unary op e₁ w =>
      obtain ⟨r₁, h₁, h⟩ := bind_ok h
      split at h
      next =>
        obtain rfl := Except.ok.inj h
        exact congrArg (· >>= op.eval) (ih h₁ (clean_keep hr r₁ (.head _)))
      next v hv =>
        obtain ⟨u, hu, rfl⟩ := orUndef_ok h
        have he₁ := ih h₁ ((clean_leaf hr).2 r₁ (.head _))
        rw [eval_const hv] at he₁
        simp only [Folded.leaf, eval, ← he₁]
        exact hu.symm
    | typeCast s wd e₂ w =>
      obtain ⟨r₂, h₂, h⟩ := bind_ok h
      split at h
      next =>
        obtain rfl := Except.ok.inj h
        exact congrArg (· >>= CConstValue.cast s wd) (ih h₂ (clean_keep hr r₂ (.head _)))
      next v hv =>
        split at h
        next =>
          obtain rfl := Except.ok.inj h
          exact congrArg (· >>= CConstValue.cast s wd) (ih h₂ (clean_keep hr r₂ (.head _)))
        next =>
          obtain ⟨u, hu, rfl⟩ := orUndef_ok h
          have he₂ := ih h₂ ((clean_leaf hr).2 r₂ (.head _))
          rw [eval_const hv] at he₂
          simp only [Folded.leaf, eval, ← he₂]
          exact hu.symm
    | question e₁ e₂ e₃ w =>
      obtain ⟨r₁, h₁, h⟩ := bind_ok h
      obtain ⟨r₂, h₂, h⟩ := bind_ok h
      obtain ⟨r₃, h₃, h⟩ := bind_ok h
      split at h
      next c a b hc ha hb =>
        obtain rfl := Except.ok.inj h
        have hclean := (clean_leaf hr).2
        have he₁ := ih h₁ (hclean r₁ (.head _))
        have he₂ := ih h₂ (hclean r₂ (.tail _ (.head _)))
        have he₃ := ih h₃ (hclean r₃ (.tail _ (.tail _ (.head _))))
        rw [eval_const hc] at he₁
        rw [eval_const ha] at he₂
        rw [eval_const hb] at he₃
        simp only [Folded.leaf, eval, ← he₁, ← he₂, ← he₃, Option.bind_eq_bind, Option.bind_some]
        split <;> rfl
      next =>
        obtain rfl := Except.ok.inj h
        have hclean := clean_keep hr
        simp only [Folded.keep, eval, ih h₁ (hclean r₁ (.head _)), ih h₂ (hclean r₂ (.tail _ (.head _))),
          ih h₃ (hclean r₃ (.tail _ (.tail _ (.head _))))]
    | binary op e₁ e₂ w =>
      obtain ⟨r₁, r₂, h₁, h₂, hcases⟩ := fold_binary_cases h
      have operands : Clean concat σ r₁ → Clean concat σ r₂ →
          eval concat σ (binary op r₁.tree r₂.tree w) = eval concat σ (binary op e₁ e₂ w) := by
        intro hr₁ hr₂
        rw [eval_binary, eval_binary, ih h₁ hr₁, ih h₂ hr₂]
      obtain ⟨hc₁, hc₂, -, ht, hmsgs, hmerges⟩ | ⟨k, kw, t, hk, hc, ht, rfl⟩ | ⟨k, kw, t, hk, hc, ht, rfl⟩ | hb := hcases
      · obtain ⟨hm₁, hm₂⟩ := List.append_eq_nil_iff.1 (hmsgs.symm.trans hr.msgs)
        have hall := hr.merges
        simp only [hmerges, List.mem_append, List.mem_singleton] at hall
        rw [ht, ← operands ⟨hm₁, fun p hp => hall p (.inl (.inl hp))⟩ ⟨hm₂, fun p hp => hall p (.inl (.inr hp))⟩]
        exact eval_mergeConstCond hc₁ hc₂ (hall _ (.inr rfl))
      · have hclean := clean_keep hr
        rw [← operands (hclean r₁ (.head _)) (hclean r₂ (.tail _ (.head _))), hk, ← eval_pushRight hc]
        have hpushed := ih ht (hclean t (.tail _ (.tail _ (.head _))))
        exact hpushed
      · have hclean := clean_keep hr
        rw [← operands (hclean r₁ (.head _)) (hclean r₂ (.tail _ (.head _))), hk, ← eval_pushLeft hc]
        have hpushed := ih ht (hclean t (.tail _ (.tail _ (.head _))))
        exact hpushed
      · obtain ⟨msgs, hne, rfl⟩ | ⟨l, k, v, hl, hk, hv, rfl⟩ | rfl := foldBinary_cases hb
        · exact absurd (clean_leaf hr).1 hne
        · have hclean := (clean_leaf hr).2
          rw [← operands (hclean r₁ (.head _)) (hclean r₂ (.tail _ (.head _))), eval_binary, eval_const hl, eval_const hk]
          exact hv.symm
        · have hclean := clean_keep hr
          exact operands (hclean r₁ (.head _)) (hclean r₂ (.tail _ (.head _)))

end

/-- `FoldConstantExpr`, with the fuel that it needs. -/
def foldConstantExpr (e : Operand) : Except Stop Folded := fold e.weight e

/-- **`FoldConstantExpr` keeps values** when the conditions that it takes for one are true together: it ends, and a
tree that it leaves without a message has the value of the original. -/
theorem fold_constant_expr_sound (concat : CConstValue → CConstValue → CConstValue) (σ : Values) (e : Operand) :
    foldConstantExpr e ≠ .error .fuel ∧
      ∀ r, foldConstantExpr e = .ok r → r.msgs = [] → (∀ p ∈ r.merges, truth concat σ p.1 = truth concat σ p.2) →
        eval concat σ r.tree = eval concat σ e :=
  ⟨fold_ends (Nat.le_refl _), fun _ h hmsgs hmerges => fold_sound h ⟨hmsgs, hmerges⟩⟩

/-- A member `ident` of the structure `s`, one bit wide. -/
def member (ident : String) : Operand := var "s" 1 [⟨ident, 0, false⟩] [] [] 1

def literal (i : Int) : Operand := const (.of .int32 i) 32

/-- `(s.a ? 1 : 2) + (s.ident ? 10 : 20)` -/
def twoConds (ident : String) : Operand :=
  binary .plus (question (member "a") (literal 1) (literal 2) 32)
    (question (member ident) (literal 10) (literal 20) 32) 32

/-- The member `a` is 1, others are 0. -/
def onlyA : Values := fun _ subField _ _ => .of .int32 (if subField = [⟨"a", 0, false⟩] then 1 else 0)

/-- One member for both conditions: the merged tree has the value of the original. -/
theorem fold_constant_expr_sound_one_member :
    ∃ r, foldConstantExpr (twoConds "a") = .ok r ∧ r.merges ≠ [] ∧
      eval (fun l _ => l) onlyA r.tree = eval (fun l _ => l) onlyA (twoConds "a") := by
  have hok : ∃ r, foldConstantExpr (twoConds "a") = .ok r ∧ r.msgs = [] ∧ r.merges = [(member "a", member "a")] :=
    ⟨_, rfl, rfl, rfl⟩
  obtain ⟨r, hr, hmsgs, hmerges⟩ := hok
  refine ⟨r, hr, by rw [hmerges]; exact List.cons_ne_nil _ _, ?_⟩
  refine (fold_constant_expr_sound _ onlyA (twoConds "a")).2 r hr hmsgs ?_
  intro p hp
  rw [hmerges, List.mem_singleton] at hp
  rw [hp]

/-- Two members of one structure are one condition to `IsExpressionEqual`: the sum was 21 and becomes 11. -/
theorem merges_two_members :
    ¬∀ (concat : CConstValue → CConstValue → CConstValue) (σ : Values) (e : Operand) (r : Folded),
      foldConstantExpr e = .ok r → r.msgs = [] → eval concat σ r.tree = eval concat σ e := by
  intro h
  have hsum := h (fun l _ => l) onlyA (twoConds "b") _ rfl rfl
  revert hsum
  decide

end Operand

end OpenHT.Htfe
