import OpenHT.Htfe.FoldConst
import OpenHT.Htfe.MinWidth

/-!
# `EvalConstantExpr`

The second evaluator of constant expressions. It leaves the tree as it is, and variables that hold a constant count
as constants. Its operators are those of `FoldConstantExpr`, but it has its own way with type casts.

* `castAsUint`, `evalCast`: the casts.
* `evalConstantExpr`: the evaluator.
* `Stuck`: a cast that `FoldConstantExpr` does not fold.
* `Agrees`: where the casts of the two evaluators give the same.
* `eval_constant_expr_agrees`: then the evaluators agree on a tree.
-/

namespace OpenHT.Htfe

open CInt CInt.IntType CConstValue

/-- `CastAsUint`: the low `width` bits, in 32 bits or in 64 as before; `none` where the shift for the mask is
undefined. -/
def CConstValue.castAsUint (width : ℕ) (v : CConstValue) : Option CConstValue :=
  if 64 < width then none
  else
    let low := v.value % (Nat.pow 2 width : ℕ)
    match v.type with
    | int64 | uint64 => some (.of uint64 low)
    | int32 | uint32 => some (.of uint32 low)

/-- A type cast in `EvalConstantExpr`. -/
def CConstValue.evalCast (isSigned : Bool) (width : ℕ) (v : CConstValue) : Option CConstValue :=
  if isSigned then some v else castAsUint width v

namespace Operand

/-- `EvalConstantExpr`: `none` is `return false`. `constVar` has the values of the variables that are constants. -/
def evalConstantExpr (constVar : String → Option CConstValue) : Operand → Except Stop (Option CConstValue)
  | const v _ => .ok (some v)
  | var member _ _ _ _ _ => .ok (constVar member)
  | unary op e₁ _ => do
    match ← evalConstantExpr constVar e₁ with
    | none => return none
    | some v => (orUndef (op.eval v)).map some
  | binary op e₁ e₂ _ => do
    let v₁ ← evalConstantExpr constVar e₁
    let v₂ ← evalConstantExpr constVar e₂
    match v₁, v₂ with
    | some l, some r => (orUndef (op.eval l r)).map some
    | _, _ => return none
  | typeCast isSigned width e₂ _ => do
    match ← evalConstantExpr constVar e₂ with
    | none => return none
    | some v => (orUndef (v.evalCast isSigned width)).map some
  | question e₁ e₂ e₃ _ => do
    let v₁ ← evalConstantExpr constVar e₁
    let v₂ ← evalConstantExpr constVar e₂
    let v₃ ← evalConstantExpr constVar e₃
    match v₁, v₂, v₃ with
    | some c, some a, some b => return some (if c.nonzero then a else b)
    | _, _, _ => return none
  | comma e₁ e₂ _ => do
    let _ ← evalConstantExpr constVar e₁
    let _ ← evalConstantExpr constVar e₂
    return none

/-- The leaves are constants. -/
def ConstLeaves : Operand → Prop
  | const _ _ => True
  | var _ _ _ _ _ _ | comma _ _ _ => False
  | unary _ e₁ _ => ConstLeaves e₁
  | binary _ e₁ e₂ _ => ConstLeaves e₁ ∧ ConstLeaves e₂
  | typeCast _ _ e₂ _ => ConstLeaves e₂
  | question e₁ e₂ e₃ _ => ConstLeaves e₁ ∧ ConstLeaves e₂ ∧ ConstLeaves e₃

/-! ## Trees that are not folded -/

/-- There is a cast to more than 64 bits, which `FoldConstantExpr` leaves. -/
def Stuck : Operand → Prop
  | const _ _ | var _ _ _ _ _ _ | comma _ _ _ => False
  | unary _ e₁ _ => Stuck e₁
  | binary _ e₁ e₂ _ => Stuck e₁ ∨ Stuck e₂
  | typeCast _ width e₂ _ => 64 < width ∨ Stuck e₂
  | question e₁ e₂ e₃ _ => Stuck e₁ ∨ Stuck e₂ ∨ Stuck e₃

variable {n : ℕ} {e : Operand} {r : Folded}

theorem Stuck.constValue (h : Stuck e) : e.constValue = none := by
  cases e with
  | const v w => cases h
  | _ => rfl

theorem not_stuck_of_isExpressionEqual {e₁ e₂ : Operand} (h : isExpressionEqual e₁ e₂ = true) : ¬Stuck e₂ := by
  intro hstuck
  unfold isExpressionEqual at h
  split at h
  · exact hstuck
  · exact hstuck
  · exact hstuck
  · cases h

/-- An operator that is pushed into a conditional takes nothing away that is stuck. -/
theorem Stuck.pushRight {op : BinOp} {k : CConstValue} {kw w : Int} (hc : e.isConstCond) (h : Stuck e) :
    Stuck (pushRight op k kw w e) := by
  obtain ⟨a, b, cw, he⟩ := isConstCond_question hc
  rw [he] at h ⊢
  rcases h with h | h | h
  · exact .inl h
  · exact .inr (.inl (.inr h))
  · exact .inr (.inr (.inr h))

theorem Stuck.pushLeft {op : BinOp} {k : CConstValue} {kw w : Int} (hc : e.isConstCond) (h : Stuck e) :
    Stuck (pushLeft op k kw w e) := by
  obtain ⟨a, b, cw, he⟩ := isConstCond_question hc
  rw [he] at h ⊢
  rcases h with h | h | h
  · exact .inl h
  · exact .inr (.inl (.inl h))
  · exact .inr (.inr (.inl h))

/-- Nor do two conditionals that are merged: the condition that goes is a leaf. -/
theorem Stuck.merge {op : BinOp} {e₁ e₂ : Operand} (hc₁ : e₁.isConstCond) (hc₂ : e₂.isConstCond)
    (heq : isExpressionEqual e₁.cond e₂.cond = true) (h : Stuck e₁ ∨ Stuck e₂) : Stuck (mergeConstCond op e₁ e₂) := by
  obtain ⟨a₁, b₁, w₁, he₁⟩ := isConstCond_question hc₁
  obtain ⟨a₂, b₂, w₂, he₂⟩ := isConstCond_question hc₂
  have hleaf := not_stuck_of_isExpressionEqual heq
  rw [he₁, he₂] at h ⊢
  rcases h with (h | h | h) | (h | h | h)
  · exact .inl h
  · exact .inr (.inl (.inl h))
  · exact .inr (.inr (.inl h))
  · exact absurd h hleaf
  · exact .inr (.inl (.inr h))
  · exact .inr (.inr (.inr h))

theorem msgs_keep {t : Operand} {rs : List Folded} (h : (Folded.keep t rs).msgs = []) : ∀ x ∈ rs, x.msgs = [] := by
  intro x hx
  exact List.flatten_eq_nil_iff.1 h _ (List.mem_map_of_mem hx)

theorem msgs_leaf {v : CConstValue} {w : Int} {msgs : List String} {rs : List Folded}
    (h : (Folded.leaf v w msgs rs).msgs = []) : msgs = [] ∧ ∀ x ∈ rs, x.msgs = [] := by
  obtain ⟨hrs, hmsgs⟩ := List.append_eq_nil_iff.1 h
  exact ⟨hmsgs, msgs_keep (t := .const v w) hrs⟩

/-- **What is stuck stays so**, unless there is a message. -/
theorem fold_stuck (h : fold n e = .ok r) (hmsgs : r.msgs = []) (hs : Stuck e) : Stuck r.tree := by
  induction n generalizing e r with
  | zero => cases h
  | succ n ih =>
    cases e with
    | const v w => cases hs
    | var m mw sf ps is w => cases hs
    | comma e₁ e₂ w => cases hs
    | unary op e₁ w =>
      obtain ⟨r₁, h₁, h⟩ := bind_ok h
      split at h
      next =>
        obtain rfl := Except.ok.inj h
        have hstuck := ih h₁ (msgs_keep hmsgs r₁ (.head _)) hs
        exact hstuck
      next v hv =>
        obtain ⟨u, -, rfl⟩ := orUndef_ok h
        have hstuck := ih h₁ ((msgs_leaf hmsgs).2 r₁ (.head _)) hs
        cases hv.symm.trans hstuck.constValue
    | typeCast s width e₂ w =>
      obtain ⟨r₂, h₂, h⟩ := bind_ok h
      have hkeep : r₂.msgs = [] → Stuck (typeCast s width r₂.tree w) := by
        intro hm
        rcases hs with hwidth | hs
        · exact .inl hwidth
        · exact .inr (ih h₂ hm hs)
      split at h
      next =>
        obtain rfl := Except.ok.inj h
        exact hkeep (msgs_keep hmsgs r₂ (.head _))
      next v hv =>
        split at h
        next =>
          obtain rfl := Except.ok.inj h
          exact hkeep (msgs_keep hmsgs r₂ (.head _))
        next hwidth =>
          obtain ⟨u, -, rfl⟩ := orUndef_ok h
          have hstuck := ih h₂ ((msgs_leaf hmsgs).2 r₂ (.head _)) (hs.resolve_left hwidth)
          cases hv.symm.trans hstuck.constValue
    | question e₁ e₂ e₃ w =>
      obtain ⟨r₁, h₁, h⟩ := bind_ok h
      obtain ⟨r₂, h₂, h⟩ := bind_ok h
      obtain ⟨r₃, h₃, h⟩ := bind_ok h
      have hkeep : (∀ x ∈ [r₁, r₂, r₃], x.msgs = []) → Stuck (question r₁.tree r₂.tree r₃.tree w) := by
        intro hm
        exact hs.imp (ih h₁ (hm r₁ (.head _)))
          (Or.imp (ih h₂ (hm r₂ (.tail _ (.head _)))) (ih h₃ (hm r₃ (.tail _ (.tail _ (.head _))))))
      split at h
      next c a b hc ha hb =>
        obtain rfl := Except.ok.inj h
        rcases hkeep (msgs_leaf hmsgs).2 with hstuck | hstuck | hstuck
        · cases hc.symm.trans hstuck.constValue
        · cases ha.symm.trans hstuck.constValue
        · cases hb.symm.trans hstuck.constValue
      next =>
        obtain rfl := Except.ok.inj h
        exact hkeep (msgs_keep hmsgs)
    | binary op e₁ e₂ w =>
      obtain ⟨r₁, r₂, h₁, h₂, hcases⟩ := fold_binary_cases h
      have hkeep : r₁.msgs = [] → r₂.msgs = [] → Stuck r₁.tree ∨ Stuck r₂.tree :=
        fun hm₁ hm₂ => hs.imp (ih h₁ hm₁) (ih h₂ hm₂)
      obtain ⟨hc₁, hc₂, heq, ht, hm, -⟩ | ⟨k, kw, t, hk, hc, ht, rfl⟩ | ⟨k, kw, t, hk, hc, ht, rfl⟩ | hb := hcases
      · obtain ⟨hm₁, hm₂⟩ := List.append_eq_nil_iff.1 (hm.symm.trans hmsgs)
        rw [ht]
        exact .merge hc₁ hc₂ heq (hkeep hm₁ hm₂)
      · have hm := msgs_keep hmsgs
        have hr₂ := (hkeep (hm r₁ (.head _)) (hm r₂ (.tail _ (.head _)))).resolve_left (by rw [hk]; exact id)
        have hstuck := ih ht (hm t (.tail _ (.tail _ (.head _)))) (hr₂.pushRight hc)
        exact hstuck
      · have hm := msgs_keep hmsgs
        have hr₁ := (hkeep (hm r₁ (.head _)) (hm r₂ (.tail _ (.head _)))).resolve_right (by rw [hk]; exact id)
        have hstuck := ih ht (hm t (.tail _ (.tail _ (.head _)))) (hr₁.pushLeft hc)
        exact hstuck
      · obtain ⟨msgs, hne, rfl⟩ | ⟨l, k, v, hl, hk, -, rfl⟩ | rfl := foldBinary_cases hb
        · exact absurd (msgs_leaf hmsgs).1 hne
        · have hm := (msgs_leaf hmsgs).2
          rcases hkeep (hm r₁ (.head _)) (hm r₂ (.tail _ (.head _))) with hstuck | hstuck
          · cases hl.symm.trans hstuck.constValue
          · cases hk.symm.trans hstuck.constValue
        · have hm := msgs_keep hmsgs
          exact hkeep (hm r₁ (.head _)) (hm r₂ (.tail _ (.head _)))

end Operand

/-! ## Casts -/

/-- Two results are the same: in type and value, or in value alone. -/
def Same : Bool → CConstValue → CConstValue → Prop
  | true, v, v' => v' = v
  | false, v, v' => v'.value = v.value

/-- **Where the two casts give the same** for a value. To a signed type, the value fits. To an unsigned type, it is
not negative if it has 32 bits and the type more. If the type of the result is to be the same, the value has it before
the cast, or an unsigned type of the width class of the cast becomes of it. -/
def CConstValue.CastAgrees (typed isSigned : Bool) (width : ℕ) (v : CConstValue) : Prop :=
  if isSigned then
    -(Nat.pow 2 width : ℕ) ≤ 2 * v.value ∧ 2 * v.value < (Nat.pow 2 width : ℕ) ∧
      (typed = true → v.type = if 32 < width then int64 else int32)
  else
    (v.type.is32Bit = true ∧ 32 < width → 0 ≤ v.value) ∧ (typed = true → (v.type.is32Bit = true ↔ ¬32 < width))

theorem val_ext {u v : CConstValue} (htype : u.type = v.type) (hvalue : u.value = v.value) : u = v := by
  cases u
  cases v
  cases htype
  cases hvalue
  rfl

theorem same_iff {typed : Bool} {v v' : CConstValue} :
    Same typed v v' ↔ v'.value = v.value ∧ (typed = true → v'.type = v.type) := by
  cases typed with
  | true =>
    constructor
    · intro h
      exact ⟨congrArg Val.value h, fun _ => congrArg Val.type h⟩
    · intro h
      exact val_ext (h.2 rfl) h.1
  | false => exact ⟨fun h => ⟨h, fun hfalse => absurd hfalse Bool.false_ne_true⟩, fun h => h.1⟩

theorem Same.value {typed : Bool} {v v' : CConstValue} (h : Same typed v v') : v'.value = v.value := by
  cases typed with
  | true => exact congrArg Val.value h
  | false => exact h

/-- **The casts give the same** just where `CastAgrees` says so. -/
theorem cast_same_iff (typed isSigned : Bool) {width : ℕ} (h1 : 1 ≤ width) (h64 : width ≤ 64) (v : CConstValue) :
    ∃ u u', v.cast isSigned width = some u ∧ v.evalCast isSigned width = some u' ∧
      (Same typed u u' ↔ v.CastAgrees typed isSigned width) := by
  obtain ⟨u, hcast, hvalue⟩ := cast_value isSigned h1 h64 v
  have htype : u.type = if isSigned then (if 32 < width then int64 else int32) else if 32 < width then uint64 else uint32 := by
    have hwidth : ¬(width = 0 ∨ 64 < width) := by omega
    unfold CConstValue.cast at hcast
    rw [if_neg hwidth] at hcast
    obtain rfl := Option.some.inj hcast
    rfl
  cases isSigned with
  | true =>
    refine ⟨u, v, hcast, rfl, ?_⟩
    obtain ⟨k, rfl⟩ : ∃ k, width = k + 1 := ⟨width - 1, by omega⟩
    have hcard : ((Nat.pow 2 (k + 1) : ℕ) : Int) = 2 * (Nat.pow 2 k : ℕ) := by
      have hsucc : Nat.pow 2 (k + 1) = Nat.pow 2 k * 2 := Nat.pow_succ 2 k
      omega
    have hpos : 0 < Nat.pow 2 k := Nat.pow_pos (by omega)
    have hfits := @signExtend_eq_iff v.value (Nat.pow 2 k : ℕ) (by omega)
    simp only [true_and, hcard] at hvalue
    rw [← hvalue] at hfits
    simp only [if_true] at htype
    unfold CConstValue.CastAgrees
    rw [same_iff, if_pos rfl, hcard, htype, eq_comm, hfits, ← and_assoc]
    exact and_congr_left' ⟨fun h => ⟨by omega, by omega⟩, fun h => ⟨by omega, by omega⟩⟩
  | false =>
    have hlow := Int.emod_nonneg v.value (b := ((Nat.pow 2 width : ℕ) : Int))
      (by have hpos : 0 < Nat.pow 2 width := Nat.pow_pos (by omega); omega)
    have hhigh := Int.emod_lt_of_pos v.value (b := ((Nat.pow 2 width : ℕ) : Int))
      (by have hpos : 0 < Nat.pow 2 width := Nat.pow_pos (by omega); omega)
    have hpow64 : Nat.pow 2 width ≤ 2 ^ 64 := Nat.pow_le_pow_right (by omega) h64
    simp only [Bool.false_eq_true, false_and, if_false] at hvalue htype
    have hrange := v.ok
    unfold CConstValue.evalCast CConstValue.CastAgrees castAsUint
    rw [if_neg Bool.false_ne_true, if_neg Bool.false_ne_true, if_neg (by omega)]
    cases hv : v.type with
    | int64 | uint64 =>
      -- 64 bits hold what the mask leaves
      refine ⟨u, _, hcast, rfl, ?_⟩
      have hsame : (Val.of uint64 (v.value % (Nat.pow 2 width : ℕ))).value = u.value := by
        rw [hvalue]
        exact Val.of_value (inRange_uint64.2 ⟨hlow, by omega⟩)
      rw [same_iff, htype]
      simp only [hsame, true_and, Val.of_type, is32Bit, Bool.false_eq_true, false_and, false_implies, false_iff,
        not_not]
      by_cases h32 : 32 < width
      · simp [h32]
      · simp [h32]
    | int32 | uint32 =>
      refine ⟨u, _, hcast, rfl, ?_⟩
      rw [hv] at hrange
      simp only [inRange_int32, inRange_uint32] at hrange
      rw [same_iff, htype, hvalue]
      simp only [Val.of_type, is32Bit, true_and, true_iff]
      by_cases h32 : 32 < width
      · have hpow32 : 2 ^ 33 ≤ Nat.pow 2 width := Nat.pow_le_pow_right (by omega) (by omega)
        have hwrap := (Val.of uint32 (v.value % (Nat.pow 2 width : ℕ))).ok
        rw [Val.of_type, inRange_uint32] at hwrap
        have hback : (Val.of uint32 (v.value % (Nat.pow 2 width : ℕ))).value = v.value % (Nat.pow 2 width : ℕ) ↔
            0 ≤ v.value := by
          constructor
          · intro h
            rw [h] at hwrap
            by_cases hneg : v.value < 0
            · have hmod : v.value % (Nat.pow 2 width : ℕ) = v.value + (Nat.pow 2 width : ℕ) := by
                rw [← Int.add_emod_right]
                exact Int.emod_eq_of_lt (by omega) (by omega)
              omega
            · omega
          · intro h
            have hmod : v.value % (Nat.pow 2 width : ℕ) = v.value := Int.emod_eq_of_lt h (by omega)
            rw [hmod]
            exact Val.of_value (inRange_uint32.2 ⟨h, by omega⟩)
        rw [hback]
        simp [h32]
      · have hpow32 : Nat.pow 2 width ≤ 2 ^ 32 := Nat.pow_le_pow_right (by omega) (by omega)
        have hsame : (Val.of uint32 (v.value % (Nat.pow 2 width : ℕ))).value = v.value % (Nat.pow 2 width : ℕ) :=
          Val.of_value (inRange_uint32.2 ⟨hlow, by omega⟩)
        rw [hsame]
        simp [h32]

/-! ## The two evaluators -/

/-- The result of the operator has the type of its operand. -/
def UnOp.keepsType : UnOp → Bool
  | unaryPlus | bang => true
  | unaryMinus | tilda => false

/-- The operator looks at no more than whether its operands are zero. -/
def BinOp.isLogical : BinOp → Bool
  | vbarVbar | ampersandAmpersand => true
  | _ => false

namespace Operand

section

variable (concat : CConstValue → CConstValue → CConstValue) (σ : Values)

/-- **Every cast in the tree gives the same** in both evaluators: in type and value where an operator can see the
type, and in value elsewhere. -/
def Agrees : Bool → Operand → Prop
  | _, const _ _ | _, var _ _ _ _ _ _ | _, comma _ _ _ => True
  | typed, unary op e₁ _ => Agrees (typed || !op.keepsType) e₁
  | _, binary op e₁ e₂ _ => Agrees (!op.isLogical) e₁ ∧ Agrees (!op.isLogical) e₂
  | typed, typeCast isSigned width e₂ _ =>
    Agrees true e₂ ∧ ∀ v, eval concat σ e₂ = some v → v.CastAgrees typed isSigned width
  | typed, question e₁ e₂ e₃ _ => Agrees false e₁ ∧ Agrees typed e₂ ∧ Agrees typed e₃

end

end Operand

theorem UnOp.eval_same {op : UnOp} {typed : Bool} {v v' u : CConstValue} (h : Same (typed || !op.keepsType) v v')
    (hu : op.eval v = some u) : ∃ u', op.eval v' = some u' ∧ Same typed u u' := by
  cases op with
  | unaryPlus =>
    rw [UnOp.keepsType, Bool.not_true, Bool.or_false] at h
    obtain rfl := Option.some.inj hu
    exact ⟨v', rfl, h⟩
  | bang =>
    rw [UnOp.keepsType, Bool.not_true, Bool.or_false] at h
    obtain rfl := Option.some.inj hu
    refine ⟨.ofBool v'.type v'.isZero, rfl, ?_⟩
    rw [same_iff] at h ⊢
    have hzero : v'.isZero = v.isZero := by
      unfold isZero
      rw [h.1]
    have hbool : ∀ t : EConstType, (Val.ofBool t v.isZero).value = if v.isZero then 1 else 0 := by
      intro t
      refine Val.of_value ?_
      cases t <;> cases v.isZero <;> decide
    rw [hzero, hbool, hbool]
    exact ⟨rfl, h.2⟩
  | unaryMinus | tilda =>
    rw [UnOp.keepsType, Bool.not_false, Bool.or_true] at h
    obtain rfl : v' = v := h
    exact ⟨u, hu, same_iff.2 ⟨rfl, fun _ => rfl⟩⟩

theorem BinOp.eval_same {op : BinOp} {l l' k k' : CConstValue} (hl : Same (!op.isLogical) l l')
    (hk : Same (!op.isLogical) k k') : op.eval l' k' = op.eval l k := by
  have hnonzero : ∀ {v v' : CConstValue}, v'.value = v.value → v'.nonzero = v.nonzero := by
    intro v v' h
    unfold nonzero
    rw [h]
  by_cases hop : op.isLogical = true
  · have hl' := hnonzero hl.value
    have hk' := hnonzero hk.value
    cases op with
    | vbarVbar | ampersandAmpersand =>
      unfold BinOp.eval
      simp only [hl', hk']
    | _ => cases hop
  · rw [Bool.not_eq_true] at hop
    rw [hop] at hl hk
    obtain rfl : l' = l := hl
    obtain rfl : k' = k := hk
    rfl

namespace Operand

variable {concat : CConstValue → CConstValue → CConstValue} {σ : Values} {n : ℕ} {e : Operand} {r : Folded}

theorem constValue_of_not_stuck {v : CConstValue} (h : e.constValue = some v) : ¬e.isConstCond := by
  intro hc
  obtain ⟨a, b, w, he⟩ := isConstCond_question hc
  rw [he] at h
  cases h

/-- **Folding a tree** whose casts agree leaves a constant, the value of the tree and what `EvalConstantExpr` finds. -/
theorem fold_agrees (constVar : String → Option CConstValue) (h : fold n e = .ok r) (hmsgs : r.msgs = [])
    (hleaves : ConstLeaves e) (hstuck : ¬Stuck e) {typed : Bool} (ha : Agrees concat σ typed e) :
    ∃ v w v', r.tree = const v w ∧ eval concat σ e = some v ∧ evalConstantExpr constVar e = .ok (some v') ∧
      Same typed v v' := by
  induction n generalizing e r typed with
  | zero => cases h
  | succ n ih =>
    cases e with
    | const v w =>
      obtain rfl := Except.ok.inj h
      exact ⟨v, w, v, rfl, rfl, rfl, same_iff.2 ⟨rfl, fun _ => rfl⟩⟩
    | var m mw sf ps is w => cases hleaves
    | comma e₁ e₂ w => cases hleaves
    | unary op e₁ w =>
      obtain ⟨r₁, h₁, h⟩ := bind_ok h
      split at h
      next hnone =>
        obtain rfl := Except.ok.inj h
        obtain ⟨v, w', v', ht, -⟩ := ih h₁ (msgs_keep hmsgs r₁ (.head _)) hleaves hstuck ha
        rw [ht] at hnone
        cases hnone
      next v hv =>
        obtain ⟨u, hu, rfl⟩ := orUndef_ok h
        obtain ⟨v₁, w', v', ht, heval, hrun, hsame⟩ := ih h₁ ((msgs_leaf hmsgs).2 r₁ (.head _)) hleaves hstuck ha
        rw [ht] at hv
        obtain rfl := Option.some.inj hv
        obtain ⟨u', hu', hsame'⟩ := op.eval_same hsame hu
        refine ⟨u, w, u', rfl, ?_, ?_, hsame'⟩
        · simp only [eval, heval, Option.bind_eq_bind, Option.bind_some, hu]
        · rw [evalConstantExpr, hrun]
          have hop : (orUndef (op.eval v')).map some = .ok (some u') := by rw [hu']; rfl
          exact hop
    | typeCast s width e₂ w =>
      obtain ⟨r₂, h₂, h⟩ := bind_ok h
      have hwidth : ¬64 < width := fun hlarge => hstuck (.inl hlarge)
      have hstuck₂ : ¬Stuck e₂ := fun hs => hstuck (.inr hs)
      split at h
      next hnone =>
        obtain rfl := Except.ok.inj h
        obtain ⟨v, w', v', ht, -⟩ := ih h₂ (msgs_keep hmsgs r₂ (.head _)) hleaves hstuck₂ ha.1
        rw [ht] at hnone
        cases hnone
      next v hv =>
        rw [if_neg hwidth] at h
        obtain ⟨u, hu, rfl⟩ := orUndef_ok h
        obtain ⟨v₁, w', v', ht, heval, hrun, hsame⟩ := ih h₂ ((msgs_leaf hmsgs).2 r₂ (.head _)) hleaves hstuck₂ ha.1
        rw [ht] at hv
        obtain rfl := Option.some.inj hv
        obtain rfl : v' = v₁ := hsame
        have hpos : 1 ≤ width := by
          unfold CConstValue.cast at hu
          split at hu
          · cases hu
          · omega
        obtain ⟨u₁, u', hcast, hcast', hiff⟩ := cast_same_iff typed s hpos (by omega) v'
        obtain rfl := Option.some.inj (hu.symm.trans hcast)
        refine ⟨u, w, u', rfl, ?_, ?_, hiff.2 (ha.2 v' heval)⟩
        · simp only [eval, heval, Option.bind_eq_bind, Option.bind_some, hu]
        · rw [evalConstantExpr, hrun]
          have hop : (orUndef (v'.evalCast s width)).map some = .ok (some u') := by rw [hcast']; rfl
          exact hop
    | question e₁ e₂ e₃ w =>
      obtain ⟨r₁, h₁, h⟩ := bind_ok h
      obtain ⟨r₂, h₂, h⟩ := bind_ok h
      obtain ⟨r₃, h₃, h⟩ := bind_ok h
      have hops : (∀ x ∈ [r₁, r₂, r₃], x.msgs = []) → ∃ c c' a a' b b', r₁.tree.constValue = some c ∧
          r₂.tree.constValue = some a ∧ r₃.tree.constValue = some b ∧ eval concat σ e₁ = some c ∧
          eval concat σ e₂ = some a ∧ eval concat σ e₃ = some b ∧ evalConstantExpr constVar e₁ = .ok (some c') ∧
          evalConstantExpr constVar e₂ = .ok (some a') ∧ evalConstantExpr constVar e₃ = .ok (some b') ∧
          Same false c c' ∧ Same typed a a' ∧ Same typed b b' := by
        intro hm
        obtain ⟨c, _, c', ht₁, he₁, hr₁, hs₁⟩ :=
          ih h₁ (hm r₁ (.head _)) hleaves.1 (fun hs => hstuck (.inl hs)) ha.1
        obtain ⟨a, _, a', ht₂, he₂, hr₂, hs₂⟩ :=
          ih h₂ (hm r₂ (.tail _ (.head _))) hleaves.2.1 (fun hs => hstuck (.inr (.inl hs))) ha.2.1
        obtain ⟨b, _, b', ht₃, he₃, hr₃, hs₃⟩ :=
          ih h₃ (hm r₃ (.tail _ (.tail _ (.head _)))) hleaves.2.2 (fun hs => hstuck (.inr (.inr hs))) ha.2.2
        exact ⟨c, c', a, a', b, b', by rw [ht₁]; rfl, by rw [ht₂]; rfl, by rw [ht₃]; rfl, he₁, he₂, he₃, hr₁, hr₂, hr₃,
          hs₁, hs₂, hs₃⟩
      split at h
      next c a b hc ha' hb =>
        obtain rfl := Except.ok.inj h
        obtain ⟨c₁, c', a₁, a', b₁, b', ht₁, ht₂, ht₃, he₁, he₂, he₃, hr₁, hr₂, hr₃, hs₁, hs₂, hs₃⟩ :=
          hops (msgs_leaf hmsgs).2
        obtain rfl := Option.some.inj (hc.symm.trans ht₁)
        obtain rfl := Option.some.inj (ha'.symm.trans ht₂)
        obtain rfl := Option.some.inj (hb.symm.trans ht₃)
        have hcond : c'.nonzero = c.nonzero := by
          have hvalue : c'.value = c.value := hs₁
          unfold nonzero
          rw [hvalue]
        refine ⟨_, w, if c'.nonzero then a' else b', rfl, ?_, ?_, ?_⟩
        · simp only [eval, he₁, he₂, he₃, Option.bind_eq_bind, Option.bind_some]
          split <;> rfl
        · simp only [evalConstantExpr, hr₁, hr₂, hr₃]
          rfl
        · rw [hcond]
          split
          · exact hs₂
          · exact hs₃
      next hnot =>
        obtain rfl := Except.ok.inj h
        obtain ⟨c, -, a, -, b, -, ht₁, ht₂, ht₃, -⟩ := hops (msgs_keep hmsgs)
        exact absurd ht₃ (hnot c a b ht₁ ht₂)
    | binary op e₁ e₂ w =>
      obtain ⟨r₁, r₂, h₁, h₂, hcases⟩ := fold_binary_cases h
      have hops : r₁.msgs = [] → r₂.msgs = [] → ∃ l l' k k', r₁.tree.constValue = some l ∧
          r₂.tree.constValue = some k ∧ eval concat σ e₁ = some l ∧ eval concat σ e₂ = some k ∧
          evalConstantExpr constVar e₁ = .ok (some l') ∧ evalConstantExpr constVar e₂ = .ok (some k') ∧
          op.eval l' k' = op.eval l k := by
        intro hm₁ hm₂
        obtain ⟨l, _, l', ht₁, he₁, hr₁, hs₁⟩ := ih h₁ hm₁ hleaves.1 (fun hs => hstuck (.inl hs)) ha.1
        obtain ⟨k, _, k', ht₂, he₂, hr₂, hs₂⟩ := ih h₂ hm₂ hleaves.2 (fun hs => hstuck (.inr hs)) ha.2
        exact ⟨l, l', k, k', by rw [ht₁]; rfl, by rw [ht₂]; rfl, he₁, he₂, hr₁, hr₂, BinOp.eval_same hs₁ hs₂⟩
      obtain ⟨hc₁, hc₂, -, -, hm, -⟩ | ⟨k, kw, t, hk, hc, -, rfl⟩ | ⟨k, kw, t, hk, hc, -, rfl⟩ | hb := hcases
      · obtain ⟨hm₁, hm₂⟩ := List.append_eq_nil_iff.1 (hm.symm.trans hmsgs)
        obtain ⟨l, -, k, -, ht₁, -⟩ := hops hm₁ hm₂
        exact absurd hc₁ (constValue_of_not_stuck ht₁)
      · have hm := msgs_keep hmsgs
        obtain ⟨l, -, k, -, -, ht₂, -⟩ := hops (hm r₁ (.head _)) (hm r₂ (.tail _ (.head _)))
        exact absurd hc (constValue_of_not_stuck ht₂)
      · have hm := msgs_keep hmsgs
        obtain ⟨l, -, k, -, ht₁, -⟩ := hops (hm r₁ (.head _)) (hm r₂ (.tail _ (.head _)))
        exact absurd hc (constValue_of_not_stuck ht₁)
      · obtain ⟨msgs, hne, rfl⟩ | ⟨l, k, v, hl, hk, hv, rfl⟩ | rfl := foldBinary_cases hb
        · exact absurd (msgs_leaf hmsgs).1 hne
        · have hm := (msgs_leaf hmsgs).2
          obtain ⟨l₁, l', k₁, k', ht₁, ht₂, he₁, he₂, hr₁, hr₂, hsame⟩ :=
            hops (hm r₁ (.head _)) (hm r₂ (.tail _ (.head _)))
          obtain rfl := Option.some.inj (hl.symm.trans ht₁)
          obtain rfl := Option.some.inj (hk.symm.trans ht₂)
          refine ⟨v, w, v, rfl, ?_, ?_, same_iff.2 ⟨rfl, fun _ => rfl⟩⟩
          · rw [eval_binary, he₁, he₂]
            exact hv
          · rw [hv] at hsame
            simp only [evalConstantExpr, hr₁, hr₂]
            exact congrArg (fun o => (orUndef o).map some) hsame
        · -- both operands are constants, so the operator is folded
          have hm := msgs_keep hmsgs
          obtain ⟨l, -, k, -, ht₁, ht₂, -⟩ := hops (hm r₁ (.head _)) (hm r₂ (.tail _ (.head _)))
          unfold foldBinary at hb
          dsimp only at hb
          split at hb
          next => cases hb
          next =>
            rw [ht₁, ht₂] at hb
            obtain ⟨v, -, hleaf⟩ := orUndef_ok hb
            cases hleaf

/-- **The evaluators agree** on a tree over constants whose casts agree: where `FoldConstantExpr` leaves a constant
and prints nothing, `EvalConstantExpr` returns true with the same number. -/
theorem eval_constant_expr_agrees (constVar : String → Option CConstValue) (hleaves : ConstLeaves e)
    (ha : Agrees concat σ false e) {v : CConstValue} (h : foldConstantExpr e = .ok r) (hmsgs : r.msgs = [])
    (hv : r.tree.constValue = some v) :
    ∃ v', evalConstantExpr constVar e = .ok (some v') ∧ v'.value = v.value := by
  have hstuck : ¬Stuck e := by
    intro hs
    cases hv.symm.trans (fold_stuck h hmsgs hs).constValue
  obtain ⟨v₁, w, v', ht, -, hrun, hsame⟩ := fold_agrees constVar h hmsgs hleaves hstuck ha
  rw [ht] at hv
  obtain rfl := Option.some.inj hv
  exact ⟨v', hrun, hsame.value⟩

/-- `(T)i`, with `int8_t` or `uint8_t` for `T`. -/
def castOf (isSigned : Bool) (i : Int) : Operand := typeCast isSigned 8 (literal i) 8

/-- `(uint8_t)200 + 1` is 201 for both. -/
theorem eval_constant_expr_agrees_sum :
    ∃ v', evalConstantExpr (fun _ => none) (binary .plus (castOf false 200) (literal 1) 32) = .ok (some v') ∧
      v'.value = 201 := by
  have hok : ∃ r v, foldConstantExpr (binary .plus (castOf false 200) (literal 1) 32) = .ok r ∧ r.msgs = [] ∧
      r.tree.constValue = some v ∧ v.value = 201 := ⟨_, _, rfl, rfl, rfl, by decide⟩
  obtain ⟨r, v, hr, hmsgs, hv, h201⟩ := hok
  have hcast : ∀ u, eval (fun l _ => l) onlyA (literal 200) = some u → u.CastAgrees true false 8 := by
    intro u hu
    obtain rfl := Option.some.inj hu
    unfold CastAgrees
    decide
  have hleaves : ConstLeaves (binary .plus (castOf false 200) (literal 1) 32) := ⟨trivial, trivial⟩
  have hagrees : Agrees (fun l _ => l) onlyA false (binary .plus (castOf false 200) (literal 1) 32) :=
    ⟨⟨trivial, hcast⟩, trivial⟩
  obtain ⟨v', hrun, hvalue⟩ := eval_constant_expr_agrees (fun _ => none) hleaves hagrees hr hmsgs hv
  exact ⟨v', hrun, hvalue.trans h201⟩

/-- `(int8_t)200` is -56 for `FoldConstantExpr` and 200 for `EvalConstantExpr`. -/
theorem signed_cast_differs :
    ¬∀ (e : Operand) (r : Folded) (v : CConstValue), ConstLeaves e → foldConstantExpr e = .ok r → r.msgs = [] →
      r.tree.constValue = some v →
        ∃ v', evalConstantExpr (fun _ => none) e = .ok (some v') ∧ v'.value = v.value := by
  intro h
  obtain ⟨v', hrun, hvalue⟩ := h (castOf true 200) _ _ trivial rfl rfl rfl
  obtain rfl := Option.some.inj (Except.ok.inj hrun)
  revert hvalue
  decide

end Operand

end OpenHT.Htfe
