import OpenHT.Htfe.ConstExpr

/-!
# The values of constant expressions

What C says about the value of a constant expression, and what the operators of `CConstValue` make of it.

* `grammar`: the prefix and binary operators with the precedences of `GetTokenPrec`.
* `cValue`: the value in C, with its type; `none` where a subexpression is undefined or not within its type.
* `kValue`: the value under the operators of `CConstValue`, where `ParseEvalConstExpr` has no case for `!`.
* `Typed`: no operator mixes `int64_t` with `uint32_t`, and every `?:` takes a branch of the common type.
* `kValue_eq`, `typed_of_parts`: the two agree on an expression and its parts just if it is so typed.
-/

namespace OpenHT.Htfe.ConstExpr

open OpPrec CInt CInt.IntType CConstValue

/-- The token of a prefix operator. -/
def preSym : UnOp → EToken
  | .unaryPlus => .bin .plus
  | .unaryMinus => .bin .minus
  | .tilda => .tilda
  | .bang => .bang

def asPre : EToken → Option UnOp
  | .bin .plus => some .unaryPlus
  | .bin .minus => some .unaryMinus
  | .tilda => some .tilda
  | .bang => some .bang
  | _ => none

def asBin : EToken → Option ConstOp
  | .bin o => some o
  | _ => none

theorem three_lt_fourteen : 3 < 14 := by decide

/-- The constant expressions of C over these operators. -/
def grammar : Grammar UnOp ConstOp EToken where
  preSym := preSym
  binSym := .bin
  asPre := asPre
  asBin := asBin
  asPre_preSym u := by cases u <;> rfl
  asBin_binSym _ := rfl
  prec := ConstOp.prec
  preLevel := 3
  condLevel := 14
  leftAssoc := true
  preLevel_lt o := by cases o <;> decide
  lt_condLevel o := by cases o <;> decide
  preLevel_lt_condLevel := three_lt_fourteen

abbrev CExpr := Expr Const UnOp ConstOp

/-! ## The operators of C -/

/-- `!` of C is an `int`. -/
def cUn : UnOp → CConstValue → Option CConstValue
  | .bang, v => some (.ofBool int32 v.isZero)
  | u, v => u.eval v

/-- An operator on the operands after the usual arithmetic conversions, with their type. -/
def usualArith (f : Int → Int → Option Int) (l r : CConstValue) : Option CConstValue := do
  let t := usual l.type r.type
  let x ← f (t.wrap l.value) (t.wrap r.value)
  checked t x

def usualBits (f : ℕ → ℕ → ℕ) (l r : CConstValue) : Option CConstValue :=
  let t := usual l.type r.type
  some (.of t (t.wrap (f (bits (t.wrap l.value)) (bits (t.wrap r.value)))))

def cBin (o : ConstOp) (l r : CConstValue) : Option CConstValue :=
  match o with
  | .plus => usualArith (fun x y => some (x + y)) l r
  | .minus => usualArith (fun x y => some (x - y)) l r
  | .asterisk => usualArith (fun x y => some (x * y)) l r
  | .slash => usualArith (fun x y => if y = 0 then none else some (x.tdiv y)) l r
  | .percent => usualArith (fun x y => if y = 0 then none else some (x.tmod y)) l r
  | .vbar => usualBits (· ||| ·) l r
  | .carot => usualBits (· ^^^ ·) l r
  | .ampersand => usualBits (· &&& ·) l r
  -- a shift has the type of its left operand
  | .lessLess => o.toBinOp.eval l r
  | .greaterGreater => o.toBinOp.eval l r

attribute [local simp] cBin

/-- `?:` converts the branch that is taken to the common type. -/
def cCond (c a b : CConstValue) : CConstValue :=
  .of (usual a.type b.type) (if c.nonzero then a.value else b.value)

/-- The value of an expression all of whose subexpressions have one. -/
def cValue : CExpr → Option CConstValue
  | .atom c => some c.value
  | .paren e => cValue e
  | .pre u e => (cValue e).bind (cUn u)
  | .bin o a b => (cValue a).bind fun x => (cValue b).bind fun y => cBin o x y
  | .cond c a b => (cValue c).bind fun x => (cValue a).bind fun y => (cValue b).bind fun z => some (cCond x y z)

/-- The value of the operator stack's operators. -/
def kUn : UnOp → CConstValue → Option CConstValue
  | .bang, _ => none
  | u, v => u.eval v

def kCond (c a b : CConstValue) : CConstValue := if c.nonzero then a else b

/-- The value under the operators of `CConstValue`. -/
def kValue : CExpr → Option CConstValue
  | .atom c => some c.value
  | .paren e => kValue e
  | .pre u e => (kValue e).bind (kUn u)
  | .bin o a b => (kValue a).bind fun x => (kValue b).bind fun y => o.toBinOp.eval x y
  | .cond c a b => (kValue c).bind fun x => (kValue a).bind fun y => (kValue b).bind fun z => some (kCond x y z)

/-- The type of an expression. -/
def cType : CExpr → IntType
  | .atom c => c.value.type
  | .paren e => cType e
  | .pre .bang _ => int32
  | .pre _ e => cType e
  | .bin .lessLess a _ | .bin .greaterGreater a _ => cType a
  | .bin _ a b => usual (cType a) (cType b)
  | .cond _ a b => usual (cType a) (cType b)

/-- An expression is a part of itself. -/
def parts : CExpr → List CExpr
  | .atom c => [.atom c]
  | .paren e => .paren e :: parts e
  | .pre u e => .pre u e :: parts e
  | .bin o a b => .bin o a b :: (parts a ++ parts b)
  | .cond c a b => .cond c a b :: (parts c ++ parts a ++ parts b)

/-- Operands of which C makes `int64_t` and `CConstValue` makes `uint64_t`. -/
def Mixed (s t : IntType) : Prop := s = int64 ∧ t = uint32 ∨ s = uint32 ∧ t = int64

instance (s t : IntType) : Decidable (Mixed s t) := inferInstanceAs (Decidable (_ ∨ _))

def ConstOp.IsShift (o : ConstOp) : Prop := o = .lessLess ∨ o = .greaterGreater

/-- There is no `!`, no operator besides a shift mixes `int64_t` with `uint32_t`, and the branch that `?:` takes has the
common type of both. -/
def Typed : CExpr → Prop
  | .atom _ => True
  | .paren e => Typed e
  | .pre u e => Typed e ∧ u ≠ .bang
  | .bin o a b => Typed a ∧ Typed b ∧ (o.IsShift ∨ ¬Mixed (cType a) (cType b))
  | .cond c a b => Typed c ∧ Typed a ∧ Typed b ∧
    ∀ x, cValue c = some x → (if x.nonzero then cType a else cType b) = usual (cType a) (cType b)

/-! ## The operators agree -/

section Operators

variable {o : ConstOp} {l r v x y z : CConstValue} {s t : IntType} {f : Int → Int → Option Int} {g : ℕ → ℕ → ℕ}

attribute [local simp] BinOp.eval

attribute [local simp] ConstOp.toBinOp

/-- `rsltType` is the common type but for `int64_t` next to `uint32_t`. -/
theorem rsltType_eq_iff (s t : IntType) : rsltType s t = usual s t ↔ ¬Mixed s t := by
  cases s <;> cases t <;> decide

theorem checked_type {x : Int} (h : checked t x = some v) : v.type = t := by
  unfold checked at h
  split at h
  · cases h
  · exact congrArg CInt.Val.type (Option.some.inj h).symm

theorem usualArith_type (h : usualArith f l r = some v) : v.type = usual l.type r.type := by
  obtain ⟨x, -, hx⟩ := Option.bind_eq_some_iff.1 h
  exact checked_type hx

theorem arith_eq (f : Int → Int → Option Int) (l r : CConstValue) :
    arith f l r = (usualArith f l r).map fun v => .of (rsltType l.type r.type) v.value := by
  unfold arith usualArith
  simp only [Option.bind_eq_bind, Option.pure_def]
  cases f _ _ with
  | none => rfl
  | some x =>
    rw [Option.bind_some, Option.bind_some]
    cases checked (usual l.type r.type) x <;> rfl

theorem arith_agrees (h : ¬Mixed l.type r.type) : arith f l r = usualArith f l r := by
  rw [arith_eq, (rsltType_eq_iff _ _).2 h]
  cases hv : usualArith f l r with
  | none => rfl
  | some v =>
    rw [Option.map_some, ← usualArith_type hv, CInt.Val.of_self]

theorem arith_mixed (hc : usualArith f l r = some v) (hk : arith f l r = some v) : ¬Mixed l.type r.type := by
  rw [arith_eq, hc, Option.map_some] at hk
  have htype : rsltType l.type r.type = v.type := congrArg CInt.Val.type (Option.some.inj hk)
  rw [usualArith_type hc] at htype
  exact (rsltType_eq_iff _ _).1 htype

theorem bitwise_agrees (h : ¬Mixed l.type r.type) : bitwise g l r = usualBits g l r := by
  unfold bitwise usualBits
  rw [(rsltType_eq_iff _ _).2 h]

theorem bitwise_mixed (hc : usualBits g l r = some v) (hk : bitwise g l r = some v) : ¬Mixed l.type r.type := by
  have hc := congrArg CInt.Val.type (Option.some.inj hc)
  have hk := congrArg CInt.Val.type (Option.some.inj hk)
  exact (rsltType_eq_iff _ _).1 (hk.trans hc.symm)

/-- **The operators of `CConstValue` are C's** but for mixed operands. -/
theorem eval_agrees (h : o.IsShift ∨ ¬Mixed l.type r.type) : o.toBinOp.eval l r = cBin o l r := by
  rcases h with (rfl | rfl) | h
  · rfl
  · rfl
  · cases o with
    | lessLess => rfl
    | greaterGreater => rfl
    | _ =>
      simp only [ConstOp.toBinOp, BinOp.eval, cBin]
      first | exact arith_agrees h | exact bitwise_agrees h

theorem eval_mixed (hc : cBin o l r = some v) (hk : o.toBinOp.eval l r = some v) :
    o.IsShift ∨ ¬Mixed l.type r.type := by
  cases o with
  | lessLess => exact Or.inl (Or.inl rfl)
  | greaterGreater => exact Or.inl (Or.inr rfl)
  | _ =>
    right
    simp only [ConstOp.toBinOp, BinOp.eval, cBin] at hc hk
    first | exact arith_mixed hc hk | exact bitwise_mixed hc hk

theorem shift_type {f : Int → ℕ → Option Int} (h : shift f l r = some v) : v.type = l.type := by
  unfold shift at h
  by_cases hr : r.value < 0 ∨ (if l.type.is32Bit then 32 else 64) ≤ r.value
  · rw [if_pos hr] at h
    cases h
  · rw [if_neg hr] at h
    obtain ⟨x, -, rfl⟩ := Option.map_eq_some_iff.1 h
    rfl

theorem usualBits_type (h : usualBits g l r = some v) : v.type = usual l.type r.type :=
  congrArg CInt.Val.type (Option.some.inj h).symm

end Operators

/-! ## The values of expressions -/

section Values

variable {e : CExpr} {v : CConstValue}

theorem cValue_bin {o : ConstOp} {a b : CExpr} (h : cValue (.bin o a b) = some v) :
    ∃ x y, cValue a = some x ∧ cValue b = some y ∧ cBin o x y = some v := by
  obtain ⟨x, hx, h⟩ := Option.bind_eq_some_iff.1 h
  obtain ⟨y, hy, h⟩ := Option.bind_eq_some_iff.1 h
  exact ⟨x, y, hx, hy, h⟩

theorem cValue_cond {c a b : CExpr} (h : cValue (.cond c a b) = some v) :
    ∃ x y z, cValue c = some x ∧ cValue a = some y ∧ cValue b = some z ∧ v = cCond x y z := by
  obtain ⟨x, hx, h⟩ := Option.bind_eq_some_iff.1 h
  obtain ⟨y, hy, h⟩ := Option.bind_eq_some_iff.1 h
  obtain ⟨z, hz, h⟩ := Option.bind_eq_some_iff.1 h
  exact ⟨x, y, z, hx, hy, hz, (Option.some.inj h).symm⟩

/-- The value has the type of the expression. -/
theorem cValue_type (e : CExpr) {v : CConstValue} (h : cValue e = some v) : v.type = cType e := by
  induction e generalizing v with
  | atom c => exact congrArg CInt.Val.type (Option.some.inj h).symm
  | paren e ih => exact ih h
  | pre u e ih =>
    obtain ⟨x, hx, h⟩ := Option.bind_eq_some_iff.1 h
    have htype := ih hx
    cases u with
    | unaryPlus => exact (congrArg CInt.Val.type (Option.some.inj h).symm).trans htype
    | unaryMinus => exact (checked_type h).trans htype
    | tilda => exact (congrArg CInt.Val.type (Option.some.inj h).symm).trans htype
    | bang => exact congrArg CInt.Val.type (Option.some.inj h).symm
  | bin o a b iha ihb =>
    obtain ⟨x, y, hx, hy, h⟩ := cValue_bin h
    have ha := iha hx
    have hb := ihb hy
    have husual : usual x.type y.type = usual (cType a) (cType b) := by rw [ha, hb]
    cases o with
    | lessLess =>
      simp only [cBin, ConstOp.toBinOp, BinOp.eval] at h
      exact (shift_type h).trans ha
    | greaterGreater =>
      simp only [cBin, ConstOp.toBinOp, BinOp.eval] at h
      exact (shift_type h).trans ha
    | _ =>
      simp only [cBin] at h
      first | exact (usualBits_type h).trans husual | exact (usualArith_type h).trans husual
  | cond c a b ihc iha ihb =>
    obtain ⟨x, y, z, -, hy, hz, rfl⟩ := cValue_cond h
    change usual y.type z.type = usual (cType a) (cType b)
    rw [iha hy, ihb hz]

/-- The branch that is taken keeps its value when it has the common type. -/
theorem cCond_eq_iff (x y z : CConstValue) :
    kCond x y z = cCond x y z ↔ (if x.nonzero then y.type else z.type) = usual y.type z.type := by
  unfold kCond cCond
  constructor
  · intro h
    have htype := congrArg CInt.Val.type h
    split at htype
    · rename_i hx
      rw [if_pos hx]
      exact htype
    · rename_i hx
      rw [if_neg hx]
      exact htype
  · intro h
    split
    · rename_i hx
      rw [if_pos hx] at h
      rw [← h, CInt.Val.of_self]
    · rename_i hx
      rw [if_neg hx] at h
      rw [← h, CInt.Val.of_self]

/-- **A typed expression has its C value** under the operators of `CConstValue`. -/
theorem kValue_eq (e : CExpr) (h : Typed e) : kValue e = cValue e := by
  induction e with
  | atom c => rfl
  | paren e ih => exact ih h
  | pre u e ih =>
    rw [kValue, cValue, ih h.1]
    cases u with
    | bang => exact absurd rfl h.2
    | _ => rfl
  | bin o a b iha ihb =>
    obtain ⟨ha, hb, ho⟩ := h
    rw [kValue, cValue, iha ha, ihb hb]
    cases hx : cValue a with
    | none => rfl
    | some x =>
      cases hy : cValue b with
      | none => rfl
      | some y =>
        rw [← cValue_type a hx, ← cValue_type b hy] at ho
        exact eval_agrees ho
  | cond c a b ihc iha ihb =>
    obtain ⟨hc, ha, hb, ht⟩ := h
    rw [kValue, cValue, ihc hc, iha ha, ihb hb]
    cases hx : cValue c with
    | none => rfl
    | some x =>
      cases hy : cValue a with
      | none => rfl
      | some y =>
        cases hz : cValue b with
        | none => rfl
        | some z =>
          have htype := ht x hx
          rw [← cValue_type a hy, ← cValue_type b hz] at htype
          exact congrArg some ((cCond_eq_iff x y z).2 htype)

theorem mem_parts_self (e : CExpr) : e ∈ parts e := by
  cases e <;> exact List.mem_cons_self

/-- An expression all of whose parts have the same value both ways is typed. -/
theorem typed_of_parts (e : CExpr) (h : ∀ s ∈ parts e, ∃ v, cValue s = some v ∧ kValue s = some v) : Typed e := by
  induction e with
  | atom c => trivial
  | paren e ih => exact ih fun s hs => h s (List.mem_cons_of_mem _ hs)
  | pre u e ih =>
    refine ⟨ih fun s hs => h s (List.mem_cons_of_mem _ hs), ?_⟩
    rintro rfl
    obtain ⟨v, -, hk⟩ := h (.pre .bang e) List.mem_cons_self
    obtain ⟨x, -, hx⟩ := Option.bind_eq_some_iff.1 hk
    cases hx
  | bin o a b iha ihb =>
    have ha : ∀ s ∈ parts a, _ := fun s hs => h s (List.mem_cons_of_mem _ (List.mem_append_left _ hs))
    have hb : ∀ s ∈ parts b, _ := fun s hs => h s (List.mem_cons_of_mem _ (List.mem_append_right _ hs))
    refine ⟨iha ha, ihb hb, ?_⟩
    obtain ⟨v, hc, hk⟩ := h (.bin o a b) List.mem_cons_self
    obtain ⟨x, hx, hkx⟩ := ha a (mem_parts_self a)
    obtain ⟨y, hy, hky⟩ := hb b (mem_parts_self b)
    rw [cValue, hx, hy] at hc
    rw [kValue, hkx, hky] at hk
    rw [← cValue_type a hx, ← cValue_type b hy]
    exact eval_mixed hc hk
  | cond c a b ihc iha ihb =>
    have hc : ∀ s ∈ parts c, _ := fun s hs =>
      h s (List.mem_cons_of_mem _ (List.mem_append_left _ (List.mem_append_left _ hs)))
    have ha : ∀ s ∈ parts a, _ := fun s hs =>
      h s (List.mem_cons_of_mem _ (List.mem_append_left _ (List.mem_append_right _ hs)))
    have hb : ∀ s ∈ parts b, _ := fun s hs => h s (List.mem_cons_of_mem _ (List.mem_append_right _ hs))
    refine ⟨ihc hc, iha ha, ihb hb, ?_⟩
    intro x₀ hx₀
    obtain ⟨v, hcv, hkv⟩ := h (.cond c a b) List.mem_cons_self
    obtain ⟨x, hx, hkx⟩ := hc c (mem_parts_self c)
    obtain ⟨y, hy, hky⟩ := ha a (mem_parts_self a)
    obtain ⟨z, hz, hkz⟩ := hb b (mem_parts_self b)
    obtain rfl := Option.some.inj (hx.symm.trans hx₀)
    rw [cValue, hx, hy, hz] at hcv
    rw [kValue, hkx, hky, hkz] at hkv
    rw [← cValue_type a hy, ← cValue_type b hz]
    exact (cCond_eq_iff x y z).1 (Option.some.inj (hkv.trans hcv.symm))

end Values

end OpenHT.Htfe.ConstExpr
