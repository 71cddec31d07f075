import OpenHT.Htl.CLex

/-!
# Constant expressions of C

The trees of the constant expressions and what C says about their values.

* `grammar`: the operators, left associative in C.
* `cValue`: the value, where `&&`, `||` and `?:` do not look at every operand.
* `Defined`: every part of the expression has a value that is an `int`.
* `strictValue`: the value of a parser that evaluates every operand, the same when all are defined.
-/

namespace OpenHT.Htl

open OpPrec

inductive UnOp
  | plus
  | minus
  | tilda
  | bang
deriving DecidableEq, Repr

/-- The token of a prefix operator. -/
def UnOp.sym : UnOp → EToken
  | .plus => .bin .plus
  | .minus => .bin .minus
  | .tilda => .tilda
  | .bang => .bang

def UnOp.ofSym : EToken → Option UnOp
  | .bin .plus => some .plus
  | .bin .minus => some .minus
  | .tilda => some .tilda
  | .bang => some .bang
  | _ => none

def BinOp.ofSym : EToken → Option BinOp
  | .bin o => some o
  | _ => none

/-- The grammar of constant expressions, with the precedences of `GetTokenPrec`. -/
def grammar (leftAssoc : Bool) : Grammar UnOp BinOp EToken where
  preSym := UnOp.sym
  binSym := .bin
  asPre := UnOp.ofSym
  asBin := BinOp.ofSym
  asPre_preSym u := by cases u <;> rfl
  asBin_binSym _ := rfl
  prec := BinOp.prec
  preLevel := 3
  condLevel := 14
  leftAssoc := leftAssoc
  preLevel_lt o := by cases o <;> decide
  lt_condLevel o := by cases o <;> decide
  preLevel_lt_condLevel := by decide

/-- The grammar of C. -/
abbrev cGrammar : Grammar UnOp BinOp EToken := grammar true

abbrev CExpr := Expr Atom UnOp BinOp

abbrev CFrame := Frame Atom UnOp BinOp

def UnOp.apply : UnOp → Int → Option Int
  | .plus, a => some a
  | .minus, a => checked (-a)
  | .tilda, a => some (-a - 1)
  | .bang, a => some (ofBool (a = 0))

/-- The value of a constant that is an `int`. -/
def Atom.value : Atom → Option Int
  | .num n _ => if n < 0x80000000 then some n else none
  | .ident _ => none

/-- The value of an expression, `none` where it is undefined or no `int`. -/
def cValue : CExpr → Option Int
  | .atom a => a.value
  | .paren e => cValue e
  | .pre u e => (cValue e).bind u.apply
  | .bin .ampersandAmpersand a b =>
    (cValue a).bind fun x => if x = 0 then some 0 else (cValue b).map fun y => ofBool (y ≠ 0)
  | .bin .vbarVbar a b =>
    (cValue a).bind fun x => if x ≠ 0 then some 1 else (cValue b).map fun y => ofBool (y ≠ 0)
  | .bin o a b => (cValue a).bind fun x => (cValue b).bind fun y => o.apply x y
  | .cond c a b => (cValue c).bind fun x => if x = 0 then cValue b else cValue a

attribute [local simp] cValue

/-- Every subexpression has a value. -/
def Defined : CExpr → Prop
  | .atom a => a.value.isSome
  | .paren e => Defined e
  | .pre u e => Defined e ∧ (cValue (.pre u e)).isSome
  | .bin o a b => Defined a ∧ Defined b ∧ (cValue (.bin o a b)).isSome
  | .cond c a b => Defined c ∧ Defined a ∧ Defined b

/-- The value when every operand is evaluated. -/
def strictValue : CExpr → Option Int
  | .atom a => a.value
  | .paren e => strictValue e
  | .pre u e => (strictValue e).bind u.apply
  | .bin o a b => (strictValue a).bind fun x => (strictValue b).bind fun y => o.apply x y
  | .cond c a b => (strictValue c).bind fun x => (strictValue a).bind fun y => (strictValue b).bind fun z =>
    some (if x = 0 then z else y)

theorem strictValue_bin {o : BinOp} {a b : CExpr} {v : Int} (h : strictValue (.bin o a b) = some v) :
    ∃ x y, strictValue a = some x ∧ strictValue b = some y ∧ o.apply x y = some v := by
  obtain ⟨x, hx, h⟩ := Option.bind_eq_some_iff.1 h
  obtain ⟨y, hy, h⟩ := Option.bind_eq_some_iff.1 h
  exact ⟨x, y, hx, hy, h⟩

theorem strictValue_cond {c a b : CExpr} {v : Int} (h : strictValue (.cond c a b) = some v) :
    ∃ x y z, strictValue c = some x ∧ strictValue a = some y ∧ strictValue b = some z ∧
      v = if x = 0 then z else y := by
  obtain ⟨x, hx, h⟩ := Option.bind_eq_some_iff.1 h
  obtain ⟨y, hy, h⟩ := Option.bind_eq_some_iff.1 h
  obtain ⟨z, hz, h⟩ := Option.bind_eq_some_iff.1 h
  exact ⟨x, y, z, hx, hy, hz, (Option.some.inj h).symm⟩

/-- Whether an operator looks at both operands makes no difference to a defined value. -/
theorem cValue_bin {o : BinOp} {a b : CExpr} {x y : Int} (ha : cValue a = some x) (hb : cValue b = some y) :
    cValue (.bin o a b) = o.apply x y := by
  cases o
  case ampersandAmpersand =>
    rw [cValue, ha, hb, Option.bind_some]
    by_cases hx : x = 0 <;> simp [hx, BinOp.apply, ofBool]
  case vbarVbar =>
    rw [cValue, ha, hb, Option.bind_some]
    by_cases hx : x = 0 <;> simp [hx, BinOp.apply, ofBool]
  all_goals
    rw [cValue, ha, hb, Option.bind_some, Option.bind_some]
    all_goals exact fun h => BinOp.noConfusion h

/-- **Evaluating every operand finds the value of C**, when it is defined. -/
theorem cValue_of_strictValue (e : CExpr) {v : Int} (h : strictValue e = some v) : cValue e = some v := by
  induction e generalizing v with
  | atom a => exact h
  | paren e ih => exact ih h
  | pre u e ih =>
    obtain ⟨x, hx, h⟩ := Option.bind_eq_some_iff.1 h
    rw [cValue, ih hx]
    exact h
  | bin o a b iha ihb =>
    obtain ⟨x, y, hx, hy, h⟩ := strictValue_bin h
    rw [cValue_bin (iha hx) (ihb hy), h]
  | cond c a b ihc iha ihb =>
    obtain ⟨x, y, z, hx, hy, hz, rfl⟩ := strictValue_cond h
    rw [cValue, ihc hx, Option.bind_some, iha hy, ihb hz]
    split <;> rfl

/-- Every operand of a defined expression can be evaluated. -/
theorem strictValue_of_defined (e : CExpr) (h : Defined e) : ∃ v, strictValue e = some v := by
  induction e with
  | atom a => exact Option.isSome_iff_exists.1 h
  | paren e ih => exact ih h
  | pre u e ih =>
    obtain ⟨x, hx⟩ := ih h.1
    obtain ⟨v, hv⟩ := Option.isSome_iff_exists.1 h.2
    rw [cValue, cValue_of_strictValue e hx] at hv
    refine ⟨v, ?_⟩
    rw [strictValue, hx]
    exact hv
  | bin o a b iha ihb =>
    obtain ⟨x, hx⟩ := iha h.1
    obtain ⟨y, hy⟩ := ihb h.2.1
    obtain ⟨v, hv⟩ := Option.isSome_iff_exists.1 h.2.2
    rw [cValue_bin (cValue_of_strictValue a hx) (cValue_of_strictValue b hy)] at hv
    refine ⟨v, ?_⟩
    rw [strictValue, hx, hy]
    exact hv
  | cond c a b ihc iha ihb =>
    obtain ⟨x, hx⟩ := ihc h.1
    obtain ⟨y, hy⟩ := iha h.2.1
    obtain ⟨z, hz⟩ := ihb h.2.2
    refine ⟨if x = 0 then z else y, ?_⟩
    rw [strictValue, hx, hy, hz]
    rfl

end OpenHT.Htl
