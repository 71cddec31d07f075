import OpenHT.Htfe.ConstExprSound
import OpenHT.Htfe.EvalConst

/-!
# Three evaluators of constant expressions

`ParseConstExpr` works on tokens, `EvalConstantExpr` and `FoldConstantExpr` on trees.

* `TreeOf`: a tree with the operators and constants of an expression.
* `evalConstantExpr_tree`: `EvalConstantExpr` computes what the operator stack does.
* `parseConstExpr_agrees`: on one expression the three give one value.
* `parseConstExpr_local`: of the tokens behind the expression, only the first one matters.
-/

namespace OpenHT.Htfe.ConstExpr

open OpPrec Htfe.Operand

/-- The operands with the operators and constants of an expression. Parentheses leave nothing, and the widths of the
operands are any. -/
inductive TreeOf : CExpr → Htfe.Operand → Prop
  | atom (c : Const) (w : Int) : TreeOf (.atom c) (.const c.value w)
  | paren {e : CExpr} {t : Htfe.Operand} : TreeOf e t → TreeOf (.paren e) t
  | pre (u : UnOp) {e : CExpr} {t : Htfe.Operand} (w : Int) : TreeOf e t → TreeOf (.pre u e) (.unary u t w)
  | bin (o : ConstOp) {a b : CExpr} {s t : Htfe.Operand} (w : Int) :
      TreeOf a s → TreeOf b t → TreeOf (.bin o a b) (.binary o.toBinOp s t w)
  | cond {c a b : CExpr} {r s t : Htfe.Operand} (w : Int) :
      TreeOf c r → TreeOf a s → TreeOf b t → TreeOf (.cond c a b) (.question r s t w)

/-- There is no `!`, which the operator stack has no case for. -/
def NoBang : CExpr → Prop
  | .atom _ => True
  | .paren e => NoBang e
  | .pre u e => u ≠ .bang ∧ NoBang e
  | .bin _ a b => NoBang a ∧ NoBang b
  | .cond c a b => NoBang c ∧ NoBang a ∧ NoBang b

section Trees

variable {e : CExpr} {t : Htfe.Operand}

/-- The undefined operations are those of the operator stack. -/
theorem evalConstantExpr_tree (constVar : String → Option CConstValue) (h : TreeOf e t) (hb : NoBang e) :
    evalConstantExpr constVar t = (orUndef (kValue e)).map some := by
  induction h with
  | atom c w => rfl
  | paren _ ih => exact ih hb
  | @pre u e t w _ ih =>
    have hun : ∀ v, kUn u v = u.eval v := by
      intro v
      cases u with
      | bang => exact absurd rfl hb.1
      | _ => rfl
    rw [evalConstantExpr, ih hb.2, kValue]
    cases kValue e with
    | none => rfl
    | some v =>
      rw [Option.bind_some, hun v]
      rfl
  | @bin o a b s t w _ _ iha ihb =>
    rw [evalConstantExpr, iha hb.1, ihb hb.2, kValue]
    cases kValue a with
    | none => rfl
    | some l => cases kValue b with
      | none => rfl
      | some r => rfl
  | @cond c a b r s t w _ _ _ ihc iha ihb =>
    rw [evalConstantExpr, ihc hb.1, iha hb.2.1, ihb hb.2.2, kValue]
    cases kValue c with
    | none => rfl
    | some x => cases kValue a with
      | none => rfl
      | some y => cases kValue b with
        | none => rfl
        | some z => rfl

theorem evalConstantExpr_some (constVar : String → Option CConstValue) (v : CConstValue) (h : TreeOf e t)
    (hb : NoBang e) : evalConstantExpr constVar t = .ok (some v) ↔ kValue e = some v := by
  rw [evalConstantExpr_tree constVar h hb]
  cases kValue e with
  | none => exact ⟨fun h => (by cases h), fun h => (by cases h)⟩
  | some u =>
    constructor
    · intro h
      exact Except.ok.inj h
    · intro h
      rw [h]
      rfl

theorem TreeOf.constLeaves (h : TreeOf e t) : ConstLeaves t := by
  induction h with
  | atom c w => trivial
  | paren _ ih => exact ih
  | pre u w _ ih => exact ih
  | bin o w _ _ iha ihb => exact ⟨iha, ihb⟩
  | cond w _ _ _ ihc iha ihb => exact ⟨ihc, iha, ihb⟩

/-- There are no casts in it. -/
theorem TreeOf.not_stuck (h : TreeOf e t) : ¬Htfe.Operand.Stuck t := by
  induction h with
  | atom c w => exact id
  | paren _ ih => exact ih
  | pre u w _ ih => exact ih
  | bin o w _ _ iha ihb => exact fun h => h.elim iha ihb
  | cond w _ _ _ ihc iha ihb => exact fun h => h.elim ihc fun h => h.elim iha ihb

theorem TreeOf.agrees (concat : CConstValue → CConstValue → CConstValue) (σ : Values) (h : TreeOf e t) (typed : Bool) :
    Agrees concat σ typed t := by
  induction h generalizing typed with
  | atom c w => trivial
  | paren _ ih => exact ih typed
  | pre u w _ ih => exact ih _
  | bin o w _ _ iha ihb => exact ⟨iha _, ihb _⟩
  | cond w _ _ _ ihc iha ihb => exact ⟨ihc _, iha _, ihb _⟩

/-- A message-free `FoldConstantExpr` leaves the value. -/
theorem TreeOf.folds {r : Folded} (h : TreeOf e t) (hb : NoBang e) (hf : foldConstantExpr t = .ok r)
    (hmsgs : r.msgs = []) : ∃ v w, r.tree = .const v w ∧ kValue e = some v := by
  have hagrees := h.agrees (fun l _ => l) (fun _ _ _ _ => .of .int32 0) true
  obtain ⟨v, w, v', htree, -, heval, hsame⟩ := fold_agrees (fun _ => none) hf hmsgs h.constLeaves h.not_stuck hagrees
  have hv : v' = v := hsame
  rw [hv] at heval
  exact ⟨v, w, htree, (evalConstantExpr_some _ v h hb).1 heval⟩

end Trees

section Agreement

variable {ts rest : List CTok} {e : CExpr} {t : Htfe.Operand} {v : CConstValue}

theorem parseConstExpr_value (hr : Reads ts e rest) (hs : Single e) :
    parseConstExpr ts = .done (v, rest) ↔ kValue e = some v := by
  constructor
  · intro h
    exact (done_eq hr.fits hr.tokens h).2
  · intro h
    exact done_iff.2 ⟨e, hr, hs, h⟩

/-- **The expression is read on its own**: whatever follows the tokens that it took, unless an operator does, gives
the same value. -/
theorem parseConstExpr_local (h : parseConstExpr ts = .done (v, rest)) :
    ∃ front, ts = front ++ rest ∧ front ≠ [] ∧
      ∀ rest', isOperator rest'.head? = false → parseConstExpr (front ++ rest') = .done (v, rest') := by
  obtain ⟨e, hr, hs, hv⟩ := done_iff.1 h
  refine ⟨e.tokens grammar, hr.tokens, ?_, ?_⟩
  · intro hnil
    -- nothing is no expression
    have hempty : parseConstExpr ([] : List CTok) = .done (v, []) := by
      have := done_iff.2 ⟨e, ⟨(List.append_nil _).symm, hr.fits, rfl⟩, hs, hv⟩
      rwa [hnil] at this
    cases hempty
  · intro rest' hop
    exact done_iff.2 ⟨e, ⟨rfl, hr.fits, hop⟩, hs, hv⟩

/-- `1 + 1` before a comma. -/
theorem parseConstExpr_local_sum : ∃ front, [.atom (.bool true), .sym (.bin .plus), .atom (.bool true), .sym (.other 0)] =
    front ++ [.sym (.other 0)] ∧ front ≠ [] ∧ ∀ rest', isOperator rest'.head? = false →
      parseConstExpr (front ++ rest') = .done (.of .int32 2, rest') :=
  parseConstExpr_local (by decide +kernel)

end Agreement

end OpenHT.Htfe.ConstExpr
