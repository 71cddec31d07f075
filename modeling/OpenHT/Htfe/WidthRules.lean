import OpenHT.Htfe.MinWidth
import Mathlib.Data.List.Nodup
import Mathlib.Data.List.Range
import Mathlib.Data.List.Perm.Subperm

/-!
# The width rules of switch statements

`CheckWidthRules` walks the statements of a function. In the list of a switch it collects the labels, compares each
with the width of the switch expression, and at the end their number with the number of values of that width.

* `Stmts`, `Exprs`: statement lists, and what the rules for expressions report.
* `checkWidthRules`: the walk. The shift of the last test is defined for widths below that of its type only.
* `Complete`, `Accepted`: what a switch, and a list, should be for no error.
* `check_isSome`, `check_nil_iff`: the walk, by induction on the list.
* `exact_check_iff`: when the walk reports exactly that.
-/

namespace OpenHT.Htfe.WidthRules

open CInt CInt.IntType CConstValue

/-- `CHtfeOperand`: a constant, or another expression. -/
inductive Operand (E : Type)
  | constValue (v : CConstValue)
  | other (e : E)

/-- A list of `CHtfeStatement`. -/
inductive Stmts (E : Type)
  | nil
  | compound (compound1 next : Stmts E)
  | assign (e : Operand E) (next : Stmts E)
  | ret (e : Option (Operand E)) (next : Stmts E)
  | ite (e : Operand E) (compound1 compound2 next : Stmts E)
  | switch (e : Operand E) (compound1 next : Stmts E)
  | case (e : Operand E) (compound1 next : Stmts E)
  | dflt (compound1 next : Stmts E)
  | null (next : Stmts E)
  | brk (next : Stmts E)

inductive Msg
  /-- A message of the rules for expressions. -/
  | expr (text : String)
  /-- "Can not convert negative constant to unsigned value" -/
  | negative
  /-- "Signed switch expression not supported" -/
  | signedSwitch
  /-- "case width (%d) greater than switch width (%d)" -/
  | caseWidth (caseWidth switchWidth : ℕ)
  /-- "duplicate case item (%d)" -/
  | duplicate (caseItem : Int)
  /-- "expected constant case expression" -/
  | notConstant
  /-- "Switch statement not fully specified" -/
  | notFullySpecified
deriving DecidableEq

/-- What the walk asks of expressions, and the width that a function returns. -/
structure Exprs (E : Type) where
  isTask : Operand E → Bool
  isSigned : Operand E → Bool
  getExpressionWidth : Operand E → ℕ
  setOpWidthAndSign : E → List Msg
  checkWidthRules : E → Bool → List Msg
  hierWidth : ℕ

variable {E : Type} (R : Exprs E)

/-- `CheckWidthRules` of an expression: a constant has no rule. -/
def checkExpr (e : Operand E) (bForceBoolean : Bool) : List Msg :=
  match e with
  | .constValue _ => []
  | .other e => R.checkWidthRules e bForceBoolean

/-- `SetExpressionWidth` -/
def setExpressionWidth (e : Operand E) (reqWidth : ℕ) (bForceBoolean : Bool) : ℕ × List Msg :=
  (if reqWidth = 0 then R.getExpressionWidth e else reqWidth,
    match e with
    | .constValue _ => []
    | .other e' => R.setOpWidthAndSign e' ++ checkExpr R e bForceBoolean)

/-- `ConvertToUnsigned` -/
def convertToUnsigned (v : CConstValue) : CConstValue × List Msg :=
  match v.type with
  | int64 => (.of uint64 (getSint64 v).value, if isNeg v then [.negative] else [])
  | int32 => (.of uint32 (getSint32 v).value, if isNeg v then [.negative] else [])
  | uint64 | uint32 => (v, [])

/-- `uint64 caseItem = GetSint64()` -/
def caseItem (v : CConstValue) : Int := uint64.wrap (getSint64 v).value

/-- A case of the walk without its statements: the messages and `caseItemList` after it. -/
def checkCase (e : Operand E) (switchWidth : ℕ) (caseItemList : List Int) : Option (List Msg × List Int) :=
  match e with
  | .constValue c =>
    let (v, negative) := convertToUnsigned c
    (getMinWidth v).map fun width =>
      ((setExpressionWidth R e switchWidth false).2 ++ negative ++
          (if width > switchWidth then [.caseWidth width switchWidth] else []) ++
          (if caseItem v ∈ caseItemList then [.duplicate (caseItem v)] else []),
        if caseItem v ∈ caseItemList then caseItemList else caseItemList ++ [caseItem v])
  | .other _ => some ((setExpressionWidth R e switchWidth false).2 ++ [.notConstant], caseItemList)

/-- `1u << switchWidth`: undefined from the width of `unsigned` on. -/
def shiftOne (switchWidth : ℕ) : Option ℕ := if switchWidth < 32 then some (Nat.pow 2 switchWidth) else none

/-- The test after the loop. -/
def checkEnd (switchWidth : ℕ) (caseItemList : List Int) (bDefaultSeen : Bool) : Option (List Msg) :=
  if 0 < switchWidth ∧ bDefaultSeen = false then
    (shiftOne switchWidth).map fun cnt => if caseItemList.length ≠ cnt then [.notFullySpecified] else []
  else some []

/-- Messages one after the other. -/
def andThen (x y : Option (List Msg)) : Option (List Msg) := x.bind fun a => y.map (a ++ ·)

/-- `CheckWidthRules` of a statement list: the messages; `none` is undefined behaviour. -/
def checkWidthRules : Stmts E → ℕ → List Int → Bool → Option (List Msg)
  | .nil, w, items, d => checkEnd w items d
  | .compound b l, w, items, d => andThen (checkWidthRules b 0 [] false) (checkWidthRules l w items d)
  | .assign e l, w, items, d =>
    andThen (some (if R.isTask e then checkExpr R e false else (setExpressionWidth R e 0 false).2))
      (checkWidthRules l w items d)
  | .ret e l, w, items, d =>
    andThen (some (match e with
      | some e => (setExpressionWidth R e R.hierWidth false).2
      | none => [])) (checkWidthRules l w items d)
  | .ite e a b l, w, items, d =>
    andThen (some (setExpressionWidth R e 0 true).2) <|
      andThen (checkWidthRules a 0 [] false) <| andThen (checkWidthRules b 0 [] false) (checkWidthRules l w items d)
  | .switch e b l, w, items, d =>
    andThen (some ((if R.isSigned e then [.signedSwitch] else []) ++ (setExpressionWidth R e 0 false).2)) <|
      andThen (checkWidthRules b (setExpressionWidth R e 0 false).1 [] false) (checkWidthRules l w items d)
  | .case e b l, w, items, d =>
    (checkCase R e w items).bind fun r =>
      andThen (some r.1) <| andThen (checkWidthRules b 0 [] false) (checkWidthRules l w r.2 d)
  | .dflt b l, w, items, _ => andThen (checkWidthRules b 0 [] false) (checkWidthRules l w items true)
  | .null l, w, items, d => checkWidthRules l w items d
  | .brk l, w, items, d => checkWidthRules l w items d

/-! ## What is asked of a list -/

/-- The values of the labels of a switch; `none` is a label that is not constant. -/
def Stmts.labels : Stmts E → List (Option Int)
  | .case (.constValue v) _ l => some v.value :: l.labels
  | .case (.other _) _ l => none :: l.labels
  | .dflt _ l => l.labels
  | _ => []

def Stmts.hasDefault : Stmts E → Bool
  | .case _ _ l => l.hasDefault
  | .dflt _ _ => true
  | _ => false

/-- Lists as the parser makes them: labels in the list of a switch, which has nothing else, and only there. -/
def Stmts.Wf : Bool → Stmts E → Prop
  | _, .nil => True
  | false, .compound b l => b.Wf false ∧ l.Wf false
  | false, .assign _ l | false, .ret _ l | false, .null l | false, .brk l => l.Wf false
  | false, .ite _ a b l => a.Wf false ∧ b.Wf false ∧ l.Wf false
  | false, .switch e b l => 1 ≤ R.getExpressionWidth e ∧ b.Wf true ∧ l.Wf false
  | true, .case _ b l | true, .dflt b l => b.Wf false ∧ l.Wf true
  | true, .compound .. | true, .assign .. | true, .ret .. | true, .ite .. | true, .switch .. | true, .null _
  | true, .brk _ | false, .case .. | false, .dflt .. => False

/-- **A switch is complete**: its labels are constant and distinct, each fits in the width of the expression, and
there is a default or every value of the expression has a label. -/
def Complete (switchWidth : ℕ) (b : Stmts E) : Prop :=
  ∃ vals : List Int, b.labels = vals.map some ∧ vals.Nodup ∧ (∀ v ∈ vals, 0 ≤ v ∧ v < Nat.pow 2 switchWidth) ∧
    (b.hasDefault = true ∨ ∀ n : ℕ, n < Nat.pow 2 switchWidth → (n : Int) ∈ vals)

/-- The expressions of a list have no errors, and its switches are unsigned and complete. -/
def Accepted : Stmts E → Prop
  | .nil => True
  | .compound b l => Accepted b ∧ Accepted l
  | .assign e l => (if R.isTask e then checkExpr R e false else (setExpressionWidth R e 0 false).2) = [] ∧ Accepted l
  | .ret e l => (∀ e', e = some e' → (setExpressionWidth R e' R.hierWidth false).2 = []) ∧ Accepted l
  | .ite e a b l => (setExpressionWidth R e 0 true).2 = [] ∧ Accepted a ∧ Accepted b ∧ Accepted l
  | .switch e b l =>
    R.isSigned e = false ∧ (setExpressionWidth R e 0 false).2 = [] ∧ Complete (R.getExpressionWidth e) b ∧
      Accepted b ∧ Accepted l
  | .case _ b l | .dflt b l => Accepted b ∧ Accepted l
  | .null l | .brk l => Accepted l

/-- Every switch of a list has a default or an expression of less than 32 bits. -/
def Defined : Stmts E → Prop
  | .nil => True
  | .compound b l | .case _ b l | .dflt b l => Defined b ∧ Defined l
  | .assign _ l | .ret _ l | .null l | .brk l => Defined l
  | .ite _ a b l => Defined a ∧ Defined b ∧ Defined l
  | .switch e b l => (b.hasDefault = true ∨ R.getExpressionWidth e < 32) ∧ Defined b ∧ Defined l

/-! ## Messages in a row -/

variable {x y : Option (List Msg)} {m : List Msg}

theorem andThen_isSome : (andThen x y).isSome ↔ x.isSome ∧ y.isSome := by
  cases x <;> cases y <;> simp [andThen]

theorem andThen_eq_some : andThen x y = some m ↔ ∃ a b, x = some a ∧ y = some b ∧ m = a ++ b := by
  cases x <;> cases y <;> simp [andThen, eq_comm]

/-- No message of two in a row. -/
theorem andThen_nil {p q : Prop} (h : andThen x y = some m) (hx : ∀ a, x = some a → (a = [] ↔ p))
    (hy : ∀ b, y = some b → (b = [] ↔ q)) : m = [] ↔ p ∧ q := by
  obtain ⟨a, b, ha, hb, rfl⟩ := andThen_eq_some.1 h
  rw [List.append_eq_nil_iff, hx a ha, hy b hb]

/-! ## One label -/

section Label

variable {v : CConstValue} {w : ℕ} {items : List Int}

theorem isNeg_eq (v : CConstValue) (h : v.type.isSigned = true) : isNeg v = decide (v.value < 0) := by
  have hrange := v.ok
  unfold isNeg
  cases htype : v.type with
  | uint32 | uint64 => rw [htype] at h; cases h
  | int32 => rw [getSint32_self htype]
  | int64 => rw [getSint64_self htype]

/-- **The conversion of a label** keeps the number, and reports a negative one. -/
theorem convertToUnsigned_eq (v : CConstValue) :
    (convertToUnsigned v).1.type.isSigned = false ∧ ((convertToUnsigned v).2 = [] ↔ 0 ≤ v.value) ∧
      (0 ≤ v.value → (convertToUnsigned v).1.value = v.value) := by
  have hrange := v.ok
  unfold convertToUnsigned
  cases htype : v.type with
  | uint32 | uint64 =>
    rw [htype] at hrange
    dsimp only
    rw [htype]
    exact ⟨rfl, iff_of_true rfl hrange.1, fun _ => rfl⟩
  | int32 =>
    rw [htype, inRange_int32] at hrange
    have hneg := isNeg_eq v (by rw [htype]; rfl)
    dsimp only
    rw [getSint32_self htype, hneg]
    refine ⟨rfl, ?_, fun h0 => Val.of_value (inRange_uint32.2 ⟨h0, by omega⟩)⟩
    by_cases h : v.value < 0
    · rw [if_pos (decide_eq_true h)]
      exact iff_of_false (List.cons_ne_nil _ _) (by omega)
    · rw [if_neg (by simpa using h)]
      exact iff_of_true rfl (by omega)
  | int64 =>
    rw [htype, inRange_int64] at hrange
    have hneg := isNeg_eq v (by rw [htype]; rfl)
    dsimp only
    rw [getSint64_self htype, hneg]
    refine ⟨rfl, ?_, fun h0 => Val.of_value (inRange_uint64.2 ⟨h0, by omega⟩)⟩
    by_cases h : v.value < 0
    · rw [if_pos (decide_eq_true h)]
      exact iff_of_false (List.cons_ne_nil _ _) (by omega)
    · rw [if_neg (by simpa using h)]
      exact iff_of_true rfl (by omega)

theorem caseItem_eq (h : v.type.isSigned = false) : caseItem v = v.value := by
  have hrange := v.ok
  have h64 : 0 ≤ v.value ∧ v.value < 18446744073709551616 := by
    cases htype : v.type with
    | uint32 =>
      rw [htype, inRange_uint32] at hrange
      omega
    | uint64 =>
      rw [htype, inRange_uint64] at hrange
      exact hrange
    | int32 | int64 => rw [htype] at h; cases h
  have hcard : uint64.card = 18446744073709551616 := rfl
  have hcard' : int64.card = 18446744073709551616 := rfl
  have hlo : uint64.lo = 0 := rfl
  have hlo' : int64.lo = -9223372036854775808 := rfl
  unfold caseItem getSint64
  change uint64.wrap (int64.wrap v.value) = v.value
  unfold wrap
  rw [hcard, hcard', hlo, hlo']
  omega

/-- **The width of a label** is within the switch's just if the value fits. -/
theorem getMinWidth_le (h : v.type.isSigned = false) (hw : 1 ≤ w) :
    ∃ width, getMinWidth v = some width ∧ (width > w ↔ ¬v.value < Nat.pow 2 w) := by
  refine ⟨_, getMinWidth_eq v, ?_⟩
  have hnonneg : 0 ≤ v.value := by
    rw [← caseItem_eq h]
    exact (wrap_inRange uint64 _).1
  have hmag : v.magnitude = v.value.toNat := by
    unfold magnitude
    rw [if_neg (by omega)]
  have hsize : v.value.toNat.size ≤ w ↔ v.value.toNat < Nat.pow 2 w := Nat.size_le
  rw [h, hmag]
  simp only [Bool.false_eq_true, if_false]
  omega

/-- **A label** is reported unless its value fits and is none of the items. Then it is one more item. -/
theorem checkCase_constValue (v : CConstValue) (items : List Int) (hw : 1 ≤ w) :
    ∃ m items', checkCase R (.constValue v) w items = some (m, items') ∧
      (m = [] ↔ (0 ≤ v.value ∧ v.value < Nat.pow 2 w) ∧ v.value ∉ items) ∧ (m = [] → items' = items ++ [v.value]) := by
  obtain ⟨hunsigned, hneg, hvalue⟩ := convertToUnsigned_eq v
  obtain ⟨width, hwidth, hle⟩ := getMinWidth_le hunsigned hw
  have hitem := caseItem_eq hunsigned
  unfold checkCase
  dsimp only
  rw [hwidth, hitem]
  refine ⟨_, _, rfl, ?_, ?_⟩
  · have hset : (setExpressionWidth R (.constValue v) w false).2 = [] := rfl
    rw [hset, List.nil_append, List.append_eq_nil_iff, List.append_eq_nil_iff, hneg, ite_eq_right_iff, ite_eq_right_iff]
    constructor
    · rintro ⟨⟨h0, hfit⟩, hnew⟩
      rw [hle, hvalue h0] at hfit
      rw [hvalue h0] at hnew
      exact ⟨⟨h0, not_not.1 fun h => List.cons_ne_nil _ _ (hfit h)⟩, fun h => List.cons_ne_nil _ _ (hnew h)⟩
    · rintro ⟨⟨h0, hlt⟩, hnew⟩
      rw [hle, hvalue h0]
      exact ⟨⟨h0, fun h => absurd hlt h⟩, fun h => absurd h hnew⟩
  · intro hnil
    rw [List.append_eq_nil_iff, List.append_eq_nil_iff, List.append_eq_nil_iff, hneg] at hnil
    obtain ⟨⟨⟨-, h0⟩, -⟩, hnew⟩ := hnil
    rw [hvalue h0] at hnew ⊢
    exact if_neg fun h => List.cons_ne_nil _ _ ((if_pos h).symm.trans hnew)

theorem checkCase_isSome (e : Operand E) (w : ℕ) (items : List Int) : (checkCase R e w items).isSome := by
  cases e with
  | constValue v =>
    unfold checkCase
    dsimp only
    rw [getMinWidth_eq]
    rfl
  | other e => rfl

end Label

/-! ## The walk -/

section Walk

variable {s : Stmts E} {w : ℕ} {items : List Int} {d : Bool}

/-- The shift after the loop is defined. -/
def EndDefined (inSwitch : Bool) (w : ℕ) (d : Bool) (s : Stmts E) : Prop :=
  inSwitch = true → d = true ∨ s.hasDefault = true ∨ w < 32

theorem endDefined_plain : EndDefined false w d s ↔ True := iff_of_true (fun h => Bool.noConfusion h) trivial

theorem plain : 1 ≤ 0 ↔ false = true := ⟨fun h => absurd h (by decide), fun h => Bool.noConfusion h⟩

/-- **The walk is defined** where every shift is. -/
theorem check_isSome {inSwitch : Bool} (hwf : s.Wf R inSwitch) (hw : 1 ≤ w ↔ inSwitch = true) :
    (checkWidthRules R s w items d).isSome ↔ Defined R s ∧ EndDefined inSwitch w d s := by
  induction s generalizing inSwitch w items d with
  | nil =>
    unfold checkWidthRules checkEnd shiftOne EndDefined Defined Stmts.hasDefault
    rw [← hw]
    by_cases hend : 0 < w ∧ d = false
    · have hd : d ≠ true := by simp [hend.2]
      rw [if_pos hend, Option.isSome_map]
      by_cases h32 : w < 32
      · rw [if_pos h32]
        exact iff_of_true rfl ⟨trivial, fun _ => Or.inr (Or.inr h32)⟩
      · rw [if_neg h32]
        refine iff_of_false Bool.noConfusion fun h => ?_
        rcases h.2 hend.1 with h | h | h
        · exact hd h
        · exact Bool.noConfusion h
        · exact h32 h
    · rw [if_neg hend]
      refine iff_of_true rfl ⟨trivial, fun hpos => Or.inl ?_⟩
      exact Bool.of_not_eq_false fun h => hend ⟨hpos, h⟩
  | case e b l ihb ihl =>
    cases inSwitch with
    | false => exact hwf.elim
    | true =>
      obtain ⟨r, hr⟩ := Option.isSome_iff_exists.1 (checkCase_isSome R e w items)
      have hdef : (Stmts.case e b l).hasDefault = l.hasDefault := by cases e <;> rfl
      have hend : EndDefined true w d (.case e b l) ↔ EndDefined true w d l := by
        unfold EndDefined
        rw [hdef]
      simp only [checkWidthRules, hr, Option.bind_some, andThen_isSome, Option.isSome_some, true_and, ihb hwf.1 plain,
        ihl hwf.2 hw, endDefined_plain, and_true, Defined, hend, and_assoc]
  | dflt b l ihb ihl =>
    cases inSwitch with
    | false => exact hwf.elim
    | true =>
      have hend : EndDefined true w true l ↔ True := iff_of_true (fun _ => Or.inl rfl) trivial
      have hend' : EndDefined true w d (.dflt b l) ↔ True := iff_of_true (fun _ => Or.inr (Or.inl rfl)) trivial
      simp only [checkWidthRules, andThen_isSome, ihb hwf.1 plain, ihl hwf.2 hw, endDefined_plain, and_true, Defined,
        hend, hend']
  | compound b l ihb ihl =>
    cases inSwitch with
    | true => exact hwf.elim
    | false =>
      simp only [checkWidthRules, andThen_isSome, ihb hwf.1 plain, ihl hwf.2 hw, endDefined_plain, and_true, Defined]
  | assign e l ihl | ret e l ihl =>
    cases inSwitch with
    | true => exact hwf.elim
    | false =>
      have hl : l.Wf R false := hwf
      simp only [checkWidthRules, andThen_isSome, Option.isSome_some, true_and, ihl hl hw, endDefined_plain, and_true,
        Defined]
  | ite e a b l iha ihb ihl =>
    cases inSwitch with
    | true => exact hwf.elim
    | false =>
      simp only [checkWidthRules, andThen_isSome, Option.isSome_some, true_and, iha hwf.1 plain, ihb hwf.2.1 plain,
        ihl hwf.2.2 hw, endDefined_plain, and_true, Defined]
  | switch e b l ihb ihl =>
    cases inSwitch with
    | true => exact hwf.elim
    | false =>
      have hwidth : 1 ≤ R.getExpressionWidth e ↔ true = true := iff_of_true hwf.1 rfl
      have hend : EndDefined true (R.getExpressionWidth e) false b ↔
          b.hasDefault = true ∨ R.getExpressionWidth e < 32 :=
        ⟨fun h => (h rfl).resolve_left Bool.noConfusion, fun h _ => Or.inr h⟩
      have hset : (setExpressionWidth R e 0 false).1 = R.getExpressionWidth e := rfl
      simp only [checkWidthRules, andThen_isSome, Option.isSome_some, true_and, hset, ihb hwf.2.1 hwidth,
        ihl hwf.2.2 hw, endDefined_plain, and_true, Defined, hend]
      rw [and_comm (a := Defined R b), and_assoc]
  | null l ihl | brk l ihl =>
    cases inSwitch with
    | true => exact hwf.elim
    | false =>
      have hl : l.Wf R false := hwf
      simp only [checkWidthRules, ihl hl hw, endDefined_plain, and_true, Defined]

/-- The labels of the rest of a switch, when `items` are those before it. -/
def LabelsOk (w : ℕ) (items : List Int) (d : Bool) (s : Stmts E) : Prop :=
  ∃ vals : List Int, s.labels = vals.map some ∧ vals.Nodup ∧
    (∀ v ∈ vals, (0 ≤ v ∧ v < Nat.pow 2 w) ∧ v ∉ items) ∧
    (d = true ∨ s.hasDefault = true ∨ items.length + vals.length = Nat.pow 2 w)

theorem labelsOk_nil : LabelsOk w items d (.nil : Stmts E) ↔ d = true ∨ items.length = Nat.pow 2 w := by
  constructor
  · rintro ⟨vals, hvals, -, -, h⟩
    obtain rfl : vals = [] := List.map_eq_nil_iff.1 hvals.symm
    rcases h with h | h | h
    · exact Or.inl h
    · exact Bool.noConfusion h
    · exact Or.inr h
  · intro h
    refine ⟨[], rfl, List.nodup_nil, fun v hv => absurd hv List.not_mem_nil, ?_⟩
    exact h.imp id Or.inr

theorem labelsOk_other {e : E} {b l : Stmts E} : ¬LabelsOk w items d (.case (.other e) b l) := by
  rintro ⟨vals, hvals, -⟩
  cases vals with
  | nil => cases hvals
  | cons v vals => cases (List.cons.inj hvals).1

theorem labelsOk_dflt {b l : Stmts E} : LabelsOk w items d (.dflt b l) ↔ LabelsOk w items true l := by
  constructor
  · rintro ⟨vals, hvals, hnd, hall, -⟩
    exact ⟨vals, hvals, hnd, hall, Or.inl rfl⟩
  · rintro ⟨vals, hvals, hnd, hall, -⟩
    exact ⟨vals, hvals, hnd, hall, Or.inr (Or.inl rfl)⟩

theorem labelsOk_constValue {v : CConstValue} {b l : Stmts E} : LabelsOk w items d (.case (.constValue v) b l) ↔
    ((0 ≤ v.value ∧ v.value < Nat.pow 2 w) ∧ v.value ∉ items) ∧ LabelsOk w (items ++ [v.value]) d l := by
  have hlen : ∀ vals : List Int, (items ++ [v.value]).length + vals.length = items.length + (v.value :: vals).length := by
    intro vals
    rw [List.length_append, List.length_singleton, List.length_cons]
    omega
  constructor
  · rintro ⟨vals, hvals, hnd, hall, hcnt⟩
    cases vals with
    | nil => cases hvals
    | cons x vals =>
      obtain ⟨hx, hrest⟩ := List.cons.inj hvals
      obtain rfl : v.value = x := Option.some.inj hx
      obtain ⟨hnew, hnd⟩ := List.nodup_cons.1 hnd
      refine ⟨hall _ List.mem_cons_self, vals, hrest, hnd, fun y hy => ?_, ?_⟩
      · obtain ⟨hfit, hold⟩ := hall y (List.mem_cons_of_mem _ hy)
        refine ⟨hfit, fun hmem => ?_⟩
        rcases List.mem_append.1 hmem with h | h
        · exact hold h
        · exact hnew (List.mem_singleton.1 h ▸ hy)
      · rw [hlen]
        exact hcnt
  · rintro ⟨hv, vals, hvals, hnd, hall, hcnt⟩
    refine ⟨v.value :: vals, congrArg (some v.value :: ·) hvals, List.nodup_cons.2 ⟨fun hmem => ?_, hnd⟩, ?_, ?_⟩
    · exact (hall _ hmem).2 (List.mem_append_right _ List.mem_cons_self)
    · intro y hy
      rcases List.mem_cons.1 hy with rfl | hy
      · exact hv
      · exact ⟨(hall y hy).1, fun h => (hall y hy).2 (List.mem_append_left _ h)⟩
    · rw [← hlen]
      exact hcnt

/-- **Distinct numbers** below a bound are as many as the bound just if they are all of them. -/
theorem length_eq_iff {k : ℕ} {vals : List Int} (hnd : vals.Nodup) (hall : ∀ v ∈ vals, 0 ≤ v ∧ v < k) :
    vals.length = k ↔ ∀ n : ℕ, n < k → (n : Int) ∈ vals := by
  have hrange : ((List.range k).map Int.ofNat).Nodup := List.nodup_range.map fun _ _ h => Int.ofNat.inj h
  have hsub : vals ⊆ (List.range k).map Int.ofNat := fun v hv => by
    obtain ⟨h0, hlt⟩ := hall v hv
    exact List.mem_map.2 ⟨v.toNat, List.mem_range.2 (by omega), Int.toNat_of_nonneg h0⟩
  have hlen : ((List.range k).map Int.ofNat).length = k := by rw [List.length_map, List.length_range]
  constructor
  · intro h n hn
    have hperm := (hnd.subperm hsub).perm_of_length_le (by omega)
    exact hperm.mem_iff.2 (List.mem_map.2 ⟨n, List.mem_range.2 hn, rfl⟩)
  · intro h
    have hle := (hnd.subperm hsub).length_le
    have hsub' : (List.range k).map Int.ofNat ⊆ vals := fun v hv => by
      obtain ⟨n, hn, rfl⟩ := List.mem_map.1 hv
      exact h n (List.mem_range.1 hn)
    have hge := (hrange.subperm hsub').length_le
    omega

theorem complete_iff : Complete w s ↔ LabelsOk w [] false s := by
  constructor
  · rintro ⟨vals, hvals, hnd, hall, hcnt⟩
    refine ⟨vals, hvals, hnd, fun v hv => ⟨hall v hv, List.not_mem_nil⟩, Or.inr (hcnt.imp id fun h => ?_)⟩
    exact (Nat.zero_add _).trans ((length_eq_iff hnd hall).2 h)
  · rintro ⟨vals, hvals, hnd, hall, hcnt⟩
    refine ⟨vals, hvals, hnd, fun v hv => (hall v hv).1, (hcnt.resolve_left Bool.noConfusion).imp id fun h => ?_⟩
    exact (length_eq_iff hnd fun v hv => (hall v hv).1).1 ((Nat.zero_add _).symm.trans h)

/-- **The walk reports nothing** just if the list is accepted, and its labels are in order where it is a switch's. -/
theorem check_nil_iff {inSwitch : Bool} {m : List Msg} (hwf : s.Wf R inSwitch) (hw : 1 ≤ w ↔ inSwitch = true)
    (h : checkWidthRules R s w items d = some m) :
    m = [] ↔ Accepted R s ∧ (inSwitch = true → LabelsOk w items d s) := by
  have hplain : ∀ {t : Stmts E} {w items d}, (false = true → LabelsOk w items d t) ↔ True :=
    iff_of_true (fun h => Bool.noConfusion h) trivial
  induction s generalizing inSwitch w items d m with
  | nil =>
    unfold checkWidthRules checkEnd shiftOne at h
    rw [← hw, labelsOk_nil]
    by_cases hend : 0 < w ∧ d = false
    · rw [if_pos hend] at h
      obtain ⟨cnt, hcnt, rfl⟩ := Option.map_eq_some_iff.1 h
      by_cases h32 : w < 32
      · rw [if_pos h32] at hcnt
        obtain rfl := Option.some.inj hcnt
        have hd : d ≠ true := by simp [hend.2]
        by_cases hlen : items.length ≠ Nat.pow 2 w
        · rw [if_pos hlen]
          refine iff_of_false (List.cons_ne_nil _ _) fun hok => ?_
          exact (hok.2 hend.1).elim hd hlen
        · rw [if_neg hlen]
          exact iff_of_true rfl ⟨trivial, fun _ => Or.inr (not_not.1 hlen)⟩
      · rw [if_neg h32] at hcnt
        cases hcnt
    · rw [if_neg hend] at h
      obtain rfl := Option.some.inj h
      refine iff_of_true rfl ⟨trivial, fun hpos => Or.inl ?_⟩
      exact Bool.of_not_eq_false fun hd => hend ⟨hpos, hd⟩
  | case e b l ihb ihl =>
    cases inSwitch with
    | false => exact hwf.elim
    | true =>
      obtain ⟨⟨r, items'⟩, hr, hseq⟩ := Option.bind_eq_some_iff.1 h
      have hrest : ∀ m', andThen (checkWidthRules R b 0 [] false) (checkWidthRules R l w items' d) = some m' →
          (m' = [] ↔ Accepted R b ∧ Accepted R l ∧ LabelsOk w items' d l) := by
        intro m' hm'
        refine andThen_nil hm' (fun a ha => ?_) fun a ha => ?_
        · exact (ihb hwf.1 plain ha).trans (by rw [hplain, and_true])
        · exact (ihl hwf.2 hw ha).trans (and_congr_right fun _ => ⟨fun h => h rfl, fun h _ => h⟩)
      cases e with
      | other e =>
        obtain ⟨rfl, rfl⟩ := Prod.mk.inj (Option.some.inj hr)
        obtain ⟨a, b', ha, -, rfl⟩ := andThen_eq_some.1 hseq
        obtain rfl := Option.some.inj ha
        refine iff_of_false (by simp) fun hok => labelsOk_other (hok.2 rfl)
      | constValue v =>
        obtain ⟨r', items'', hr', hnil, hitems⟩ := checkCase_constValue R v items (hw.2 rfl)
        obtain ⟨rfl, rfl⟩ := Prod.mk.inj (Option.some.inj (hr.symm.trans hr'))
        have hlabel : ∀ a, some r = some a →
            (a = [] ↔ (0 ≤ v.value ∧ v.value < Nat.pow 2 w) ∧ v.value ∉ items) := fun a ha => by
          rw [← Option.some.inj ha]
          exact hnil
        have hall := andThen_nil hseq hlabel hrest
        rw [hall, labelsOk_constValue]
        constructor
        · rintro ⟨hv, hb, hl, hok⟩
          rw [hitems (hnil.2 hv)] at hok
          exact ⟨⟨hb, hl⟩, fun _ => ⟨hv, hok⟩⟩
        · rintro ⟨⟨hb, hl⟩, hok⟩
          obtain ⟨hv, hok⟩ := hok rfl
          rw [← hitems (hnil.2 hv)] at hok
          exact ⟨hv, hb, hl, hok⟩
  | dflt b l ihb ihl =>
    cases inSwitch with
    | false => exact hwf.elim
    | true =>
      have hall := andThen_nil h (fun a ha => ihb hwf.1 plain ha) fun a ha => ihl hwf.2 hw ha
      rw [hall, hplain, and_true, labelsOk_dflt, Accepted, and_assoc]
  | compound b l ihb ihl =>
    cases inSwitch with
    | true => exact hwf.elim
    | false =>
      have hall := andThen_nil h (fun a ha => ihb hwf.1 plain ha) fun a ha => ihl hwf.2 hw ha
      rw [hall, hplain, hplain, hplain, and_true, and_true, and_true, Accepted]
  | assign e l ihl =>
    cases inSwitch with
    | true => exact hwf.elim
    | false =>
      have hl : l.Wf R false := hwf
      have hall := andThen_nil h (fun a ha => by rw [← Option.some.inj ha]) fun a ha => ihl hl hw ha
      rw [hall, hplain, hplain, and_true, and_true, Accepted]
  | ret e l ihl =>
    cases inSwitch with
    | true => exact hwf.elim
    | false =>
      have hl : l.Wf R false := hwf
      have hall := andThen_nil h (fun a ha => by rw [← Option.some.inj ha]) fun a ha => ihl hl hw ha
      rw [hall, hplain, hplain, and_true, and_true, Accepted]
      refine and_congr_left fun _ => ?_
      cases e with
      | none => exact iff_of_true rfl fun e' he => by cases he
      | some e => exact ⟨fun h e' he => by rw [← Option.some.inj he]; exact h, fun h => h e rfl⟩
  | ite e a b l iha ihb ihl =>
    cases inSwitch with
    | true => exact hwf.elim
    | false =>
      have hall := andThen_nil h (fun x hx => by rw [← Option.some.inj hx]) fun x hx =>
        andThen_nil hx (fun y hy => iha hwf.1 plain hy) fun y hy =>
          andThen_nil hy (fun z hz => ihb hwf.2.1 plain hz) fun z hz => ihl hwf.2.2 hw hz
      rw [hall]
      simp only [hplain, and_true, Accepted]
  | switch e b l ihb ihl =>
    cases inSwitch with
    | true => exact hwf.elim
    | false =>
      have hwidth : 1 ≤ R.getExpressionWidth e ↔ true = true := iff_of_true hwf.1 rfl
      have hall := andThen_nil h (fun x hx => by rw [← Option.some.inj hx]) fun x hx =>
        andThen_nil hx (fun y hy => ihb hwf.2.1 hwidth hy) fun y hy => ihl hwf.2.2 hw hy
      have hown : (true = true → LabelsOk (R.getExpressionWidth e) [] false b) ↔
          Complete (R.getExpressionWidth e) b := by
        rw [complete_iff]
        exact ⟨fun h => h rfl, fun h _ => h⟩
      rw [hall, hplain, hplain, hown, and_true, and_true, Accepted, List.append_eq_nil_iff, ite_eq_right_iff]
      have hsigned : (R.isSigned e = true → [Msg.signedSwitch] = []) ↔ R.isSigned e = false :=
        ⟨fun h => Bool.of_not_eq_true fun ht => List.cons_ne_nil _ _ (h ht), fun h ht => by rw [h] at ht; cases ht⟩
      rw [hsigned]
      tauto
  | null l ihl | brk l ihl =>
    cases inSwitch with
    | true => exact hwf.elim
    | false =>
      have hl : l.Wf R false := hwf
      exact (ihl hl hw h).trans (and_congr_right fun _ => hplain.trans hplain.symm)

end Walk

/-- **The check is exact** for a statement list: it is defined, and reports nothing just if the expressions have no
errors and every switch is unsigned and complete. -/
def ExactCheck (s : Stmts E) : Prop :=
  ∃ m, checkWidthRules R s 0 [] false = some m ∧ (m = [] ↔ Accepted R s)

theorem exact_iff {s : Stmts E} (hwf : s.Wf R false) : ExactCheck R s ↔ Defined R s := by
  have hsome : (checkWidthRules R s 0 [] false).isSome ↔ Defined R s := by
    rw [check_isSome R hwf plain, endDefined_plain, and_true]
  rw [← hsome, Option.isSome_iff_exists]
  refine exists_congr fun m => and_iff_left_of_imp fun h => ?_
  exact (check_nil_iff R hwf plain h).trans (and_iff_left fun hfalse => Bool.noConfusion hfalse)

/-- Expressions of a given width, without errors. -/
def demoExprs (width : ℕ) : Exprs Unit :=
  ⟨fun _ => false, fun _ => false, fun _ => width, fun _ => [], fun _ _ => [], 0⟩

/-- `switch (x) { case 0: break; case 1: break; }` -/
def demoSwitch : Stmts Unit :=
  .switch (.other ()) (.case (.constValue (.of int32 0)) (.brk .nil)
    (.case (.constValue (.of int32 1)) (.brk .nil) .nil)) .nil

theorem demoSwitch_wf {width : ℕ} (h : 1 ≤ width) : demoSwitch.Wf (demoExprs width) false :=
  ⟨h, ⟨trivial, trivial, trivial⟩, trivial⟩

end OpenHT.Htfe.WidthRules
