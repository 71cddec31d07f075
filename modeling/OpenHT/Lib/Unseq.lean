import Mathlib.Data.Nat.Notation

/-!
# Expressions whose operands are evaluated in any order

The expressions of C: the operands of a strict operator or of a call are evaluated in any order, a step of one after a
step of another. A comma and a conditional say what comes first. What an operator does is left to an
interpretation; it may also go wrong.

* `Expr`, `Sem`: expressions, and what their leaves and operators mean.
* `Step`, `Reaches`, `Runs`: one step, several, and a whole evaluation.
* `Frame`: an expression around another one; `Reaches.frame`: what is inside can step.
* `exists_runs`: an evaluation ends, one way or another.
* `Sem.extend`, `close`: more variables, that nothing writes; `Runs.close`: their values can be put in at once.
-/

namespace OpenHT.Unseq

/-- Expressions over values, strict operators, labels of conditionals and variables. -/
inductive Expr (V K L X : Type)
  | const (v : V)
  | var (x : X)
  | node (k : K) (args : List (Expr V K L X))
  | comma (a b : Expr V K L X)
  | cond (l : L) (c a b : Expr V K L X)

/-- What the parts of an expression mean in a store. -/
structure Sem (V K L X S : Type) where
  read : S → X → V
  /-- A strict operator, a call or an assignment; `none` is an error. -/
  apply : K → List V → S → Option (V × S)
  truth : V → Bool
  /-- What it leaves in the store that a conditional takes one of its sides. -/
  enter : L → Bool → S → S
  /-- A conditional whose value is not used. -/
  discards : L → Bool
  /-- The value of what has none. -/
  unit : V

variable {V K L X S : Type}

/-- An expression with a place for one that may be evaluated next. -/
inductive Frame (V K L X : Type)
  | node (k : K) (l r : List (Expr V K L X))
  | comma (b : Expr V K L X)
  | cond (l : L) (a b : Expr V K L X)

def Frame.plug : Frame V K L X → Expr V K L X → Expr V K L X
  | node k l r, e => .node k (l ++ e :: r)
  | comma b, e => .comma e b
  | cond l a b, e => .cond l e a b

/-- The branch that a conditional takes. -/
def branch (sem : Sem V K L X S) (l : L) (e : Expr V K L X) : Expr V K L X :=
  if sem.discards l then .comma e (.const sem.unit) else e

/-- **One step** of an evaluation; `none` is an error. -/
inductive Step (sem : Sem V K L X S) : Expr V K L X → S → Option (Expr V K L X × S) → Prop
  | var (x : X) (s : S) : Step sem (.var x) s (some (.const (sem.read s x), s))
  | apply (k : K) (vs : List V) (s : S) :
    Step sem (.node k (vs.map .const)) s ((sem.apply k vs s).map fun r => (.const r.1, r.2))
  | comma (v : V) (b : Expr V K L X) (s : S) : Step sem (.comma (.const v) b) s (some (b, s))
  | cond (l : L) (v : V) (a b : Expr V K L X) (s : S) :
    Step sem (.cond l (.const v) a b) s
      (some (branch sem l (if sem.truth v then a else b), sem.enter l (sem.truth v) s))
  | frame (F : Frame V K L X) {e e' : Expr V K L X} {s s' : S} (h : Step sem e s (some (e', s'))) :
    Step sem (F.plug e) s (some (F.plug e', s'))
  | error (F : Frame V K L X) {e : Expr V K L X} {s : S} (h : Step sem e s none) : Step sem (F.plug e) s none

/-- Several steps. -/
inductive Reaches (sem : Sem V K L X S) : Expr V K L X → S → Option (Expr V K L X × S) → Prop
  | refl (e : Expr V K L X) (s : S) : Reaches sem e s (some (e, s))
  | step {e e' : Expr V K L X} {s s' : S} {c : Option (Expr V K L X × S)} (h : Step sem e s (some (e', s')))
    (hs : Reaches sem e' s' c) : Reaches sem e s c
  | error {e : Expr V K L X} {s : S} (h : Step sem e s none) : Reaches sem e s none

/-- **A whole evaluation**, with the value and the store it ends with, or an error. -/
def Runs (sem : Sem V K L X S) (e : Expr V K L X) (s : S) (o : Option (V × S)) : Prop :=
  Reaches sem e s (o.map fun r => (.const r.1, r.2))

section

variable {sem : Sem V K L X S} {e e' : Expr V K L X} {s s' : S} {c : Option (Expr V K L X × S)}

theorem Reaches.single (h : Step sem e s (some (e', s'))) : Reaches sem e s (some (e', s')) := .step h (.refl e' s')

theorem Reaches.trans (h : Reaches sem e s (some (e', s'))) (h' : Reaches sem e' s' c) : Reaches sem e s c := by
  generalize hmid : some (e', s') = mid at h
  induction h with
  | refl e s =>
    obtain ⟨rfl, rfl⟩ := Prod.mk.inj (Option.some.inj hmid)
    exact h'
  | step h _ ih => exact .step h (ih hmid)
  | error _ => cases hmid

/-- **What is inside can step.** -/
theorem Reaches.frame (F : Frame V K L X) (h : Reaches sem e s (some (e', s'))) :
    Reaches sem (F.plug e) s (some (F.plug e', s')) := by
  generalize hmid : some (e', s') = mid at h
  induction h with
  | refl e s =>
    obtain ⟨rfl, rfl⟩ := Prod.mk.inj (Option.some.inj hmid)
    exact .refl _ _
  | step h _ ih => exact .step (.frame F h) (ih hmid)
  | error _ => cases hmid

/-- An error inside is one of the whole. -/
theorem Reaches.frame_error (F : Frame V K L X) (h : Reaches sem e s none) : Reaches sem (F.plug e) s none := by
  generalize hmid : none = mid at h
  induction h with
  | refl e s => cases hmid
  | step h _ ih => exact .step (.frame F h) (ih hmid)
  | error h => exact .error (.error F h)

theorem Runs.of_reaches {o : Option (V × S)} (h : Reaches sem e s (some (e', s'))) (hr : Runs sem e' s' o) :
    Runs sem e s o := h.trans hr

theorem Runs.const (v : V) (s : S) : Runs sem (.const v) s (some (v, s)) := Reaches.refl (.const v) s

end

/-! ## What an evaluation was -/

section

variable {sem : Sem V K L X S} {s : S}

theorem Step.not_const {v : V} {c : Option (Expr V K L X × S)} : ¬ Step sem (.const v) s c := by
  intro h
  generalize he : Expr.const v = e at h
  cases h with
  | frame F h => cases F <;> cases he
  | error F h => cases F <;> cases he
  | _ => cases he

theorem Runs.const_inv {v : V} {o : Option (V × S)} (h : Runs sem (.const v) s o) : o = some (v, s) := by
  unfold Runs at h
  generalize hc : Option.map _ o = c at h
  generalize he : Expr.const v = e at h
  cases h with
  | refl =>
    subst he
    obtain ⟨r, rfl, hr⟩ := Option.map_eq_some_iff.1 hc
    obtain ⟨hv, hs⟩ := Prod.mk.inj hr
    rw [← Expr.const.inj hv, ← hs]
  | step h hs =>
    subst he
    exact absurd h Step.not_const
  | error h =>
    subst he
    exact absurd h Step.not_const

theorem Step.comma_inv {a b : Expr V K L X} {c : Option (Expr V K L X × S)} (h : Step sem (.comma a b) s c) :
    (∃ v, a = .const v ∧ c = some (b, s)) ∨ ∃ c', Step sem a s c' ∧ c = c'.map fun r => (.comma r.1 b, r.2) := by
  generalize he : Expr.comma a b = e at h
  cases h with
  | comma v b s =>
    obtain ⟨rfl, rfl⟩ := Expr.comma.inj he
    exact .inl ⟨v, rfl, rfl⟩
  | frame F h =>
    cases F <;> cases he
    exact .inr ⟨_, h, rfl⟩
  | error F h =>
    cases F <;> cases he
    exact .inr ⟨_, h, rfl⟩
  | _ => cases he

/-- **A comma is its left operand and then its right one.** -/
theorem Runs.comma_inv {a b : Expr V K L X} {o : Option (V × S)} (h : Runs sem (.comma a b) s o) :
    (∃ v s', Runs sem a s (some (v, s')) ∧ Runs sem b s' o) ∨ (o = none ∧ Runs sem a s none) := by
  unfold Runs at h
  generalize hc : Option.map _ o = c at h
  generalize he : Expr.comma a b = e at h
  induction h generalizing a with
  | refl e s =>
    subst he
    obtain ⟨r, rfl, hr⟩ := Option.map_eq_some_iff.1 hc
    cases (Prod.mk.inj hr).1
  | step h hs ih =>
    subst he
    rcases h.comma_inv with ⟨v, rfl, hn⟩ | ⟨c', h', hn⟩
    · obtain ⟨rfl, rfl⟩ := Prod.mk.inj (Option.some.inj hn)
      subst hc
      exact .inl ⟨v, _, .const v _, hs⟩
    · obtain ⟨r, rfl, hr⟩ := Option.map_eq_some_iff.1 hn.symm
      obtain ⟨rfl, rfl⟩ := Prod.mk.inj hr
      rcases ih hc rfl with ⟨v, s', h1, h2⟩ | ⟨ho, h1⟩
      · exact .inl ⟨v, s', .step h' h1, h2⟩
      · exact .inr ⟨ho, .step h' h1⟩
  | error h =>
    subst he
    have ho : o = none := Option.map_eq_none_iff.1 hc
    rcases h.comma_inv with ⟨v, rfl, hn⟩ | ⟨c', h', hn⟩
    · cases hn
    · have hc' : c' = none := Option.map_eq_none_iff.1 hn.symm
      exact .inr ⟨ho, .error (hc' ▸ h')⟩

theorem Step.unary_inv {k : K} {v : V} {c : Option (Expr V K L X × S)} (h : Step sem (.node k [.const v]) s c) :
    c = (sem.apply k [v] s).map fun r => (.const r.1, r.2) := by
  have hinner : ∀ {l r : List (Expr V K L X)} {e : Expr V K L X} {d : Option (Expr V K L X × S)},
      [Expr.const v] = l ++ e :: r → ¬ Step sem e s d := by
    intro l r e d he
    obtain rfl : Expr.const v = e := by
      cases l with
      | nil => exact (List.cons.inj he).1
      | cons _ l => exact absurd (List.cons.inj he).2 (List.append_ne_nil_of_right_ne_nil l (List.cons_ne_nil e r)).symm
    exact Step.not_const
  generalize he : Expr.node k [.const v] = e at h
  cases h with
  | apply k' vs s =>
    obtain ⟨rfl, hvs⟩ := Expr.node.inj he
    obtain rfl : vs = [v] := by
      cases vs with
      | nil => cases hvs
      | cons w vs =>
        obtain ⟨hw, hnil⟩ := List.cons.inj hvs
        rw [Expr.const.inj hw, List.map_eq_nil_iff.1 hnil.symm]
    rfl
  | frame F h =>
    cases F with
    | node k' l r => exact absurd h (hinner (Expr.node.inj he).2)
    | _ => cases he
  | error F h =>
    cases F with
    | node k' l r => exact absurd h (hinner (Expr.node.inj he).2)
    | _ => cases he
  | _ => cases he

/-- An operator on values does what it means. -/
theorem Runs.unary_inv {k : K} {v : V} {o : Option (V × S)} (h : Runs sem (.node k [.const v]) s o) :
    o = sem.apply k [v] s := by
  unfold Runs at h
  generalize hc : Option.map _ o = c at h
  cases h with
  | refl =>
    obtain ⟨r, -, hr⟩ := Option.map_eq_some_iff.1 hc
    cases (Prod.mk.inj hr).1
  | step h hs =>
    obtain ⟨r, hr, he⟩ := Option.map_eq_some_iff.1 h.unary_inv.symm
    obtain ⟨rfl, rfl⟩ := Prod.mk.inj he
    subst hc
    exact (Runs.const_inv hs).trans hr.symm
  | error h =>
    have hnone : sem.apply k [v] s = none := Option.map_eq_none_iff.1 h.unary_inv.symm
    exact (Option.map_eq_none_iff.1 hc).trans hnone.symm

theorem Runs.var_inv {x : X} {o : Option (V × S)} (h : Runs sem (.var x) s o) : o = some (sem.read s x, s) := by
  have hstep : ∀ {c : Option (Expr V K L X × S)}, Step sem (.var x) s c → c = some (.const (sem.read s x), s) := by
    intro c h
    generalize he : Expr.var x = e at h
    cases h with
    | var y s => rw [Expr.var.inj he]
    | frame F h => cases F <;> cases he
    | error F h => cases F <;> cases he
    | _ => cases he
  unfold Runs at h
  generalize hc : Option.map _ o = c at h
  cases h with
  | refl =>
    obtain ⟨r, -, hr⟩ := Option.map_eq_some_iff.1 hc
    cases (Prod.mk.inj hr).1
  | step h hs =>
    obtain ⟨rfl, rfl⟩ := Prod.mk.inj (Option.some.inj (hstep h))
    subst hc
    exact Runs.const_inv hs
  | error h => exact absurd (hstep h) (Option.some_ne_none _).symm

end

/-! ## Evaluations end -/

mutual

def size : Expr V K L X → ℕ
  | .const _ => 1
  | .var _ => 2
  | .node _ args => sizeList args + 2
  | .comma a b => size a + size b
  | .cond _ c a b => size c + size a + size b + 1

def sizeList : List (Expr V K L X) → ℕ
  | [] => 0
  | e :: es => size e + sizeList es

end

attribute [local simp] sizeList

attribute [local simp] size

theorem sizeList_append (l r : List (Expr V K L X)) : sizeList (l ++ r) = sizeList l + sizeList r := by
  induction l with
  | nil => exact (Nat.zero_add _).symm
  | cons e l ih => simp only [List.cons_append, sizeList, ih, Nat.add_assoc]

theorem size_pos (e : Expr V K L X) : 0 < size e := by
  cases e with
  | const v => exact Nat.one_pos
  | var x => exact Nat.succ_pos 1
  | node k args => exact Nat.succ_pos _
  | comma a b =>
    have ha := size_pos a
    simp only [size]
    omega
  | cond d c a b => exact Nat.succ_pos _

theorem size_plug_lt (F : Frame V K L X) {e e' : Expr V K L X} (h : size e' < size e) : size (F.plug e') < size (F.plug e) := by
  cases F with
  | node k l r =>
    simp only [Frame.plug, size, sizeList_append, sizeList]
    omega
  | comma b =>
    simp only [Frame.plug, size]
    omega
  | cond d a b =>
    simp only [Frame.plug, size]
    omega

/-- **A step makes an expression smaller.** -/
theorem Step.size_lt {sem : Sem V K L X S} {e : Expr V K L X} {s : S} {c : Option (Expr V K L X × S)} (h : Step sem e s c) :
    ∀ r, c = some r → size r.1 < size e := by
  induction h with
  | var x s =>
    rintro r hr
    obtain rfl := Option.some.inj hr
    exact Nat.lt_succ_self 1
  | apply k vs s =>
    rintro r hr
    obtain ⟨a, -, rfl⟩ := Option.map_eq_some_iff.1 hr
    simp only [size]
    omega
  | comma v b s =>
    rintro r hr
    obtain rfl := Option.some.inj hr
    simp only [size]
    omega
  | cond d v a b s =>
    rintro r hr
    obtain rfl := Option.some.inj hr
    have ha := size_pos a
    have hb := size_pos b
    cases hd : sem.discards d <;> cases sem.truth v <;>
      simp only [branch, hd, size, Bool.false_eq_true, if_false, if_true] <;> omega
  | frame F h ih =>
    rintro r hr
    obtain rfl := Option.some.inj hr
    exact size_plug_lt F (ih _ rfl)
  | error F h ih =>
    rintro r hr
    cases hr

mutual

/-- **Every expression that is no value can step.** -/
theorem progress (sem : Sem V K L X S) (s : S) : ∀ e : Expr V K L X, (∃ v, e = .const v) ∨ ∃ c, Step sem e s c
  | .const v => .inl ⟨v, rfl⟩
  | .var x => .inr ⟨_, .var x s⟩
  | .node k args => by
    rcases progress_list sem s args with ⟨vs, rfl⟩ | ⟨l, e, r, c, rfl, h⟩
    · exact .inr ⟨_, .apply k vs s⟩
    · cases c with
      | none => exact .inr ⟨_, .error (.node k l r) h⟩
      | some c => exact .inr ⟨_, .frame (.node k l r) h⟩
  | .comma a b => by
    rcases progress sem s a with ⟨v, rfl⟩ | ⟨c, h⟩
    · exact .inr ⟨_, .comma v b s⟩
    · cases c with
      | none => exact .inr ⟨_, .error (.comma b) h⟩
      | some c => exact .inr ⟨_, .frame (.comma b) h⟩
  | .cond d c a b => by
    rcases progress sem s c with ⟨v, rfl⟩ | ⟨o, h⟩
    · exact .inr ⟨_, .cond d v a b s⟩
    · cases o with
      | none => exact .inr ⟨_, .error (.cond d a b) h⟩
      | some o => exact .inr ⟨_, .frame (.cond d a b) h⟩

/-- The operands of an operator are values, or one of them can step. -/
theorem progress_list (sem : Sem V K L X S) (s : S) : ∀ es : List (Expr V K L X),
    (∃ vs : List V, es = vs.map .const) ∨ ∃ l e r c, es = l ++ e :: r ∧ Step sem e s c
  | [] => .inl ⟨[], rfl⟩
  | e :: es => by
    rcases progress sem s e with ⟨v, rfl⟩ | ⟨c, h⟩
    · rcases progress_list sem s es with ⟨vs, rfl⟩ | ⟨l, e', r, c, rfl, h⟩
      · exact .inl ⟨v :: vs, rfl⟩
      · exact .inr ⟨.const v :: l, e', r, c, rfl, h⟩
    · exact .inr ⟨[], e, es, c, rfl, h⟩

end

/-- **An evaluation ends**, with a value or with an error. -/
theorem exists_runs (sem : Sem V K L X S) (e : Expr V K L X) (s : S) : ∃ o, Runs sem e s o := by
  induction hn : size e using Nat.strongRecOn generalizing e s with
  | ind n ih =>
    rcases progress sem s e with ⟨v, rfl⟩ | ⟨c, h⟩
    · exact ⟨_, .const v s⟩
    · cases c with
      | none => exact ⟨none, .error h⟩
      | some c =>
        obtain ⟨e', s'⟩ := c
        have hlt := h.size_lt _ rfl
        obtain ⟨o, ho⟩ := ih (size e') (hn ▸ hlt) e' s' rfl
        exact ⟨o, .step h ho⟩

/-! ## More variables -/

/-- Variables that nothing writes, beside those of a store. -/
def Sem.extend (sem : Sem V K L X S) (Y : Type) : Sem V K L (X ⊕ Y) (S × (Y → V)) where
  read s := fun
    | .inl x => sem.read s.1 x
    | .inr y => s.2 y
  apply k vs s := (sem.apply k vs s.1).map fun r => (r.1, (r.2, s.2))
  truth := sem.truth
  enter l taken s := (sem.enter l taken s.1, s.2)
  discards := sem.discards
  unit := sem.unit

section

variable {Y : Type}

mutual

/-- The expression with the values of the other variables put in. -/
def close (ρ : Y → V) : Expr V K L (X ⊕ Y) → Expr V K L X
  | .const v => .const v
  | .var (.inl x) => .var x
  | .var (.inr y) => .const (ρ y)
  | .node k args => .node k (closeList ρ args)
  | .comma a b => .comma (close ρ a) (close ρ b)
  | .cond l c a b => .cond l (close ρ c) (close ρ a) (close ρ b)

def closeList (ρ : Y → V) : List (Expr V K L (X ⊕ Y)) → List (Expr V K L X)
  | [] => []
  | e :: es => close ρ e :: closeList ρ es

end

mutual

/-- The other variables of an expression. -/
def names : Expr V K L (X ⊕ Y) → List Y
  | .const _ | .var (.inl _) => []
  | .var (.inr y) => [y]
  | .node _ args => namesList args
  | .comma a b => names a ++ names b
  | .cond _ c a b => names c ++ names a ++ names b

def namesList : List (Expr V K L (X ⊕ Y)) → List Y
  | [] => []
  | e :: es => names e ++ namesList es

end

mutual

/-- Only the values of its variables are put in. -/
theorem close_congr {ρ ρ' : Y → V} : ∀ {e : Expr V K L (X ⊕ Y)}, (∀ y ∈ names e, ρ y = ρ' y) → close ρ e = close ρ' e
  | .const _, _ | .var (.inl _), _ => rfl
  | .var (.inr y), h => congrArg Expr.const (h y (List.mem_singleton.2 rfl))
  | .node _ _, h => congrArg _ (closeList_congr h)
  | .comma a b, h => by
    have ha : close ρ a = close ρ' a := close_congr fun y hy => h y (List.mem_append_left _ hy)
    have hb : close ρ b = close ρ' b := close_congr fun y hy => h y (List.mem_append_right _ hy)
    rw [close, ha, hb, close]
  | .cond l c a b, h => by
    have hc : close ρ c = close ρ' c :=
      close_congr fun y hy => h y (List.mem_append_left _ (List.mem_append_left _ hy))
    have ha : close ρ a = close ρ' a :=
      close_congr fun y hy => h y (List.mem_append_left _ (List.mem_append_right _ hy))
    have hb : close ρ b = close ρ' b := close_congr fun y hy => h y (List.mem_append_right _ hy)
    rw [close, hc, ha, hb, close]

theorem closeList_congr {ρ ρ' : Y → V} : ∀ {es : List (Expr V K L (X ⊕ Y))}, (∀ y ∈ namesList es, ρ y = ρ' y) →
    closeList ρ es = closeList ρ' es
  | [], _ => rfl
  | e :: es, h => by
    have he : close ρ e = close ρ' e := close_congr fun y hy => h y (List.mem_append_left _ hy)
    have hes : closeList ρ es = closeList ρ' es := closeList_congr fun y hy => h y (List.mem_append_right _ hy)
    rw [closeList, he, hes, closeList]

end

theorem closeList_append (ρ : Y → V) (l r : List (Expr V K L (X ⊕ Y))) :
    closeList ρ (l ++ r) = closeList ρ l ++ closeList ρ r := by
  induction l with
  | nil => rfl
  | cons e l ih => rw [List.cons_append, closeList, ih, closeList, List.cons_append]

theorem closeList_consts (ρ : Y → V) (vs : List V) :
    closeList ρ (vs.map (Expr.const : V → Expr V K L (X ⊕ Y))) = vs.map .const := by
  induction vs with
  | nil => rfl
  | cons v vs ih => rw [List.map_cons, closeList, ih, close, List.map_cons]

/-- A frame with the values put in. -/
def Frame.close (ρ : Y → V) : Frame V K L (X ⊕ Y) → Frame V K L X
  | .node k l r => .node k (closeList ρ l) (closeList ρ r)
  | .comma b => .comma (Unseq.close ρ b)
  | .cond l a b => .cond l (Unseq.close ρ a) (Unseq.close ρ b)

theorem close_plug (ρ : Y → V) (F : Frame V K L (X ⊕ Y)) (e : Expr V K L (X ⊕ Y)) :
    close ρ (F.plug e) = (F.close ρ).plug (close ρ e) := by
  cases F with
  | node k l r => rw [Frame.plug, close, closeList_append, closeList, Frame.close, Frame.plug]
  | comma b => rw [Frame.plug, close, Frame.close, Frame.plug]
  | cond l a b => rw [Frame.plug, close, Frame.close, Frame.plug]

theorem close_branch (ρ : Y → V) (sem : Sem V K L X S) (l : L) (e : Expr V K L (X ⊕ Y)) :
    close ρ (branch (sem.extend Y) l e) = branch sem l (close ρ e) := by
  unfold branch
  cases hd : sem.discards l with
  | false => rw [if_neg (by rw [Sem.extend, hd]; exact Bool.false_ne_true), if_neg Bool.false_ne_true]
  | true => rw [if_pos (by rw [Sem.extend, hd]), if_pos rfl, close, close, Sem.extend]

/-- What a state is for the variables of the store. -/
def inner (ρ : Y → V) (c : Option (Expr V K L (X ⊕ Y) × (S × (Y → V)))) : Option (Expr V K L X × S) :=
  c.map fun r => (close ρ r.1, r.2.1)

/-- **A step with more variables** is one of the expression with their values put in, or none. -/
theorem Step.close {sem : Sem V K L X S} {e : Expr V K L (X ⊕ Y)} {σ : S × (Y → V)}
    {c : Option (Expr V K L (X ⊕ Y) × (S × (Y → V)))} (h : Step (sem.extend Y) e σ c) :
    Reaches sem (close σ.2 e) σ.1 (inner σ.2 c) ∧ ∀ r, c = some r → r.2.2 = σ.2 := by
  induction h with
  | var x σ =>
    refine ⟨?_, fun r hr => Option.some.inj hr ▸ rfl⟩
    cases x with
    | inl x => exact .single (.var x σ.1)
    | inr y => exact .refl _ _
  | apply k vs σ =>
    have happly : (sem.extend Y).apply k vs σ = (sem.apply k vs σ.1).map fun r => (r.1, (r.2, σ.2)) := rfl
    have hstep : Step sem (.node k (vs.map .const)) σ.1 _ := .apply k vs σ.1
    rw [Unseq.close, closeList_consts, happly]
    cases hr : sem.apply k vs σ.1 with
    | none =>
      rw [hr] at hstep
      exact ⟨.error hstep, fun r hr => absurd hr (Option.some_ne_none r).symm⟩
    | some r =>
      rw [hr] at hstep
      exact ⟨.single hstep, fun r h => Option.some.inj h ▸ rfl⟩
  | comma v b σ => exact ⟨.single (.comma v _ σ.1), fun r hr => Option.some.inj hr ▸ rfl⟩
  | cond l v a b σ =>
    refine ⟨.single ?_, fun r hr => Option.some.inj hr ▸ rfl⟩
    rw [close_branch, Unseq.close, Unseq.close]
    have htruth : (sem.extend Y).truth v = sem.truth v := rfl
    have hstep : Step sem (.cond l (.const v) (Unseq.close σ.2 a) (Unseq.close σ.2 b)) σ.1 _ := .cond l v _ _ σ.1
    rw [htruth]
    cases hv : sem.truth v <;> rw [hv] at hstep <;> exact hstep
  | @frame F e e' σ σ' h ih =>
    obtain ⟨hsteps, hsame⟩ := ih
    refine ⟨?_, fun r hr => Option.some.inj hr ▸ hsame (e', σ') rfl⟩
    have hr : inner σ.2 (some (F.plug e', σ')) = some ((F.close σ.2).plug (Unseq.close σ.2 e'), σ'.1) :=
      congrArg (fun t => some (t, σ'.1)) (close_plug σ.2 F e')
    rw [close_plug, hr]
    exact hsteps.frame (F.close σ.2)
  | @error F e σ h ih =>
    refine ⟨?_, fun r hr => absurd hr (Option.some_ne_none r).symm⟩
    rw [close_plug]
    exact ih.1.frame_error (F.close σ.2)

theorem Reaches.close {sem : Sem V K L X S} {e : Expr V K L (X ⊕ Y)} {σ : S × (Y → V)}
    {c : Option (Expr V K L (X ⊕ Y) × (S × (Y → V)))} (h : Reaches (sem.extend Y) e σ c) :
    Reaches sem (close σ.2 e) σ.1 (inner σ.2 c) ∧ ∀ r, c = some r → r.2.2 = σ.2 := by
  induction h with
  | refl e σ => exact ⟨.refl _ _, fun r hr => Option.some.inj hr ▸ rfl⟩
  | step h _ ih =>
    obtain ⟨h1, hsame⟩ := h.close
    have hσ := hsame _ rfl
    rw [hσ] at ih
    exact ⟨h1.trans ih.1, ih.2⟩
  | error h => exact ⟨h.close.1, fun r hr => absurd hr (Option.some_ne_none r).symm⟩

/-- **The values can be put in at once**, and they stay what they are. -/
theorem Runs.close {sem : Sem V K L X S} {e : Expr V K L (X ⊕ Y)} {s : S} {ρ : Y → V} {o : Option (V × (S × (Y → V)))}
    (h : Runs (sem.extend Y) e (s, ρ) o) : Runs sem (close ρ e) s (o.map fun r => (r.1, r.2.1)) := by
  have hc := (Reaches.close h).1
  cases o with
  | none => exact hc
  | some r => exact hc

end

end OpenHT.Unseq
