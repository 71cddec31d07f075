import OpenHT.Htfe.ConstVarRun

/-!
# Constant variables are constant

* `Agrees`: the marked variables have their values.
* `eval_keeps`, `Yields`: what an expression may change, and that it has the value that `EvalConstantExpr` gives it.
* `GoodStep`, `SoundStep`: what an action must not do, and that the leaves have the values that the parser takes for them.
* `const_vars_sound`: in an execution of good steps every step is sound.
-/

namespace OpenHT.Htfe.ConstVar

open CInt CInt.IntType Observe

variable {n : ℕ}

/-! ## What may change -/

/-- The variables of an operand that is assigned. -/
def targets : Expr n → List (Fin n)
  | .var v | .bit v _ | .range v _ _ | .field v _ _ => [v]
  | .typeCast _ _ b => targets b
  | .comma a b => targets a ++ targets b
  | _ => []

mutual

/-- The variables that the calls in an expression take references to. -/
def refs : Expr n → List (Fin n)
  | .const _ | .var _ | .field _ _ _ => []
  | .bit _ i => refs i
  | .range _ h l => refs h ++ refs l
  | .unary _ a | .typeCast _ _ a => refs a
  | .binary _ a b | .comma a b => refs a ++ refs b
  | .question a b c => refs a ++ (refs b ++ refs c)
  | .call _ ps => paramRefs ps

def paramRefs : Params n → List (Fin n)
  | .nil => []
  | .value arg next => refs arg ++ paramRefs next
  | .ref arg next => targets arg ++ (refs arg ++ paramRefs next)

end

/-- Outside of `vs` nothing has changed. -/
def Unchanged (vs : List (Fin n)) (σ σ' : Store n) : Prop := ∀ v, v ∉ vs → σ' v = σ v

theorem Unchanged.refl (vs : List (Fin n)) (σ : Store n) : Unchanged vs σ σ := fun _ _ => rfl

theorem Unchanged.trans {vs : List (Fin n)} {σ₁ σ₂ σ₃ : Store n} (h₁ : Unchanged vs σ₁ σ₂) (h₂ : Unchanged vs σ₂ σ₃) :
    Unchanged vs σ₁ σ₃ := fun v hv => (h₂ v hv).trans (h₁ v hv)

theorem Unchanged.mono {vs ws : List (Fin n)} {σ σ' : Store n} (hsub : vs ⊆ ws) (h : Unchanged vs σ σ') :
    Unchanged ws σ σ' := fun v hv => h v fun hin => hv (hsub hin)

variable {env : Env} {st : ParseState n} {vs : List (Fin n)} {σ : Store n}

theorem keeps_bind {α β : Type} {c : Comp n α} {f : α → Comp n β} (hc : Keeps (Unchanged vs) c)
    (hf : ∀ a, Keeps (Unchanged vs) (f a)) : Keeps (Unchanged vs) (c >>= f) := Keeps.bind Unchanged.trans hc hf

theorem keeps_pure {α : Type} (a : α) : Keeps (Unchanged vs) (pure a : Comp n α) := Keeps.pure (Unchanged.refl vs) a

theorem keeps_read {α : Type} (g : Store n → α) : Keeps (Unchanged vs) (.read g : Comp n α) :=
  Keeps.read (Unchanged.refl vs) g

theorem keeps_noteIf (b : Bool) (e : Expr n) : Keeps (Unchanged vs) (noteIf b e) := by
  unfold noteIf
  split
  · exact Keeps.note (Unchanged.refl vs) e
  · exact keeps_pure ()

theorem keeps_writeVar {v : Fin n} (hv : v ∈ vs) (x : Int) : Keeps (Unchanged vs) (writeVar st v x) := by
  refine Keeps.modify fun σ w hw => ?_
  have hne : w ≠ v := fun heq => hw (heq ▸ hv)
  exact Function.update_of_ne hne _ _

theorem keeps_writeBits {v : Fin n} (hv : v ∈ vs) (low width : ℕ) (y : Int) :
    Keeps (Unchanged vs) (writeBits st v low width y) :=
  keeps_bind (keeps_read _) fun _ => keeps_bind (keeps_writeVar hv _) fun _ => keeps_pure _

mutual

theorem eval_keeps (env : Env) (st : ParseState n) (e : Expr n) (hsub : refs e ⊆ vs) :
    Keeps (Unchanged vs) (eval env st e) := by
  cases e with
  | const k =>
    rw [eval]
    exact keeps_pure k
  | var v =>
    rw [eval]
    exact keeps_read _
  | field v p w =>
    rw [eval]
    exact keeps_read _
  | bit v i =>
    rw [eval]
    exact keeps_bind (eval_keeps env st i hsub) fun _ => keeps_read _
  | range v h l =>
    rw [refs, List.append_subset] at hsub
    rw [eval]
    refine keeps_bind (Keeps.note (Unchanged.refl vs) h) fun _ => ?_
    refine keeps_bind (eval_keeps env st h hsub.1) fun _ => ?_
    refine keeps_bind (keeps_noteIf _ l) fun _ => ?_
    exact keeps_bind (eval_keeps env st l hsub.2) fun _ => keeps_read _
  | unary op a =>
    rw [eval]
    exact keeps_bind (eval_keeps env st a hsub) fun _ => Keeps.lift (Unchanged.refl vs) _
  | binary op a b =>
    rw [refs, List.append_subset] at hsub
    have ha := eval_keeps env st a hsub.1
    have hb := eval_keeps env st b hsub.2
    -- the two operators that do not always evaluate their right operand
    by_cases hor : op = .vbarVbar
    · subst hor
      rw [eval]
      refine keeps_bind ha fun x => ?_
      split
      · exact keeps_pure _
      · exact keeps_bind hb fun _ => keeps_pure _
    · by_cases hand : op = .ampersandAmpersand
      · subst hand
        rw [eval]
        refine keeps_bind ha fun x => ?_
        split
        · exact keeps_bind hb fun _ => keeps_pure _
        · exact keeps_pure _
      · rw [eval]
        · exact keeps_bind ha fun _ => keeps_bind hb fun _ => Keeps.lift (Unchanged.refl vs) _
        · exact hor
        · exact hand
  | typeCast s w b =>
    rw [eval]
    exact keeps_bind (eval_keeps env st b hsub) fun _ => Keeps.lift (Unchanged.refl vs) _
  | question a b c =>
    rw [refs, List.append_subset, List.append_subset] at hsub
    rw [eval]
    refine keeps_bind (eval_keeps env st a hsub.1) fun x => ?_
    split
    · exact eval_keeps env st b hsub.2.1
    · exact eval_keeps env st c hsub.2.2
  | comma a b =>
    rw [refs, List.append_subset] at hsub
    rw [eval]
    exact keeps_bind (eval_keeps env st a hsub.1) fun _ => keeps_bind (eval_keeps env st b hsub.2) fun _ => keeps_pure _
  | call f ps =>
    rw [eval]
    refine keeps_bind (evalParams_keeps env st ps hsub) fun xs => ?_
    exact keeps_bind (writeBack_keeps env st ps _ hsub) fun _ => keeps_pure _

theorem assignTo_keeps (env : Env) (st : ParseState n) (e : Expr n) (x : Int) (ht : targets e ⊆ vs) (hsub : refs e ⊆ vs) :
    Keeps (Unchanged vs) (assignTo env st e x) := by
  cases e with
  | var v =>
    rw [assignTo]
    exact keeps_bind (keeps_writeVar (ht (.head _)) x) fun _ => keeps_pure _
  | field v p w =>
    rw [assignTo]
    exact keeps_writeBits (ht (.head _)) p w x
  | bit v i =>
    rw [assignTo]
    exact keeps_bind (eval_keeps env st i hsub) fun _ => keeps_writeBits (ht (.head _)) _ _ x
  | range v h l =>
    rw [refs, List.append_subset] at hsub
    rw [assignTo]
    refine keeps_bind (Keeps.note (Unchanged.refl vs) h) fun _ => ?_
    refine keeps_bind (eval_keeps env st h hsub.1) fun _ => ?_
    refine keeps_bind (keeps_noteIf _ l) fun _ => ?_
    exact keeps_bind (eval_keeps env st l hsub.2) fun _ => keeps_writeBits (ht (.head _)) _ _ x
  | typeCast s w b =>
    rw [assignTo]
    exact assignTo_keeps env st b x ht hsub
  | comma a b =>
    rw [refs, List.append_subset] at hsub
    rw [targets, List.append_subset] at ht
    rw [assignTo]
    exact keeps_bind (assignTo_keeps env st b x ht.2 hsub.2) fun y => assignTo_keeps env st a y ht.1 hsub.1
  | const k => exact keeps_pure x
  | unary op a => exact keeps_pure x
  | binary op a b => exact keeps_pure x
  | question a b c => exact keeps_pure x
  | call f ps => exact keeps_pure x

theorem evalParams_keeps (env : Env) (st : ParseState n) (ps : Params n) (hsub : paramRefs ps ⊆ vs) :
    Keeps (Unchanged vs) (evalParams env st ps) := by
  cases ps with
  | nil => exact keeps_pure _
  | value arg next =>
    rw [paramRefs, List.append_subset] at hsub
    rw [evalParams]
    exact keeps_bind (eval_keeps env st arg hsub.1) fun _ =>
      keeps_bind (evalParams_keeps env st next hsub.2) fun _ => keeps_pure _
  | ref arg next =>
    rw [paramRefs, List.append_subset, List.append_subset] at hsub
    rw [evalParams]
    exact keeps_bind (eval_keeps env st arg hsub.2.1) fun _ =>
      keeps_bind (evalParams_keeps env st next hsub.2.2) fun _ => keeps_pure _

theorem writeBack_keeps (env : Env) (st : ParseState n) (ps : Params n) (ys : List Int) (hsub : paramRefs ps ⊆ vs) :
    Keeps (Unchanged vs) (writeBack env st ps ys) := by
  cases ps with
  | nil => exact keeps_pure ()
  | value arg next =>
    rw [paramRefs, List.append_subset] at hsub
    rw [writeBack]
    exact writeBack_keeps env st next ys hsub.2
  | ref arg next =>
    rw [paramRefs, List.append_subset, List.append_subset] at hsub
    cases ys with
    | nil => exact keeps_pure ()
    | cons y ys =>
      rw [writeBack]
      exact keeps_bind (assignTo_keeps env st arg y hsub.1 hsub.2.1) fun _ => writeBack_keeps env st next ys hsub.2.2

end

/-! ## What a marked variable says -/

/-- The marked variables have their values. -/
def Agrees (st : ParseState n) (σ : Store n) : Prop :=
  ∀ v, (st.ident v).isConstVar → (readVar st σ v).value = (st.ident v).constValue.value

/-- No leaf of a marked variable is a part of it. -/
def Whole (st : ParseState n) (e : Expr n) : Prop := ∀ x ∈ constLeaves st e, ∃ v, x.1 = .var v

/-- In the values of `e`, the constants have the types that their variables have, and a cast does what it does in
`EvalConstantExpr`. -/
def Exact (env : Env) (st : ParseState n) (σ : Store n) : Expr n → Prop
  | .var v => (st.ident v).type.promoted = (st.ident v).constValue.type
  | .unary _ a => Exact env st σ a
  | .binary _ a b => Exact env st σ a ∧ Exact env st σ b
  | .typeCast isSigned width b => Exact env st σ b ∧
    ∀ x, (eval env st b σ).val = some x → CConstValue.cast isSigned width x = some (evalCast isSigned width x)
  | .question a b c => Exact env st σ a ∧ Exact env st σ b ∧ Exact env st σ c
  | _ => True

/-- A computation that changes nothing, and has no result but `k`. -/
def Yields {α : Type} (c : Comp n α) (σ : Store n) (k : α) : Prop := (c σ).state = σ ∧ ∀ x, (c σ).val = some x → x = k

namespace Yields

variable {α β : Type} {c : Comp n α} {f : α → Comp n β} {a : α} {b : β}

theorem pure (a : α) : Yields (Pure.pure a : Comp n α) σ a := ⟨rfl, fun _ hx => (Option.some.inj hx).symm⟩

theorem lift {o : Option α} (ho : o = some a) : Yields (Prog.lift o : Comp n α) σ a :=
  ⟨rfl, fun _ hx => Option.some.inj (hx.symm.trans ho)⟩

theorem bind (hc : Yields c σ a) (hf : (c σ).val = some a → Yields (f a) σ b) : Yields (c >>= f) σ b := by
  obtain ⟨hstate, hval⟩ := hc
  change Yields (Prog.bind c f) σ b
  unfold Yields Prog.bind
  split
  · exact ⟨hstate, fun x hx => absurd hx (by simp)⟩
  · next x hx =>
    obtain rfl := hval x hx
    rw [hstate]
    exact hf hx

end Yields

theorem val_ext {x y : CConstValue} (ht : x.type = y.type) (hv : x.value = y.value) : x = y := by
  obtain ⟨t, v, h⟩ := x
  cases ht
  cases hv
  rfl

/-- A part of a marked variable is not whole. -/
theorem part_not_whole {l : Expr n} {v : Fin n} {k : CConstValue}
    (hleaves : constLeaves st l = if (st.ident v).isConstVar then [(l, (st.ident v).constValue)] else [])
    (hw : Whole st l) (hk : (if (st.ident v).isConstVar then some (st.ident v).constValue else none) = some k) :
    ∃ w, l = .var w := by
  split at hk
  · next hmark =>
    rw [if_pos hmark] at hleaves
    refine hw (l, (st.ident v).constValue) ?_
    rw [hleaves]
    exact .head _
  · cases hk

/-- **The value of a constant expression** is the one that `EvalConstantExpr` computes. -/
theorem eval_yields (hag : Agrees st σ) (e : Expr n) (hw : Whole st e) (hex : Exact env st σ e) {k : CConstValue}
    (hk : evalConstantExpr st e = some k) : Yields (eval env st e) σ k := by
  cases e with
  | const value =>
    obtain rfl := Option.some.inj hk
    rw [eval]
    exact Yields.pure _
  | var v =>
    rw [evalConstantExpr] at hk
    split at hk
    · next hmark =>
      obtain rfl := Option.some.inj hk
      rw [eval]
      refine ⟨rfl, fun x hx => ?_⟩
      obtain rfl : readVar st σ v = x := Option.some.inj hx
      exact val_ext hex (hag v hmark)
    · cases hk
  | bit v i =>
    rw [evalConstantExpr] at hk
    obtain ⟨w, hw⟩ := part_not_whole (by rw [constLeaves]) hw hk
    cases hw
  | range v h l =>
    rw [evalConstantExpr] at hk
    obtain ⟨w, hw⟩ := part_not_whole (by rw [constLeaves]) hw hk
    cases hw
  | field v p w =>
    rw [evalConstantExpr] at hk
    obtain ⟨w, hw⟩ := part_not_whole (by rw [constLeaves]) hw hk
    cases hw
  | unary op a =>
    rw [evalConstantExpr] at hk
    obtain ⟨ka, ha, hop⟩ := Option.bind_eq_some_iff.1 hk
    rw [eval]
    exact (eval_yields hag a hw hex ha).bind fun _ => Yields.lift hop
  | binary op a b =>
    rw [evalConstantExpr] at hk
    obtain ⟨ka, ha, hk⟩ := Option.bind_eq_some_iff.1 hk
    obtain ⟨kb, hb, hop⟩ := Option.bind_eq_some_iff.1 hk
    have hya := eval_yields hag a (fun x hx => hw x (List.mem_append_left _ hx)) hex.1 ha
    have hyb := eval_yields hag b (fun x hx => hw x (List.mem_append_right _ hx)) hex.2 hb
    by_cases hor : op = .vbarVbar
    · subst hor
      obtain rfl := Option.some.inj hop
      rw [eval]
      refine hya.bind fun _ => ?_
      split
      · next hnz =>
        rw [hnz]
        exact Yields.pure _
      · next hnz =>
        rw [Bool.eq_false_iff.2 hnz]
        exact hyb.bind fun _ => Yields.pure _
    · by_cases hand : op = .ampersandAmpersand
      · subst hand
        obtain rfl := Option.some.inj hop
        rw [eval]
        refine hya.bind fun _ => ?_
        split
        · next hnz =>
          rw [hnz]
          exact hyb.bind fun _ => Yields.pure _
        · next hnz =>
          rw [Bool.eq_false_iff.2 hnz]
          exact Yields.pure _
      · rw [eval]
        · exact hya.bind fun _ => hyb.bind fun _ => Yields.lift hop
        · exact hor
        · exact hand
  | typeCast s w b =>
    rw [evalConstantExpr] at hk
    obtain ⟨kb, hb, rfl⟩ := Option.map_eq_some_iff.1 hk
    rw [eval]
    exact (eval_yields hag b hw hex.1 hb).bind fun hval => Yields.lift (hex.2 kb hval)
  | question a b c =>
    rw [evalConstantExpr] at hk
    obtain ⟨ka, ha, hk⟩ := Option.bind_eq_some_iff.1 hk
    obtain ⟨kb, hb, hk⟩ := Option.bind_eq_some_iff.1 hk
    obtain ⟨kc, hc, hk⟩ := Option.bind_eq_some_iff.1 hk
    have hwab : ∀ x ∈ constLeaves st a ++ constLeaves st b, ∃ v, x.1 = .var v := fun x hx =>
      hw x (List.mem_append_left _ hx)
    have hya := eval_yields hag a (fun x hx => hwab x (List.mem_append_left _ hx)) hex.1 ha
    have hyb := eval_yields hag b (fun x hx => hwab x (List.mem_append_right _ hx)) hex.2.1 hb
    have hyc := eval_yields hag c (fun x hx => hw x (List.mem_append_right _ hx)) hex.2.2 hc
    rw [eval]
    refine hya.bind fun _ => ?_
    split at hk
    · next hnz =>
      obtain rfl := Option.some.inj hk
      rw [if_pos hnz]
      exact hyb
    · next hnz =>
      obtain rfl := Option.some.inj hk
      rw [if_neg hnz]
      exact hyc
  | comma a b => cases hk
  | call f ps => cases hk

/-- A leaf that is evaluated is one of a marked variable, with its value. -/
theorem mem_constLeaves (e : Expr n) {x : Expr n × CConstValue} (hx : x ∈ constLeaves st e) :
    ∃ v, (st.ident v).isConstVar ∧ getMember x.1 = some v ∧ x.2 = (st.ident v).constValue := by
  have hleaf : ∀ {l : Expr n} {v : Fin n}, getMember l = some v →
      x ∈ (if (st.ident v).isConstVar then [(l, (st.ident v).constValue)] else []) →
      ∃ v, (st.ident v).isConstVar ∧ getMember x.1 = some v ∧ x.2 = (st.ident v).constValue := by
    intro l v hl hx
    split at hx
    · next hmark =>
      obtain rfl := List.mem_singleton.1 hx
      exact ⟨v, hmark, hl, rfl⟩
    · exact absurd hx List.not_mem_nil
  cases e with
  | const k => exact absurd hx List.not_mem_nil
  | var v =>
    rw [constLeaves] at hx
    exact hleaf rfl hx
  | bit v i =>
    rw [constLeaves] at hx
    exact hleaf rfl hx
  | range v h l =>
    rw [constLeaves] at hx
    exact hleaf rfl hx
  | field v p w =>
    rw [constLeaves] at hx
    exact hleaf rfl hx
  | unary op a => exact mem_constLeaves a hx
  | typeCast s w a => exact mem_constLeaves a hx
  | binary op a b => exact (List.mem_append.1 hx).elim (mem_constLeaves a) (mem_constLeaves b)
  | comma a b => exact (List.mem_append.1 hx).elim (mem_constLeaves a) (mem_constLeaves b)
  | question a b c =>
    obtain hx | hx := List.mem_append.1 hx
    · exact (List.mem_append.1 hx).elim (mem_constLeaves a) (mem_constLeaves b)
    · exact mem_constLeaves c hx
  | call f ps => exact absurd hx List.not_mem_nil

/-! ## Good steps -/

/-- The variables that an action may change and whose marks it leaves: references, and parts of a concatenation. -/
def Action.unnoticed : {n : ℕ} → Action n → List (Fin n)
  | _, eval e | _, init e => refs e
  | _, assign target rhs => refs rhs ++ (refs target ++ if (getMember target).isNone then targets target else [])

/-- The initialiser has a value that its variable can hold, and that `EvalConstantExpr` computes. -/
def Action.ExactInit (env : Env) : {n : ℕ} → ParseState n → Store n → Action n → Prop
  | _, st, σ, init e => (evalConstantExpr st e).isSome →
    (∀ x, (ConstVar.eval env st e σ).val = some x → (st.ident newest).type.InRange x.value) ∧
      ((∃ v, e = .var v) ∨ Exact env st σ e)
  | _, _, _, _ => True

/-- The points of a step: the values, and the expression that `EvalConstantExpr` is given. -/
def Step.points (env : Env) (s : Step) : List (Store s.n × Expr s.n) := (s.action.run env s.st s.store).points

/-- **A good step**: it changes no marked variable through a reference or in a concatenation, the parser evaluates no
part of one, and a constant initialiser has its value. -/
structure GoodStep (env : Env) (s : Step) : Prop where
  unnoticed : ∀ v ∈ s.action.unnoticed, (s.st.ident v).isConstVar = false
  whole : ∀ p ∈ s.points env, Whole s.st p.2
  exact : s.action.ExactInit env s.st s.store

/-- **A sound step**: where the parser evaluates a leaf of a marked variable, the leaf has that value. -/
def SoundStep (env : Env) (s : Step) : Prop :=
  ∀ p ∈ s.points env, ∀ x ∈ constLeaves s.st p.2, ∀ y, (eval env s.st x.1 p.1).val = some y → y.value = x.2.value

theorem targets_of_getMember (e : Expr n) {v : Fin n} (h : getMember e = some v) : targets e = [v] := by
  cases e with
  | var w | bit w _ | range w _ _ | field w _ _ =>
    cases h
    rfl
  | typeCast s w b => exact targets_of_getMember b h
  | const _ | unary _ _ | binary _ _ _ | question _ _ _ | comma _ _ | call _ _ => cases h

/-- The points in the left operand of an assignment to one variable are before it is assigned. -/
theorem assignTo_points (env : Env) (st : ParseState n) (e : Expr n) (x : Int) {v : Fin n} (h : getMember e = some v)
    (hsub : refs e ⊆ vs) : Points (Unchanged vs) (assignTo env st e x) := by
  have hsilent : ∀ {w : Fin n} {low width : ℕ}, Points (Unchanged vs) (writeBits st w low width x) :=
    fun _ _ hp => absurd hp List.not_mem_nil
  cases e with
  | var w =>
    rw [assignTo]
    exact fun _ _ hp => absurd hp List.not_mem_nil
  | field w p width =>
    rw [assignTo]
    exact hsilent
  | bit w i =>
    rw [assignTo]
    exact Points.bind Unchanged.trans (eval_keeps env st i hsub) fun _ => hsilent
  | range w high low =>
    rw [refs, List.append_subset] at hsub
    rw [assignTo]
    refine Points.bind Unchanged.trans (Keeps.note (Unchanged.refl vs) high) fun _ => ?_
    refine Points.bind Unchanged.trans (eval_keeps env st high hsub.1) fun _ => ?_
    refine Points.bind Unchanged.trans (keeps_noteIf _ low) fun _ => ?_
    exact Points.bind Unchanged.trans (eval_keeps env st low hsub.2) fun _ => hsilent
  | typeCast s w b =>
    rw [assignTo]
    exact assignTo_points env st b x h hsub
  | const _ | unary _ _ | binary _ _ _ | question _ _ _ | comma _ _ | call _ _ => cases h

/-- **At the points of an action** the variables that it does not change unnoticed are as before it. -/
theorem action_points (env : Env) (st : ParseState n) (a : Action n) : Points (Unchanged a.unnoticed) (a.run env st) := by
  cases a with
  | eval e => exact Points.of_keeps (eval_keeps env st e (List.Subset.refl _))
  | assign target rhs =>
    have hrhs : Keeps (Unchanged (Action.assign target rhs).unnoticed) (eval env st rhs) :=
      eval_keeps env st rhs (List.subset_append_left _ _)
    have htarget : refs target ⊆ (Action.assign target rhs).unnoticed := fun _ hv =>
      List.mem_append_right _ (List.mem_append_left _ hv)
    refine Points.bind Unchanged.trans hrhs fun x => Points.bind_silent ?_ fun _ _ => rfl
    cases hmember : getMember target with
    | some v => exact assignTo_points env st target x.value hmember htarget
    | none =>
      refine Points.of_keeps (assignTo_keeps env st target x.value (fun v hv => ?_) htarget)
      refine List.mem_append_right _ (List.mem_append_right _ ?_)
      rw [if_pos (by rw [hmember]; rfl)]
      exact hv
  | init e =>
    refine Points.bind Unchanged.trans (Keeps.note (Unchanged.refl _) e) fun _ => ?_
    refine Points.bind Unchanged.trans (eval_keeps env st e (List.Subset.refl _)) fun x => ?_
    exact Points.bind_silent (fun _ _ hp => absurd hp List.not_mem_nil) fun _ _ => rfl

/-- **A good step from values that agree is sound.** -/
theorem GoodStep.sound {s : Step} (hgood : GoodStep env s) (hag : Agrees s.st s.store) : SoundStep env s := by
  intro p hp x hx y hy
  obtain ⟨v, hmark, hmember, hval⟩ := mem_constLeaves p.2 hx
  obtain ⟨w, hw⟩ := hgood.whole p hp x hx
  rw [hw] at hmember hy
  obtain rfl := Option.some.inj hmember
  rw [eval] at hy
  obtain rfl : readVar s.st p.1 w = y := Option.some.inj hy
  have hsame : p.1 w = s.store w := by
    refine action_points env s.st s.action s.store p hp w fun hin => ?_
    have hfalse := hgood.unnoticed w hin
    rw [hmark] at hfalse
    cases hfalse
  rw [hval, ← hag w hmark]
  unfold readVar
  rw [hsame]

/-! ## What parsing leaves -/

/-- The marks that are left were set before. -/
def Weaker (st' st : ParseState n) : Prop := ∀ v, (st'.ident v).isConstVar → st'.ident v = st.ident v

namespace Weaker

variable {st₁ st₂ st₃ : ParseState n}

theorem refl (st : ParseState n) : Weaker st st := fun _ _ => rfl

theorem trans (h₁ : Weaker st₁ st₂) (h₂ : Weaker st₂ st₃) : Weaker st₁ st₃ := by
  intro v hv
  have h := h₁ v hv
  rw [h] at hv ⊢
  exact h₂ v hv

theorem agrees (h : Weaker st₁ st₂) (hag : Agrees st₂ σ) : Agrees st₁ σ := by
  intro v hv
  have hident := h v hv
  unfold readVar
  rw [hident] at hv ⊢
  exact hag v hv

theorem clear (st : ParseState n) (v : Fin n) : Weaker (st.clear v) st := by
  intro w hw
  unfold ParseState.clear at hw ⊢
  by_cases hwv : w = v
  · subst hwv
    simp at hw
  · exact Function.update_of_ne hwv _ _

theorem assigned (st : ParseState n) (target : Expr n) : Weaker (st.assigned target) st := by
  unfold ParseState.assigned
  split
  · exact refl st
  · exact clear st _

/-- One after the other. -/
theorem foldl {f : ParseState n → Int → ParseState n} (h : ∀ i st, Weaker (f st i) st) (is : List Int) (st : ParseState n) :
    Weaker (is.foldl f st) st := by
  induction is generalizing st with
  | nil => exact refl st
  | cons i is ih => exact (ih (f st i)).trans (h i st)

end Weaker

theorem getMember_var_zero : getMember (.var (0 : Fin (n + 1))) = some 0 := rfl

theorem declare_zero (st : ParseState n) (type : VarType) :
    (st.declare type).ident 0 = ⟨type, st.statementNestLevel, false, .of int32 0⟩ := rfl

theorem declare_succ (st : ParseState n) (type : VarType) (v : Fin n) : (st.declare type).ident v.succ = st.ident v := rfl

/-- The `{ v = 0; }` before an initialiser has no mark to clear. -/
theorem declare_assigned (st : ParseState n) (type : VarType) : (st.declare type).assigned (.var 0) = st.declare type := by
  have hclear : { (st.declare type).ident 0 with isConstVar := false } = (st.declare type).ident 0 := rfl
  unfold ParseState.assigned ParseState.clear
  simp only [getMember_var_zero, hclear, Function.update_eq_self]

theorem mark_of_ne {v w : Fin n} (h : w ≠ v) (k : CConstValue) : (st.mark v k).ident w = st.ident w := by
  unfold ParseState.mark
  simp only [Function.update_of_ne h]

/-- An initialiser marks its variable, or does not. -/
theorem init_parse (st : ParseState n) (type : VarType) (e : Expr (n + 1)) :
    (∃ k, evalConstantExpr (st.declare type) e = some k ∧
      (Action.init e).parse (st.declare type) = (st.declare type).mark 0 k) ∨
    (Action.init e).parse (st.declare type) = st.declare type := by
  have hclear : (st.declare type).clear 0 = st.declare type := declare_assigned st type
  have hunfold : (Action.init e).parse (st.declare type) =
      handleIntegerConstantPropagation ((st.declare type).assigned (.var 0)) (.var 0) e := rfl
  rw [hunfold, declare_assigned]
  unfold handleIntegerConstantPropagation
  rw [getMember_var_zero]
  cases hk : evalConstantExpr (st.declare type) e with
  | none => exact .inr hclear
  | some k =>
    simp only
    split
    · exact .inl ⟨k, rfl, rfl⟩
    · exact .inr hclear

theorem init_parse_succ (st : ParseState n) (type : VarType) (e : Expr (n + 1)) (v : Fin n) :
    ((Action.init e).parse (st.declare type)).ident v.succ = st.ident v := by
  obtain ⟨k, -, h⟩ | h := init_parse st type e
  · rw [h]
    rw [mark_of_ne (Fin.succ_ne_zero v), declare_succ]
  · rw [h]
    rfl

/-- **Parsing never marks a variable that is in scope before.** -/
theorem parse_weaker : {n : ℕ} → (l : Stmts n) → (st : ParseState n) → Weaker (parse l st) st
  | _, .nil, st => Weaker.refl st
  | _, .decl type none next, st => by
    intro v hv
    exact parse_weaker next (st.declare type) v.succ hv
  | _, .decl type (some e) next, st => by
    intro v hv
    have h := parse_weaker next ((Action.init e).parse (st.declare type)) v.succ hv
    exact h.trans (init_parse_succ st type e v)
  | _, .assign target _ next, st => (parse_weaker next _).trans (Weaker.assigned st target)
  | _, .assignOp _ target _ next, st => (parse_weaker next _).trans (Weaker.assigned st target)
  | _, .incDec _ target next, st => (parse_weaker next _).trans (Weaker.assigned st target)
  | _, .expr _ next, st => parse_weaker next st
  | _, .ite _ a b next, st => by
    have ha : Weaker (parse a st.nest) st := parse_weaker a st.nest
    have hb := (parse_weaker b (parse a st.nest)).trans ha
    exact (parse_weaker next (parse b (parse a st.nest)).unnest).trans hb
  | _, .switch _ cases next, st => by
    have hcases : Weaker (parse cases st.nest) st := parse_weaker cases st.nest
    exact (parse_weaker next (parse cases st.nest).unnest).trans hcases
  | _, .caseOf _ body next, st => (parse_weaker next _).trans (parse_weaker body st)
  | _, .default body next, st => (parse_weaker next _).trans (parse_weaker body st)
  | _, .compound body next, st => (parse_weaker next _).trans (parse_weaker body st)
  | _, .forLoop loop body next, st =>
    (parse_weaker next _).trans (Weaker.foldl (fun i st => parse_weaker (body i) st) loop.values st)
  | _, .brk next, st => parse_weaker next st
  | _, .ret none next, st => parse_weaker next st
  | _, .ret (some _) next, st => parse_weaker next st

/-! ## Executions -/

theorem wrap_of_inRange {t : VarType} {x : Int} (h : t.InRange x) : t.wrap x = x := by
  unfold VarType.InRange at h
  unfold VarType.wrap
  split
  · next hs =>
    rw [if_pos hs] at h
    rw [Int.emod_eq_of_lt (by omega) (by omega)]
    omega
  · next hs =>
    rw [if_neg hs] at h
    exact Int.emod_eq_of_lt h.1 h.2

/-- What an assignment of marked variables leaves: the left operand is cleared, and nothing else has changed. -/
theorem assign_agrees {target rhs : Expr n} (hag : Agrees st σ)
    (hgood : ∀ v ∈ (Action.assign target rhs).unnoticed, (st.ident v).isConstVar = false) :
    Agrees (st.assigned target) ((Action.assign target rhs).run env st σ).state := by
  have hkeeps : Keeps (Unchanged (refs rhs ++ (refs target ++ targets target))) ((Action.assign target rhs).run env st) := by
    have hsub : refs target ++ targets target ⊆ refs rhs ++ (refs target ++ targets target) := List.subset_append_right _ _
    rw [List.append_subset] at hsub
    refine keeps_bind (eval_keeps env st rhs (List.subset_append_left _ _)) fun x => ?_
    exact keeps_bind (assignTo_keeps env st target x.value hsub.2 hsub.1) fun _ => keeps_pure _
  intro v hv
  have hident := Weaker.assigned st target v hv
  -- a marked variable is neither referenced nor a target
  have hnot : v ∉ refs rhs ++ (refs target ++ targets target) := by
    intro hin
    have hmark : (st.ident v).isConstVar = true := hident ▸ hv
    have hfalse : v ∉ (Action.assign target rhs).unnoticed := by
      intro hun
      have hno := hgood v hun
      rw [hmark] at hno
      cases hno
    apply hfalse
    obtain hin | hin := List.mem_append.1 hin
    · exact List.mem_append_left _ hin
    · obtain hin | hin := List.mem_append.1 hin
      · exact List.mem_append_right _ (List.mem_append_left _ hin)
      · refine List.mem_append_right _ (List.mem_append_right _ ?_)
        cases hmember : getMember target with
        | none => exact hin
        | some w =>
          rw [targets_of_getMember target hmember] at hin
          obtain rfl := List.mem_singleton.1 hin
          unfold ParseState.assigned ParseState.clear at hv
          rw [hmember] at hv
          simp at hv
  have hsame := (hkeeps σ).1 v hnot
  unfold readVar
  rw [hident, hsame]
  exact hag v (hident ▸ hv)

/-- A declaration comes into scope. -/
theorem declare_agrees (hag : Agrees st σ) (type : VarType) (x : Int) : Agrees (st.declare type) (Store.declare x σ) := by
  intro v hv
  cases v using Fin.cases with
  | zero =>
    rw [declare_zero] at hv
    cases hv
  | succ v => exact hag v hv

/-- **An initialiser** leaves its variable with the value that the parser has marked it with. -/
theorem init_agrees {type : VarType} {e : Expr (n + 1)} {σ : Store (n + 1)} (hag : Agrees (st.declare type) σ)
    (hgood : GoodStep env ⟨n + 1, st.declare type, σ, .init e⟩) {x : CConstValue}
    (hx : ((Action.init e).run env (st.declare type) σ).val = some x) :
    Agrees ((Action.init e).parse (st.declare type)) ((Action.init e).run env (st.declare type) σ).state := by
  have hnote : (eval env (st.declare type) e σ).val = some x ∧ ((Action.init e).run env (st.declare type) σ).state =
      Function.update (eval env (st.declare type) e σ).state 0 (type.wrap x.value) := by
    obtain ⟨_, -, hx⟩ := Prog.bind_val hx
    obtain ⟨y, hy, hx⟩ := Prog.bind_val hx
    obtain rfl : y = x := Option.some.inj hx
    have hy : (eval env (st.declare type) e σ).val = some y := hy
    refine ⟨hy, ?_⟩
    change (Prog.bind (eval env (st.declare type) e) _ σ).state = _
    unfold Prog.bind
    rw [hy]
    rfl
  obtain ⟨hval, hstate⟩ := hnote
  rw [hstate]
  intro v hv
  cases v using Fin.cases with
  | zero =>
    obtain ⟨k, hk, hparse⟩ | hparse := init_parse st type e
    · obtain ⟨hrange, hexact⟩ := hgood.exact (by rw [hk]; rfl)
      have hk' : x.value = k.value := by
        obtain ⟨w, rfl⟩ | hexact := hexact
        · -- the whole variable, of whatever type
          rw [evalConstantExpr] at hk
          split at hk
          · next hmark =>
            obtain rfl := Option.some.inj hk
            rw [eval] at hval
            obtain rfl : readVar (st.declare type) σ w = x := Option.some.inj hval
            exact hag w hmark
          · cases hk
        · have hwhole : Whole (st.declare type) e := hgood.whole (σ, e) (by
            change (σ, e) ∈ (Prog.bind (Prog.note e) _ σ).points
            exact List.mem_append_left _ (.head _))
          rw [(eval_yields hag e hwhole hexact hk).2 x hval]
      have hin := hrange x hval
      rw [hparse]
      unfold readVar ParseState.mark
      simp only [Function.update_self]
      rw [declare_zero] at hin ⊢
      rw [wrap_of_inRange hin, Val.of_value (type.fits x.value hin), hk']
    · rw [hparse, declare_zero] at hv
      cases hv
  | succ v =>
    rw [init_parse_succ] at hv
    have hnot : v.succ ∉ refs e := by
      intro hin
      have hno := hgood.unnoticed v.succ hin
      rw [declare_succ, hv] at hno
      cases hno
    have hsame : (eval env (st.declare type) e σ).state v.succ = σ v.succ :=
      (eval_keeps env (st.declare type) e (List.Subset.refl _) σ).1 v.succ hnot
    have hold := hag v.succ hv
    unfold readVar at hold ⊢
    rw [init_parse_succ, Function.update_of_ne (Fin.succ_ne_zero v), hsame]
    rw [declare_succ] at hold
    exact hold

theorem eval_agrees {e : Expr n} (hag : Agrees st σ)
    (hgood : ∀ v ∈ (Action.eval e).unnoticed, (st.ident v).isConstVar = false) :
    Agrees st ((Action.eval e).run env st σ).state := by
  intro v hv
  have hnot : v ∉ refs e := by
    intro hin
    have hno := hgood v hin
    rw [hv] at hno
    cases hno
  have hsame := (eval_keeps env st e (List.Subset.refl _) σ).1 v hnot
  have hrun : (Action.eval e).run env st σ = eval env st e σ := rfl
  unfold readVar
  rw [hrun, hsame]
  exact hag v hv

/-- If the steps are good they are sound, and an execution that goes on leaves values that agree. -/
def Visit.Holds (env : Env) (v : Visit n) (st : ParseState n) : Prop :=
  (∀ s ∈ v.steps, GoodStep env s) → (∀ s ∈ v.steps, SoundStep env s) ∧ (v.exit ≠ .stop → Agrees st v.store)

namespace Visit.Holds

variable {v : Visit n} {st₁ st₂ : ParseState n}

theorem done {exit : Exit} (hag : Agrees st σ) : Visit.Holds env ⟨[], σ, exit⟩ st :=
  fun _ => ⟨fun _ hs => absurd hs List.not_mem_nil, fun _ => hag⟩

theorem mono (hv : v.Holds env st₁) (hskip : Weaker st₂ st₁) : v.Holds env st₂ :=
  fun hgood => ⟨(hv hgood).1, fun hexit => hskip.agrees ((hv hgood).2 hexit)⟩

theorem andThen {rest : Store n → Visit n} (hv : v.Holds env st₁) (hskip : Weaker st₂ st₁)
    (hrest : ∀ σ, Agrees st₁ σ → (rest σ).Holds env st₂) : (v.andThen rest).Holds env st₂ := by
  unfold Visit.andThen
  split
  · next hnext =>
    intro hgood
    obtain ⟨hsound, hag⟩ := hv fun s hs => hgood s (List.mem_append_left _ hs)
    have hag := hag (by rw [hnext]; exact Exit.noConfusion)
    obtain ⟨hsound', hag'⟩ := hrest v.store hag fun s hs => hgood s (List.mem_append_right _ hs)
    refine ⟨fun s hs => ?_, hag'⟩
    exact (List.mem_append.1 hs).elim (hsound s) (hsound' s)
  · exact hv.mono hskip

theorem endSwitch (hv : v.Holds env st) : v.endSwitch.Holds env st := by
  unfold Visit.endSwitch
  split
  · next hbrk =>
    intro hgood
    obtain ⟨hsound, hag⟩ := hv hgood
    exact ⟨hsound, fun _ => hag (by rw [hbrk]; exact Exit.noConfusion)⟩
  · exact hv

theorem drop {v : Visit (n + 1)} {st : ParseState (n + 1)} (hv : v.Holds env st) : v.drop.Holds env st.drop := by
  intro hgood
  obtain ⟨hsound, hag⟩ := hv hgood
  exact ⟨hsound, fun hexit w hw => hag hexit w.succ hw⟩

/-- **One action**: it is sound, and after it the values agree. -/
theorem step {a : Action n} {rest : CConstValue → ParseState n → Store n → Visit n} (hag : Agrees st σ)
    (hafter : GoodStep env ⟨n, st, σ, a⟩ → ∀ x, (a.run env st σ).val = some x →
      Agrees (a.parse st) (a.run env st σ).state)
    (hrest : ∀ x σ', Agrees (a.parse st) σ' → (rest x (a.parse st) σ').Holds env st₂) :
    (Visit.step env a st σ rest).Holds env st₂ := by
  unfold Visit.step
  split
  · intro hgood
    refine ⟨fun s hs => ?_, fun hexit => absurd rfl hexit⟩
    obtain rfl := List.mem_singleton.1 hs
    exact (hgood _ (.head _)).sound hag
  · next x hx =>
    intro hgood
    have hfirst := hgood _ (.head _)
    obtain ⟨hsound, hag'⟩ := hrest x _ (hafter hfirst x hx) fun s hs => hgood s (.tail _ hs)
    refine ⟨fun s hs => ?_, hag'⟩
    obtain rfl | hs := List.mem_cons.1 hs
    · exact hfirst.sound hag
    · exact hsound s hs

theorem evalStep {e : Expr n} {rest : CConstValue → ParseState n → Store n → Visit n} (hag : Agrees st σ)
    (hrest : ∀ x σ', Agrees st σ' → (rest x st σ').Holds env st₂) :
    (Visit.step env (.eval e) st σ rest).Holds env st₂ :=
  step hag (fun hgood _ _ => eval_agrees hag hgood.unnoticed) hrest

theorem assignStep {target rhs : Expr n} {rest : CConstValue → ParseState n → Store n → Visit n} (hag : Agrees st σ)
    (hrest : ∀ x σ', Agrees (st.assigned target) σ' → (rest x (st.assigned target) σ').Holds env st₂) :
    (Visit.step env (.assign target rhs) st σ rest).Holds env st₂ :=
  step hag (fun hgood _ _ => assign_agrees hag hgood.unnoticed) hrest

theorem iterate {body : Int → ParseState n → Store n → Visit n} {parseBody : ParseState n → Int → ParseState n}
    (hbody : ∀ i st σ, Agrees st σ → (body i st σ).Holds env (parseBody st i))
    (hweaker : ∀ (is : List Int) (st : ParseState n), Weaker (is.foldl parseBody st) st) (is : List Int) :
    ∀ (st : ParseState n) (σ : Store n), Agrees st σ →
      (Visit.iterate body parseBody is st σ).Holds env (is.foldl parseBody st) := by
  induction is with
  | nil => exact fun st σ hag => done hag
  | cons i is ih => exact fun st σ hag => (hbody i st σ hag).andThen (hweaker is _) fun σ hag => ih _ σ hag

end Visit.Holds

open Visit.Holds in
/-- **A list** that starts from values that agree. -/
theorem visit_holds (env : Env) : {n : ℕ} → (l : Stmts n) → (m : Mode) → (st : ParseState n) → (σ : Store n) →
    Agrees st σ → (visit env l m st σ).Holds env (parse l st)
  | _, .nil, _, _, _, hag => done hag
  | _, .decl type none next, _, _, _, hag => (visit_holds env next .run _ _ (declare_agrees hag type _)).drop
  | _, .decl type (some e) next, _, st, σ, hag => by
    have hag' := declare_agrees hag type (env.uninit (List.ofFn σ))
    refine (step hag' (fun hgood x hx => init_agrees hag' hgood hx) fun _ σ' hσ' => ?_).drop
    exact visit_holds env next .run _ σ' hσ'
  | _, .assign _ _ next, _, _, _, hag => assignStep hag fun _ σ' hσ' => visit_holds env next .run _ σ' hσ'
  | _, .assignOp _ _ _ next, _, _, _, hag => assignStep hag fun _ σ' hσ' => visit_holds env next .run _ σ' hσ'
  | _, .incDec _ _ next, _, _, _, hag => assignStep hag fun _ σ' hσ' => visit_holds env next .run _ σ' hσ'
  | _, .expr _ next, _, _, _, hag => evalStep hag fun _ σ' hσ' => visit_holds env next .run _ σ' hσ'
  | _, .ite e a b next, _, st, σ, hag => by
    have hnest : Agrees st.nest σ := hag
    refine evalStep hnest fun x σ' hσ' => ?_
    have hbranch : (if x.nonzero then visit env a .run st.nest σ' else visit env b .run (parse a st.nest) σ').Holds env
        (parse b (parse a st.nest)) := by
      split
      · exact (visit_holds env a .run st.nest σ' hσ').mono (parse_weaker b _)
      · exact visit_holds env b .run _ σ' ((parse_weaker a st.nest).agrees hσ')
    exact hbranch.andThen (parse_weaker next _) fun σ hσ => visit_holds env next .run _ σ hσ
  | _, .switch e cases next, _, st, σ, hag => by
    have hnest : Agrees st.nest σ := hag
    refine evalStep hnest fun x σ' hσ' => ?_
    exact (visit_holds env cases _ st.nest σ' hσ').endSwitch.andThen (parse_weaker next _) fun σ hσ =>
      visit_holds env next .run _ σ hσ
  | _, .caseOf k body next, m, st, σ, hag => by
    rw [visit]
    split
    · exact (visit_holds env body .run st σ hag).andThen (parse_weaker next _) fun σ hσ =>
        visit_holds env next .run _ σ hσ
    · exact visit_holds env next m _ σ ((parse_weaker body st).agrees hag)
  | _, .default body next, m, st, σ, hag => by
    rw [visit]
    split
    · exact (visit_holds env body .run st σ hag).andThen (parse_weaker next _) fun σ hσ =>
        visit_holds env next .run _ σ hσ
    · exact visit_holds env next m _ σ ((parse_weaker body st).agrees hag)
  | _, .compound body next, _, st, σ, hag =>
    (visit_holds env body .run st σ hag).andThen (parse_weaker next _) fun σ hσ => visit_holds env next .run _ σ hσ
  | _, .forLoop loop body next, _, st, σ, hag => by
    have hloop := iterate (fun i st σ hag => visit_holds env (body i) .run st σ hag)
      (Weaker.foldl fun i st => parse_weaker (body i) st) loop.values st σ hag
    exact hloop.andThen (parse_weaker next _) fun σ hσ => visit_holds env next .run _ σ hσ
  | _, .brk next, _, st, _, hag => (done hag).mono (parse_weaker next st)
  | _, .ret none next, _, st, _, hag => (done hag).mono (parse_weaker next st)
  | _, .ret (some _) next, _, st, _, hag =>
    evalStep hag fun _ _ hσ' => (done hσ').mono (parse_weaker next st)

/-- No variable is marked. -/
def Unmarked (st : ParseState n) : Prop := ∀ v, (st.ident v).isConstVar = false

/-- `int` -/
def intType : VarType := ⟨32, true, int32, by decide, fun _ h => h⟩

/-- A method of `int x, a;`, and its declaration of `i`. -/
def entry : ParseState 2 := ⟨fun _ => ⟨intType, 0, false, .of int32 0⟩, 0⟩

/-- `x = a(i, 0);` -/
def readRange : Action 3 := .assign (.var 1) (.range 2 (.var 0) (.const (.of int32 0)))

/-- `int i = 1; x = a(i, 0);` -/
def initialised : Stmts 2 :=
  .decl intType (some (.const (.of int32 1))) (.assign (.var 1) (.range 2 (.var 0) (.const (.of int32 0))) .nil)

/-- Calls of functions that assign 5 to their references. -/
def fives : Env := ⟨fun _ _ => (.of int32 0, [5]), fun _ => 0, fun x _ => x⟩

/-- The parser behind the initialiser. -/
def marked : ParseState 3 := (Action.init (.const (.of int32 1))).parse (entry.declare intType)

/-- The values of `i`, `x` and `a` when `i` is 1. -/
def values : Store 3 := Function.update (Store.declare 0 fun _ => 0) 0 1

theorem initialised_good : ∀ s ∈ (visit fives initialised .run entry fun _ => 0).steps, GoodStep fives s := by
  have hsteps : (visit fives initialised .run entry fun _ => 0).steps =
      [⟨3, entry.declare intType, Store.declare 0 fun _ => 0, .init (.const (.of int32 1))⟩,
        ⟨3, marked, values, readRange⟩] := rfl
  rw [hsteps]
  intro s hs
  obtain rfl | hs := List.mem_cons.1 hs
  · refine ⟨fun v hv => absurd hv List.not_mem_nil, fun p hp => ?_, fun _ => ⟨fun x hx => ?_, .inr trivial⟩⟩
    · obtain rfl := List.mem_singleton.1 hp
      exact fun x hx => absurd hx List.not_mem_nil
    · obtain rfl := Option.some.inj hx
      decide
  · obtain rfl := List.mem_singleton.1 hs
    refine ⟨fun v hv => absurd hv List.not_mem_nil, fun p hp => ?_, trivial⟩
    obtain rfl | hp := List.mem_cons.1 hp
    · intro x hx
      obtain rfl := List.mem_singleton.1 hx
      exact ⟨0, rfl⟩
    · obtain rfl := List.mem_singleton.1 hp
      exact fun x hx => absurd hx List.not_mem_nil

/-- `int i = 1; f(i); x = a(i, 0);` -/
def passed : Stmts 2 :=
  .decl intType (some (.const (.of int32 1))) (.expr (.call 0 (.ref (.var 0) .nil))
    (.assign (.var 1) (.range 2 (.var 0) (.const (.of int32 0))) .nil))

end OpenHT.Htfe.ConstVar
