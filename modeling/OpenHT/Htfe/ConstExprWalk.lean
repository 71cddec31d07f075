import OpenHT.Htfe.ConstExprValue

/-!
# `ParseConstExpr` as a walk over the tokens

The frames behind the two stacks of every open call, in one list, and what one token does to them.

* `closes`, `step`, `walk`: one token, and all of them.
* `Sim`, `Follows`: a result of the code next to one of the walk.
* `Stacks`: the frames behind the stacks of one call.
* `parseConstExpr_walk`: the code walks over its tokens.
-/

namespace OpenHT.Htfe.ConstExpr

open OpPrec

abbrev CFrame := Frame Const UnOp ConstOp

abbrev CMode := Mode Const UnOp ConstOp

/-! ## The walk -/

def isPre : CFrame → Bool
  | .pre _ => true
  | _ => false

/-- A prefix operator was read last. -/
def topPre (fs : List CFrame) : Bool := fs.head?.any isPre

def isBang : CFrame → Bool
  | .pre .bang => true
  | _ => false

/-- Close the frames that do not admit an operator of precedence `p`, which needs their values. -/
def closes (p : ℕ) : List CFrame → CExpr → Res (List CFrame × CExpr)
  | [], t => .done ([], t)
  | f :: fs, t =>
    if f.Admits grammar p then .done (f :: fs, t)
    else if isBang f then .fault
    else if (kValue (f.close t)).isSome then closes p fs (f.close t)
    else .undef

def endLevel : Option CTok → ℕ
  | some (.sym (.bin o)) => o.prec
  | some .question => 14
  | _ => 15

/-- The expression goes on. -/
def isOperator : Option CTok → Bool
  | some (.sym (.bin _)) | some .question => true
  | _ => false

/-- What becomes of the frames that are left, or the tree when there are none. -/
def shift (fs : List CFrame) (t : CExpr) (k : Option CTok) : Res (CMode ⊕ CExpr) :=
  match k with
  | some (.sym (.bin o)) => .done (.inl (.operand (.bin t o :: fs)))
  | some .question => .done (.inl (.operand (.quest t :: fs)))
  | k =>
    match fs, k with
    | [], _ => .done (.inr t)
    | .paren :: fs, some .rParen => .done (.inl (.operator fs (.paren t)))
    | .paren :: _, _ => .fail (some "Expected a )")
    | .quest c :: fs, some .colon => .done (.inl (.operand (.cond c t :: fs)))
    | .quest _ :: _, _ => .fail (some "Expected a :")
    | _, _ => .fault

/-- One token, or the end of the text. -/
def step : CMode → Option CTok → Res (CMode ⊕ CExpr)
  | .operand fs, some (.atom c) => .done (.inl (.operator fs (.atom c)))
  | .operand fs, some .lParen => .done (.inl (.operand (.paren :: fs)))
  | .operand fs, some (.sym s) =>
    match asPre s with
    | some u => if topPre fs then .fail none else .done (.inl (.operand (.pre u :: fs)))
    | none => .fail none
  | .operand _, _ => .fail none
  | .operator fs t, k => do
    let r ← closes (endLevel k) fs t
    shift r.1 r.2 k

def walk : CMode → List CTok → Res (CExpr × List CTok)
  | m, [] => step m none >>= fun
    | .inl _ => .fault
    | .inr t => .done (t, [])
  | m, k :: ts => step m (some k) >>= fun
    | .inl m => walk m ts
    | .inr t => .done (t, k :: ts)

/-- The walk after a step. -/
def resume (ts : List CTok) : CMode ⊕ CExpr → Res (CExpr × List CTok)
  | .inl m => walk m ts.tail
  | .inr t => .done (t, ts)

theorem walk_cons (m : CMode) (k : CTok) (ts : List CTok) :
    walk m (k :: ts) = step m (some k) >>= resume (k :: ts) := by
  rw [walk]
  congr 1

/-- No frame is shifted at the end of the text. -/
theorem shift_none {fs : List CFrame} {t : CExpr} {m : CMode} : shift fs t none ≠ .done (.inl m) := by
  intro h
  cases fs with
  | nil => cases h
  | cons f fs => cases f <;> cases h

theorem walk_operator (fs : List CFrame) (t : CExpr) (ts : List CTok) :
    walk (.operator fs t) ts =
      closes (endLevel ts.head?) fs t >>= fun r => shift r.1 r.2 ts.head? >>= resume ts := by
  cases ts with
  | nil =>
    rw [walk, step, Res.bind_assoc]
    congr 1
    funext r
    change _ = shift r.1 r.2 none >>= resume []
    -- nothing is shifted, so that it does not matter what would follow
    cases hr : shift r.1 r.2 none with
    | done x =>
      cases x with
      | inl m => exact absurd hr shift_none
      | inr t => rfl
    | _ => rfl
  | cons k ts =>
    rw [walk_cons, step, Res.bind_assoc]
    rfl

/-! ## Two results -/

section Results

variable {α β γ δ : Type} {R : α → β → Prop} {S : γ → δ → Prop} {x : Res α} {y : Res β}

/-- The results agree, with values that are related. -/
def Sim (R : α → β → Prop) : Res α → Res β → Prop
  | .done a, .done b => R a b
  | .fail msg, .fail msg' => msg = msg'
  | .fault, .fault => True
  | .undef, .undef => True
  | _, _ => False

theorem Sim.bind {f : α → Res γ} {g : β → Res δ} (h : Sim R x y) (hf : ∀ a b, R a b → Sim S (f a) (g b)) :
    Sim S (x >>= f) (y >>= g) := by
  cases x with
  | done a =>
    cases y with
    | done b => exact hf a b h
    | _ => exact h.elim
  | _ =>
    cases y with
    | done b => exact h.elim
    | _ => exact h

end Results

/-- The frames of the calls around an expression, up to the token it may end before. -/
def Base (outer : List CFrame) : Prop := ∀ f ∈ outer.head?, ¬f.Closes

/-- A call that returns leaves the walk where the frames around it take the tree; otherwise the walk ends as it. -/
def Follows (outer : List CFrame) (n : ℕ) (r : Res (CConstValue × List CTok)) (w : Res (CExpr × List CTok)) : Prop :=
  match r with
  | .done (v, rest) => rest.length < n ∧ isOperator rest.head? = false ∧
    ∃ t, kValue t = some v ∧ w = shift outer t rest.head? >>= resume rest
  | .fail msg => w = .fail msg
  | .fault => w = .fault
  | .undef => w = .undef
  | .more => False

section

variable {outer outer' : List CFrame} {n n' : ℕ} {r : Res (CConstValue × List CTok)} {w : Res (CExpr × List CTok)}

theorem Follows.mono (h : Follows outer n r w) (hn : n ≤ n') : Follows outer n' r w := by
  cases r with
  | done p => exact ⟨Nat.lt_of_lt_of_le h.1 hn, h.2⟩
  | _ => exact h

/-- A part of the code that agrees with a part of the walk. -/
theorem Follows.bind {α β : Type} {R : α → β → Prop} {x : Res α} {y : Res β}
    {f : α → Res (CConstValue × List CTok)} {g : β → Res (CExpr × List CTok)} (h : Sim R x y)
    (hf : ∀ a b, R a b → Follows outer n (f a) (g b)) : Follows outer n (x >>= f) (y >>= g) := by
  cases x with
  | done a =>
    cases y with
    | done b => exact hf a b h
    | _ => exact h.elim
  | fail msg =>
    cases y with
    | fail msg' => exact congrArg Res.fail (Eq.symm h)
    | _ => exact h.elim
  | fault =>
    cases y with
    | fault => rfl
    | _ => exact h.elim
  | undef =>
    cases y with
    | undef => rfl
    | _ => exact h.elim
  | more =>
    cases y with
    | _ => exact h.elim

/-- A call of `ParseConstExpr` and what is done with its value. -/
theorem Follows.call {f : CConstValue × List CTok → Res (CConstValue × List CTok)} (h : Follows outer' n' r w)
    (hf : ∀ v rest t, rest.length < n' → isOperator rest.head? = false → kValue t = some v →
      Follows outer n (f (v, rest)) (shift outer' t rest.head? >>= resume rest)) : Follows outer n (r >>= f) w := by
  cases r with
  | done p =>
    obtain ⟨v, rest⟩ := p
    obtain ⟨hlt, hop, t, ht, rfl⟩ := h
    exact hf v rest t hlt hop ht
  | _ => exact h

end

/-! ## The stacks of one call -/

/-- A prefix operator on the operator stack. -/
def preTok : UnOp → EToken
  | .unaryPlus => .unaryPlus
  | .unaryMinus => .unaryMinus
  | .tilda => .tilda
  | .bang => .bang

theorem preOperand_eq (s : EToken) : preOperand s = (asPre s).map preTok := by
  cases s with
  | bin o => cases o <;> rfl
  | _ => rfl

/-- The operator of a frame. -/
def frameTok : CFrame → EToken
  | .bin _ o => .bin o
  | .pre u => preTok u
  | .cond _ _ => .question
  | .paren | .quest _ => .exprBegin

/-- The stacks of one call while it waits for an operand, with the values of the trees. -/
inductive Stacks : List CFrame → List CConstValue → List EToken → Prop
  | base : Stacks [] [] [.exprBegin]
  | bin {fs vs ops} {a : CExpr} {v : CConstValue} (o : ConstOp) (h : Stacks fs vs ops) (ha : kValue a = some v) :
    Stacks (.bin a o :: fs) (v :: vs) (.bin o :: ops)
  | pre {fs vs ops} (u : UnOp) (h : Stacks fs vs ops) : Stacks (.pre u :: fs) vs (preTok u :: ops)
  | cond {fs vs ops} {c a : CExpr} {v w : CConstValue} (h : Stacks fs vs ops) (hc : kValue c = some v)
    (ha : kValue a = some w) : Stacks (.cond c a :: fs) (w :: v :: vs) (.question :: ops)

section Stacks

variable {fs outer : List CFrame} {f : CFrame} {vs : List CConstValue} {ops : List EToken} {t : CExpr}
  {v : CConstValue} {tk : EToken}

/-- The precedence of a token for the frames, where the end of an expression comes after `?`. -/
def tokLevel (tk : EToken) : ℕ := min (getTokenPrec tk) 15

/-- The tokens that are compared with the operator stack after an operand. -/
def Reducer (tk : EToken) : Prop := (∃ o, tk = .bin o) ∨ tk = .question ∨ tk = .exprEnd

theorem ConstOp.prec_bounds (o : ConstOp) : 4 ≤ o.prec ∧ o.prec ≤ 11 := by
  cases o <;> decide

theorem tokLevel_bin (o : ConstOp) : tokLevel (.bin o) = o.prec := by
  have := o.prec_bounds
  exact Nat.min_eq_left (by change o.prec ≤ 15; omega)

theorem assocLR_bin (o : ConstOp) : isTokenAssocLR (.bin o) = true := by
  cases o <;> rfl

/-- The token reduces the operator `k`. -/
def Reduces (tk k : EToken) : Prop :=
  getTokenPrec k < getTokenPrec tk ∨ getTokenPrec tk = getTokenPrec k ∧ isTokenAssocLR tk

instance (tk k : EToken) : Decidable (Reduces tk k) := inferInstanceAs (Decidable (_ ∨ _))

theorem admits_bin {a : CExpr} {o : ConstOp} {n : ℕ} : (Frame.bin a o : CFrame).Admits grammar n ↔ n < o.prec := by
  change n < o.prec ∨ n = o.prec ∧ ¬true = true ↔ _
  simp

theorem prec_preTok (u : UnOp) : getTokenPrec (preTok u) = 3 := by
  cases u <;> rfl

/-- `IsTokenAssocLR` matters for binary operators only. -/
theorem reduces_iff (htk : Reducer tk) (hs : Stacks (f :: fs) vs ops) :
    Reduces tk (frameTok f) ↔ ¬f.Admits grammar (tokLevel tk) := by
  have hlevel : (∃ o, tk = .bin o ∧ tokLevel tk = o.prec ∧ getTokenPrec tk = o.prec ∧ isTokenAssocLR tk = true) ∨
      (tokLevel tk = 14 ∧ getTokenPrec tk = 14 ∧ isTokenAssocLR tk = false) ∨
      (tokLevel tk = 15 ∧ getTokenPrec tk = 18) := by
    rcases htk with ⟨o, rfl⟩ | rfl | rfl
    · exact Or.inl ⟨o, rfl, tokLevel_bin o, rfl, assocLR_bin o⟩
    · exact Or.inr (Or.inl ⟨rfl, rfl, rfl⟩)
    · exact Or.inr (Or.inr ⟨rfl, rfl⟩)
  cases hs with
  | bin o _ _ =>
    have hb := o.prec_bounds
    rw [admits_bin]
    change o.prec < _ ∨ _ = o.prec ∧ _ ↔ _
    rcases hlevel with ⟨o', rfl, hl, hp, ha⟩ | ⟨hl, hp, ha⟩ | ⟨hl, hp⟩
    · rw [hl, hp, ha]
      simp only [and_true]
      omega
    · rw [hl, hp]
      omega
    · rw [hl, hp]
      omega
  | pre u _ =>
    change _ ↔ ¬_ ≤ 3
    unfold Reduces
    change getTokenPrec (preTok u) < _ ∨ _ = getTokenPrec (preTok u) ∧ _ ↔ _
    rw [prec_preTok]
    rcases hlevel with ⟨o', rfl, hl, hp, ha⟩ | ⟨hl, hp, ha⟩ | ⟨hl, hp⟩
    · have hb' := o'.prec_bounds
      omega
    · omega
    · omega
  | cond _ _ _ =>
    change _ ↔ ¬_ ≤ 14
    change 14 < _ ∨ _ = 14 ∧ _ ↔ _
    rcases hlevel with ⟨o', rfl, hl, hp, ha⟩ | ⟨hl, hp, ha⟩ | ⟨hl, hp⟩
    · have hb' := o'.prec_bounds
      omega
    · rw [hl, hp, ha]
      simp
    · omega

/-! ### `ParseEvalConstExpr` -/

theorem parseEval_push {k : EToken} (h : ¬Reduces tk k) :
    parseEvalConstExpr tk vs (k :: ops) = .done (vs, tk :: k :: ops) := if_neg h

theorem parseEval_pop {k : EToken} (h : Reduces tk k) (hk : k ≠ .exprBegin) :
    parseEvalConstExpr tk vs (k :: ops) = applyTop k vs >>= fun vs => parseEvalConstExpr tk vs ops :=
  (if_pos h).trans (if_neg hk)

theorem Stacks.ops_cons (h : Stacks (f :: fs) vs ops) :
    ∃ ops', ops = frameTok f :: ops' ∧ frameTok f ≠ .exprBegin := by
  cases h with
  | bin o h ha => exact ⟨_, rfl, EToken.noConfusion⟩
  | pre u h =>
    refine ⟨_, rfl, ?_⟩
    change preTok u ≠ _
    cases u <;> exact EToken.noConfusion
  | cond h hc ha => exact ⟨_, rfl, EToken.noConfusion⟩

theorem Stacks.closes (h : Stacks fs vs ops) : ∀ f ∈ fs, f.Closes := by
  induction h with
  | base => exact fun f hf => absurd hf List.not_mem_nil
  | bin o h ha ih => exact List.forall_mem_cons.2 ⟨trivial, ih⟩
  | pre u h ih => exact List.forall_mem_cons.2 ⟨trivial, ih⟩
  | cond h hc ha ih => exact List.forall_mem_cons.2 ⟨trivial, ih⟩

/-- There is no case for `!`. -/
theorem Stacks.applyTop_bang (h : Stacks (f :: fs) vs ops) (hf : isBang f = true) :
    applyTop (frameTok f) (v :: vs) = .fault := by
  cases h with
  | pre u h =>
    cases u with
    | bang => rfl
    | _ => cases hf
  | _ => cases hf

/-- **An operator is reduced to the value of its frame**, and below are the stacks of the frames before it. -/
theorem Stacks.applyTop (h : Stacks (f :: fs) vs ops) (hf : isBang f = false) (ht : kValue t = some v) :
    ∃ vs', applyTop (frameTok f) (v :: vs) = (Res.ofOption (kValue (f.close t)) >>= fun w => .done (w :: vs')) ∧
      Stacks fs vs' ops.tail := by
  cases h with
  | @bin _ vs _ a x o h ha =>
    have hv : kValue (.bin o a t) = o.toBinOp.eval x v := by rw [kValue, ha, ht, Option.bind_some, Option.bind_some]
    refine ⟨vs, ?_, h⟩
    change _ = (Res.ofOption (kValue (.bin o a t)) >>= _)
    rw [hv]
    rfl
  | pre u h =>
    have hv : kValue (.pre u t) = kUn u v := by rw [kValue, ht, Option.bind_some]
    refine ⟨vs, ?_, h⟩
    change _ = (Res.ofOption (kValue (.pre u t)) >>= _)
    rw [hv]
    cases u with
    | bang => cases hf
    | _ => rfl
  | @cond _ vs _ c a x y h hc ha =>
    refine ⟨vs, ?_, h⟩
    change _ = (Res.ofOption (kValue (.cond c a t)) >>= _)
    rw [kValue, hc, ha, ht]
    rfl

theorem closes_admits {p : ℕ} (h : f.Admits grammar p) : closes p (f :: fs) t = .done (f :: fs, t) := if_pos h

theorem closes_cons {p : ℕ} (h : ¬f.Admits grammar p) : closes p (f :: fs) t =
    if isBang f then .fault
    else if (kValue (f.close t)).isSome then ConstExpr.closes p fs (f.close t)
    else .undef := if_neg h

/-- The calls around an expression are not closed. -/
theorem closes_base (h : Base outer) (p : ℕ) (t : CExpr) : ConstExpr.closes p outer t = .done (outer, t) := by
  cases outer with
  | nil => rfl
  | cons f fs =>
    apply closes_admits
    exact Decidable.byContradiction fun hadm => h f rfl (Frame.closes_of_not_admits hadm)

/-- What `ParseEvalConstExpr` leaves: the stacks of some of the frames, with the token on top, or one value at the end. -/
def Left (tk : EToken) (outer : List CFrame) (x : List CConstValue × List EToken) (y : List CFrame × CExpr) : Prop :=
  ∃ fs v vs ops, y.1 = fs ++ outer ∧ Stacks fs vs ops ∧ kValue y.2 = some v ∧
    if tk = .exprEnd then fs = [] ∧ x = ([v], []) else x = (v :: vs, tk :: ops)

/-- **`ParseEvalConstExpr` closes the frames that do not admit the token.** -/
theorem parseEval_closes (htk : Reducer tk) (hb : Base outer) (hs : Stacks fs vs ops) (ht : kValue t = some v) :
    Sim (Left tk outer) (parseEvalConstExpr tk (v :: vs) ops) (ConstExpr.closes (tokLevel tk) (fs ++ outer) t) := by
  induction fs generalizing t v vs ops with
  | nil =>
    rw [List.nil_append, closes_base hb]
    cases hs
    rcases htk with ⟨o, rfl⟩ | rfl | rfl
    · have hno : ¬Reduces (.bin o) .exprBegin := by
        have := o.prec_bounds
        rintro (h | ⟨h, -⟩)
        · change 17 < o.prec at h
          omega
        · change o.prec = 17 at h
          omega
      rw [parseEval_push hno]
      exact ⟨[], v, [], _, rfl, .base, ht, rfl⟩
    · exact ⟨[], v, [], _, rfl, .base, ht, rfl⟩
    · exact ⟨[], v, [], _, rfl, .base, ht, rfl, rfl⟩
  | cons f fs ih =>
    obtain ⟨ops', rfl, hk⟩ := hs.ops_cons
    by_cases hadm : f.Admits grammar (tokLevel tk)
    · have hne : tk ≠ .exprEnd := by
        rintro rfl
        exact Frame.not_admits_end (hs.closes f List.mem_cons_self) hadm
      rw [parseEval_push fun hr => (reduces_iff htk hs).1 hr hadm, List.cons_append, closes_admits hadm]
      exact ⟨f :: fs, v, vs, _, rfl, hs, ht, (if_neg hne).symm ▸ rfl⟩
    · rw [parseEval_pop ((reduces_iff htk hs).2 hadm) hk, List.cons_append, closes_cons hadm]
      cases hf : isBang f with
      | true =>
        rw [hs.applyTop_bang hf, if_pos rfl]
        trivial
      | false =>
        obtain ⟨vs', happ, hs'⟩ := hs.applyTop hf ht
        rw [happ, if_neg Bool.false_ne_true]
        cases hw : kValue (f.close t) with
        | none => trivial
        | some w => exact ih hs' hw

/-- A unary operator goes on top of every other operator. -/
theorem parseEval_pre (u : UnOp) (hs : Stacks fs vs ops) (hp : topPre fs = false) :
    parseEvalConstExpr (preTok u) vs ops = .done (vs, preTok u :: ops) := by
  have hpush {k : EToken} {ops : List EToken} (hk : 3 < getTokenPrec k) :
      parseEvalConstExpr (preTok u) vs (k :: ops) = .done (vs, preTok u :: k :: ops) := by
    apply parseEval_push
    unfold Reduces
    rw [prec_preTok]
    omega
  cases hs with
  | base => exact hpush (by decide)
  | bin o h ha =>
    have := o.prec_bounds
    exact hpush (by change 3 < o.prec; omega)
  | pre u' h => cases hp
  | cond h hc ha => exact hpush (by decide)

end Stacks

/-! ## One turn of the loop -/

section Turn

variable {fs outer : List CFrame} {vs : List CConstValue} {ops : List EToken} {t : CExpr} {v : CConstValue}
  {call : List CTok → Res (CConstValue × List CTok)}
  {next : List CConstValue → List EToken → List CTok → Res (CConstValue × List CTok)} {n : ℕ} {ts : List CTok}

/-- The calls of a turn follow the walk on fewer than `n` tokens. -/
def CallFollows (call : List CTok → Res (CConstValue × List CTok)) (n : ℕ) : Prop :=
  ∀ outer ts, Base outer → ts.length < n → Follows outer ts.length (call ts) (walk (.operand outer) ts)

/-- So does the next turn, which does not come after a unary operator. -/
def NextFollows (next : List CConstValue → List EToken → List CTok → Res (CConstValue × List CTok))
    (outer : List CFrame) (n : ℕ) : Prop :=
  ∀ fs vs ops ts, Stacks fs vs ops → topPre fs = false → ts.length < n →
    Follows outer ts.length (next vs ops ts) (walk (.operand (fs ++ outer)) ts)

theorem shift_paren {k : Option CTok} (hop : isOperator k = false) (hk : k ≠ some .rParen) :
    shift (.paren :: fs) t k = .fail (some "Expected a )") := by
  rcases k with _ | (_ | s | _ | _ | _ | _)
  any_goals rfl
  · cases s with
    | bin o => cases hop
    | _ => rfl
  · exact absurd rfl hk
  · cases hop

theorem shift_quest {c : CExpr} {k : Option CTok} (hop : isOperator k = false) (hk : k ≠ some .colon) :
    shift (.quest c :: fs) t k = .fail (some "Expected a :") := by
  rcases k with _ | (_ | s | _ | _ | _ | _)
  any_goals rfl
  · cases s with
    | bin o => cases hop
    | _ => rfl
  · cases hop
  · exact absurd rfl hk

/-- **After an operand** the code closes the operators that the next token does not fit below, and goes on. -/
theorem operator_follows (hcall : CallFollows call n) (hnext : NextFollows next outer n) (hb : Base outer)
    (hs : Stacks fs vs ops) (ht : kValue t = some v) (hn : ts.length < n) :
    Follows outer n (operator call next (v :: vs) ops ts) (walk (.operator (fs ++ outer) t) ts) := by
  rw [walk_operator]
  have hend (hop : isOperator ts.head? = false) (hlev : endLevel ts.head? = tokLevel .exprEnd)
      (hcode : operator call next (v :: vs) ops ts = finish (v :: vs) ops ts) :
      Follows outer n (operator call next (v :: vs) ops ts)
        (ConstExpr.closes (endLevel ts.head?) (fs ++ outer) t >>= fun r =>
          shift r.1 r.2 ts.head? >>= resume ts) := by
    rw [hlev, hcode]
    apply Follows.bind (parseEval_closes (Or.inr (Or.inr rfl)) hb hs ht)
    rintro x ⟨fs', t'⟩ ⟨fs₁, v', vs', ops', hfs, -, ht', hx⟩
    rw [if_pos rfl] at hx
    obtain ⟨rfl, rfl⟩ := hx
    obtain rfl : fs' = outer := hfs
    exact ⟨hn, hop, t', ht', rfl⟩
  rcases ts with _ | ⟨k, ts⟩
  · exact hend rfl rfl rfl
  cases k with
  | sym s =>
    cases s with
    | bin o =>
      have hlev : endLevel (some (.sym (.bin o)) : Option CTok) = tokLevel (.bin o) := (tokLevel_bin o).symm
      rw [List.head?_cons, hlev]
      apply Follows.bind (parseEval_closes (Or.inl ⟨o, rfl⟩) hb hs ht)
      rintro x ⟨fs', t'⟩ ⟨fs₁, v', vs', ops', hfs, hs', ht', hx⟩
      rw [if_neg EToken.noConfusion] at hx
      subst hx
      obtain rfl : fs' = fs₁ ++ outer := hfs
      have hfol := hnext (.bin t' o :: fs₁) (v' :: vs') (.bin o :: ops') ts (.bin o hs' ht') rfl
        (Nat.lt_of_succ_lt hn)
      exact hfol.mono (Nat.le_of_lt (Nat.lt_of_succ_lt hn))
    | _ => exact hend rfl rfl rfl
  | question =>
    apply Follows.bind (parseEval_closes (Or.inr (Or.inl rfl)) hb hs ht)
    rintro x ⟨fs', t'⟩ ⟨fs₁, v', vs', ops', hfs, hs', ht', hx⟩
    rw [if_neg EToken.noConfusion] at hx
    subst hx
    obtain rfl : fs' = fs₁ ++ outer := hfs
    -- the middle operand is read by a call, below an open condition
    have hb' : Base (.quest t' :: (fs₁ ++ outer)) := by
      rintro f hf
      obtain rfl := Option.some.inj hf
      exact id
    apply Follows.call (hcall (.quest t' :: (fs₁ ++ outer)) ts hb' (Nat.lt_of_succ_lt hn))
    intro w rest a hlt hop ha
    by_cases hk : rest.head? = some .colon
    · obtain ⟨rest, rfl⟩ : ∃ rest', rest = .colon :: rest' := by
        cases rest with
        | nil => cases hk
        | cons k rest => exact ⟨rest, by rw [Option.some.inj hk]⟩
      have hlen : rest.length < n := by
        simp only [List.length_cons] at hlt hn
        omega
      have hfol := hnext (.cond t' a :: fs₁) (w :: v' :: vs') (.question :: ops') rest (.cond hs' ht' ha) rfl hlen
      exact hfol.mono (Nat.le_of_lt hlen)
    · rw [shift_quest hop hk]
      cases rest with
      | nil => rfl
      | cons k rest =>
        cases k with
        | colon => exact absurd rfl hk
        | _ => rfl
  | _ => exact hend rfl rfl rfl

/-- **An operand**: a constant or a parenthesis, whatever else there is ends the call. -/
theorem operand_follows (hcall : CallFollows call n) (hnext : NextFollows next outer n) (hb : Base outer)
    (hs : Stacks fs vs ops) (hn : ts.length ≤ n)
    (hts : topPre (fs ++ outer) = true ∨ ∀ s, ts.head? = some (.sym s) → asPre s = none) :
    Follows outer n (operand call ts >>= fun r => operator call next (r.1 :: vs) ops r.2)
      (walk (.operand (fs ++ outer)) ts) := by
  rcases ts with _ | ⟨k, ts⟩
  · rfl
  have hlt : ts.length < n := hn
  cases k with
  | atom c =>
    rw [walk_cons]
    exact operator_follows hcall hnext hb hs rfl hlt
  | sym s =>
    rw [walk_cons]
    change (_ >>= _) = (_ : Res _)
    simp only [step]
    cases hu : asPre s with
    | none => rfl
    | some u =>
      rcases hts with htop | hts
      · simp only [htop, if_true]
        rfl
      · rw [hts s rfl] at hu
        cases hu
  | lParen =>
    rw [walk_cons]
    change Follows outer n ((call ts >>= _) >>= _) (walk (.operand (.paren :: (fs ++ outer))) ts)
    rw [Res.bind_assoc]
    have hb' : Base (.paren :: (fs ++ outer)) := by
      rintro f hf
      obtain rfl := Option.some.inj hf
      exact id
    apply Follows.call (hcall (.paren :: (fs ++ outer)) ts hb' hlt)
    intro w rest e hlt' hop he
    by_cases hk : rest.head? = some .rParen
    · obtain ⟨rest, rfl⟩ : ∃ rest', rest = .rParen :: rest' := by
        cases rest with
        | nil => cases hk
        | cons k rest => exact ⟨rest, by rw [Option.some.inj hk]⟩
      have hlen : rest.length < n := by
        simp only [List.length_cons] at hlt'
        omega
      exact operator_follows (t := .paren e) hcall hnext hb hs he hlen
    · rw [shift_paren hop hk]
      cases rest with
      | nil => rfl
      | cons k rest =>
        cases k with
        | rParen => exact absurd rfl hk
        | _ => rfl
  | _ => rfl

theorem topPre_append (hb : Base outer) (hp : topPre fs = false) : topPre (fs ++ outer) = false := by
  cases fs with
  | cons f fs => exact hp
  | nil =>
    cases outer with
    | nil => rfl
    | cons f outer =>
      cases f with
      | pre u => exact absurd trivial (hb (.pre u) rfl)
      | _ => rfl

/-- Every turn and every call is a part of the walk, by induction on the fuel, which is more than the tokens. -/
theorem loop_follows (n : ℕ) (outer fs : List CFrame) (vs : List CConstValue) (ops : List EToken) (ts : List CTok)
    (hb : Base outer) (hs : Stacks fs vs ops) (hp : topPre fs = false) (hn : ts.length < n) :
    Follows outer ts.length (loop n vs ops ts) (walk (.operand (fs ++ outer)) ts) := by
  induction n generalizing outer fs vs ops ts with
  | zero => exact absurd hn (Nat.not_lt_zero _)
  | succ n ih =>
    have hcall {m : ℕ} (hm : m ≤ n) : CallFollows (loop n [] [.exprBegin]) m := fun outer ts hb hlt =>
      ih outer [] [] [.exprBegin] ts hb .base rfl (Nat.lt_of_lt_of_le hlt hm)
    have hnext {m : ℕ} (hm : m ≤ n) : NextFollows (loop n) outer m := fun fs vs ops ts hs hp hlt =>
      ih outer fs vs ops ts hb hs hp (Nat.lt_of_lt_of_le hlt hm)
    have hle : ts.length ≤ n := Nat.le_of_lt_succ hn
    by_cases hpre : ∃ s u ts', ts = .sym s :: ts' ∧ asPre s = some u
    · obtain ⟨s, u, ts, rfl, hu⟩ := hpre
      have hle' : ts.length ≤ n := Nat.le_of_succ_le hle
      have hcode : prefixOperator vs ops (.sym s :: ts) = .done (vs, preTok u :: ops, ts) := by
        rw [prefixOperator, preOperand_eq, hu]
        change (parseEvalConstExpr (preTok u) vs ops >>= _) = _
        rw [parseEval_pre u hs hp]
        rfl
      have hwalk : walk (.operand (fs ++ outer)) (.sym s :: ts) = walk (.operand (.pre u :: fs ++ outer)) ts := by
        rw [walk_cons]
        simp only [step, hu, topPre_append hb hp]
        rfl
      rw [hwalk, loop, hcode]
      have hfol := operand_follows (hcall hle') (hnext hle') hb (.pre u hs) (Nat.le_refl ts.length) (Or.inl rfl)
      exact hfol.mono (Nat.le_succ _)
    · have hnone (s : EToken) (hs : ts.head? = some (.sym s)) : asPre s = none := by
        cases ts with
        | nil => cases hs
        | cons k ts =>
          obtain rfl := Option.some.inj hs
          cases hu : asPre s with
          | none => rfl
          | some u => exact absurd ⟨s, u, ts, rfl, hu⟩ hpre
      have hcode : prefixOperator vs ops ts = .done (vs, ops, ts) := by
        cases ts with
        | nil => rfl
        | cons k ts =>
          cases k with
          | sym s =>
            rw [prefixOperator, preOperand_eq, hnone s rfl]
            rfl
          | _ => rfl
      rw [loop, hcode]
      exact operand_follows (hcall hle) (hnext hle) hb hs (Nat.le_refl ts.length) (Or.inr hnone)

end Turn

/-- A call that returns, next to the end of a walk. -/
def Returns (ts : List CTok) (x : CConstValue × List CTok) (y : CExpr × List CTok) : Prop :=
  y.2 = x.2 ∧ kValue y.1 = some x.1 ∧ x.2.length < ts.length ∧ isOperator x.2.head? = false

/-- **`ParseConstExpr` walks over its tokens**, and returns the value of the tree. -/
theorem parseConstExpr_walk (ts : List CTok) : Sim (Returns ts) (parseConstExpr ts) (walk (.operand []) ts) := by
  have hb : Base [] := fun f hf => by cases hf
  have h := loop_follows (ts.length + 1) [] [] [] [.exprBegin] ts hb .base rfl (Nat.lt_succ_self _)
  change Follows [] ts.length (parseConstExpr ts) (walk (.operand []) ts) at h
  cases hr : parseConstExpr ts with
  | done p =>
    obtain ⟨v, rest⟩ := p
    rw [hr] at h
    obtain ⟨hlt, hop, t, ht, hw⟩ := h
    have hshift : shift [] t rest.head? = .done (.inr t) := by
      rcases rest with _ | ⟨(_ | s | _ | _ | _ | _), rest⟩
      any_goals rfl
      · cases s with
        | bin o => cases hop
        | _ => rfl
      · cases hop
    rw [hw, hshift]
    exact ⟨rfl, ht, hlt, hop⟩
  | more =>
    rw [hr] at h
    exact h.elim
  | _ =>
    rw [hr] at h
    have hw : walk (.operand []) ts = _ := h
    rw [hw]
    first | exact rfl | exact trivial

end OpenHT.Htfe.ConstExpr
