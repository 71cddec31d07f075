import OpenHT.Htl.CExpr

/-!
# The stacks of `ParseExpression`

The operand and the operator stack hold the values and the operators of an operator precedence parser;
`EvaluateExpression` does to them what `Grammar.reduce` does to its frames.

* `Val`: a value the parser has for an expression, right if the expression can be evaluated.
* `Stacks`: the frames behind the two stacks.
* `evaluateExpression_reduce`, `finish_reduce`: what `EvaluateExpression` leaves.
* `evaluateExpression_isSome`: it meets nothing undefined if the tree it makes can be evaluated.
-/

namespace OpenHT.Htl

open OpPrec

/-- The grammar of a dialect: only `CDefineTable` reduces operators of equal precedence. -/
abbrev Dialect.grammar (d : Dialect) : Grammar UnOp BinOp EToken := Htl.grammar (d = .defineTable)

/-- The value is that of the expression, if it can be evaluated. -/
def Val (e : CExpr) (v : Int) : Prop := ∀ w, strictValue e = some w → v = w

/-- The operator of a frame. -/
def frameOp : CFrame → EToken
  | .bin _ o => .bin o
  | .pre u => u.sym
  | .cond _ _ => .question
  | .paren | .quest _ => .error

/-- The stacks of one call of `ParseExpression` while it waits for an operand. -/
inductive Stacks : List CFrame → List Int → List EToken → Prop
  | base : Stacks [] [] [.exprBegin]
  | bin {fs vs ops} {a : CExpr} {v : Int} (o : BinOp) (h : Stacks fs vs ops) (ha : Val a v) :
    Stacks (.bin a o :: fs) (v :: vs) (.bin o :: ops)
  | bang {fs vs ops} (h : Stacks fs vs ops) : Stacks (.pre .bang :: fs) vs (.bang :: ops)
  | cond {fs vs ops} {c a : CExpr} {v w : Int} (h : Stacks fs vs ops) (hc : Val c v) (ha : Val a w) :
    Stacks (.cond c a :: fs) (w :: v :: vs) (.question :: ops)

variable {d : Dialect} {fs : List CFrame} {f : CFrame} {vs : List Int} {ops : List EToken} {t e : CExpr}
  {v : Int} {tk : EToken}

/-- The tokens that are compared with the operator stack after an operand. -/
def Reducer (tk : EToken) : Prop := (∃ o, tk = .bin o) ∨ tk = .question ∨ tk = .exprEnd

/-- The precedence of the token for the frames, where the end of an expression comes after `?`. -/
def reduceLevel (tk : EToken) : ℕ := min (getTokenPrec tk) 15

theorem BinOp.prec_bounds (o : BinOp) : 4 ≤ o.prec ∧ o.prec ≤ 13 := by
  cases o <;> decide

theorem reduceLevel_bin (o : BinOp) : reduceLevel (.bin o) = o.prec := by
  have := o.prec_bounds
  exact Nat.min_eq_left (by change o.prec ≤ 15; omega)

theorem assocLR_bin (o : BinOp) : isTokenAssocLR (.bin o) = true := by
  cases o <;> rfl

theorem admits_bin {a : CExpr} {o : BinOp} {n : ℕ} :
    (Frame.bin a o : CFrame).Admits d.grammar n ↔ n < o.prec ∨ n = o.prec ∧ d = .preProcess := by
  change n < o.prec ∨ n = o.prec ∧ ¬decide (d = .defineTable) = true ↔ _
  cases d <;> simp

theorem admits_pre {u : UnOp} {n : ℕ} : (Frame.pre u : CFrame).Admits d.grammar n ↔ n ≤ 3 := Iff.rfl

theorem admits_cond {c a : CExpr} {n : ℕ} : (Frame.cond c a : CFrame).Admits d.grammar n ↔ n ≤ 14 := Iff.rfl

theorem reduces_eq {stackTk : EToken} : d.reduces tk stackTk = true ↔
    getTokenPrec stackTk < getTokenPrec tk ∨
      (d = .defineTable ∧ getTokenPrec tk = getTokenPrec stackTk) ∧ isTokenAssocLR tk = true := by
  rw [Dialect.reduces, Bool.or_eq_true, Bool.and_eq_true, Bool.and_eq_true]
  simp only [decide_eq_true_eq]

/-- `IsTokenAssocLR` matters for binary operators only. -/
theorem reduces_iff (htk : Reducer tk) (hs : Stacks (f :: fs) vs ops) :
    d.reduces tk (frameOp f) = true ↔ ¬f.Admits d.grammar (reduceLevel tk) := by
  have hlevel : (∃ o, tk = .bin o ∧ reduceLevel tk = o.prec ∧ getTokenPrec tk = o.prec ∧ isTokenAssocLR tk = true) ∨
      (reduceLevel tk = 14 ∧ getTokenPrec tk = 14 ∧ isTokenAssocLR tk = false) ∨
      (reduceLevel tk = 15 ∧ getTokenPrec tk = 18) := by
    rcases htk with ⟨o, rfl⟩ | rfl | rfl
    · exact Or.inl ⟨o, rfl, reduceLevel_bin o, rfl, assocLR_bin o⟩
    · exact Or.inr (Or.inl ⟨rfl, rfl, rfl⟩)
    · exact Or.inr (Or.inr ⟨rfl, rfl⟩)
  rw [reduces_eq]
  cases hs with
  | bin o _ _ =>
    have hb := o.prec_bounds
    rw [admits_bin]
    change o.prec < _ ∨ (_ ∧ _ = o.prec) ∧ _ ↔ _
    rcases hlevel with ⟨o', rfl, hl, hp, ha⟩ | ⟨hl, hp, ha⟩ | ⟨hl, hp⟩
    · rw [hl, hp, ha]
      cases d <;> simp <;> omega
    · rw [hl, hp, ha]
      cases d <;> simp <;> omega
    · rw [hl, hp]
      omega
  | bang _ =>
    rw [admits_pre]
    change 3 < _ ∨ (_ ∧ _ = 3) ∧ _ ↔ _
    rcases hlevel with ⟨o', rfl, hl, hp, ha⟩ | ⟨hl, hp, ha⟩ | ⟨hl, hp⟩
    · have hb' := o'.prec_bounds
      omega
    · omega
    · omega
  | cond _ _ _ =>
    rw [admits_cond]
    change 14 < _ ∨ (_ ∧ _ = 14) ∧ _ ↔ _
    rcases hlevel with ⟨o', rfl, hl, hp, ha⟩ | ⟨hl, hp, ha⟩ | ⟨hl, hp⟩
    · have hb' := o'.prec_bounds
      omega
    · rw [hl, hp, ha]
      simp
    · omega

theorem val_paren (h : Val t v) : Val (.paren t) v := h

theorem val_bin {o : BinOp} {a : CExpr} {x y z : Int} (ha : Val a x) (ht : Val t y) (h : o.apply x y = some z) :
    Val (.bin o a t) z := by
  intro w hw
  obtain ⟨x', y', hx, hy, hw⟩ := strictValue_bin hw
  rw [ha x' hx, ht y' hy, hw] at h
  exact (Option.some.inj h).symm

theorem val_bang (ht : Val t v) : Val (.pre .bang t) (ofBool (v = 0)) := by
  intro w hw
  obtain ⟨x, hx, hw⟩ := Option.bind_eq_some_iff.1 hw
  rw [ht x hx]
  exact Option.some.inj hw

theorem val_cond {c a : CExpr} {x y : Int} (hc : Val c x) (ha : Val a y) (ht : Val t v) :
    Val (.cond c a t) (if x = 0 then v else y) := by
  intro w hw
  obtain ⟨x', y', z', hx, hy, hz, rfl⟩ := strictValue_cond hw
  rw [hc x' hx, ha y' hy, ht z' hz]

/-! ## `EvaluateExpression` -/

theorem evaluateExpression_push {k : EToken} (h : ¬d.reduces tk k = true) :
    evaluateExpression d tk vs (k :: ops) = some (vs, tk :: k :: ops) := if_neg h

theorem evaluateExpression_pop {k : EToken} (h : d.reduces tk k = true) (hk : k ≠ .exprBegin) :
    evaluateExpression d tk vs (k :: ops) = (applyTop k vs).bind fun vs => evaluateExpression d tk vs ops := by
  rw [evaluateExpression, if_pos h, if_neg hk]
  rfl

theorem Stacks.ops_cons (h : Stacks (f :: fs) vs ops) : ∃ ops', ops = frameOp f :: ops' ∧ frameOp f ≠ .exprBegin := by
  cases h with
  | bin o h ha => exact ⟨_, rfl, fun h => EToken.noConfusion h⟩
  | bang h => exact ⟨_, rfl, fun h => EToken.noConfusion h⟩
  | cond h hc ha => exact ⟨_, rfl, fun h => EToken.noConfusion h⟩

/-- Below a closed frame are the stacks of the frames before it, with its value on top. -/
theorem Stacks.pop (h : Stacks (f :: fs) vs ops) (ht : Val t v) {vs' : List Int}
    (happ : applyTop (frameOp f) (v :: vs) = some vs') :
    ∃ w vs'', vs' = w :: vs'' ∧ Val (f.close t) w ∧ Stacks fs vs'' ops.tail := by
  cases h with
  | bin o h ha =>
    obtain ⟨z, hz, rfl⟩ := Option.map_eq_some_iff.1 happ
    exact ⟨z, _, rfl, val_bin ha ht hz, h⟩
  | bang h =>
    cases happ
    exact ⟨_, _, rfl, val_bang ht, h⟩
  | cond h hc ha =>
    cases happ
    exact ⟨_, _, rfl, val_cond hc ha ht, h⟩

/-- **`EvaluateExpression` closes the frames that do not admit the token.** -/
theorem evaluateExpression_reduce (hs : Stacks fs vs ops) (ht : Val t v) (htk : Reducer tk)
    {r : List Int × List EToken} (h : evaluateExpression d tk (v :: vs) ops = some r) :
    ∃ v' vs' ops', Stacks (d.grammar.reduce (reduceLevel tk) fs t).1 vs' ops' ∧
      Val (d.grammar.reduce (reduceLevel tk) fs t).2 v' ∧ evaluateExpression d tk (v' :: vs') ops' = some r := by
  induction fs generalizing t v vs ops with
  | nil => exact ⟨v, vs, ops, hs, ht, h⟩
  | cons f fs ih =>
    by_cases hadm : f.Admits d.grammar (reduceLevel tk)
    · rw [reduce_of_top (Top.cons hadm)]
      exact ⟨v, vs, ops, hs, ht, h⟩
    · obtain ⟨ops', rfl, hk⟩ := hs.ops_cons
      rw [evaluateExpression_pop ((reduces_iff htk hs).2 hadm) hk] at h
      obtain ⟨vs', happ, h⟩ := Option.bind_eq_some_iff.1 h
      obtain ⟨w, vs'', rfl, hw, hs'⟩ := hs.pop ht happ
      rw [reduce_cons hadm]
      exact ih hs' hw h

/-- An operator that its left operand was reduced for goes on the stack. -/
theorem evaluateExpression_operator (hs : Stacks fs vs ops) (ht : Val t v) (htk : Reducer tk)
    (hne : tk ≠ .exprEnd) {vs' : List Int} {ops' : List EToken}
    (h : evaluateExpression d tk (v :: vs) ops = some (vs', ops')) :
    ∃ v' vs'' ops'', Stacks (d.grammar.reduce (reduceLevel tk) fs t).1 vs'' ops'' ∧
      Val (d.grammar.reduce (reduceLevel tk) fs t).2 v' ∧ vs' = v' :: vs'' ∧ ops' = tk :: ops'' := by
  obtain ⟨v', vs'', ops'', hs', hv, h⟩ := evaluateExpression_reduce hs ht htk h
  refine ⟨v', vs'', ops'', hs', hv, ?_⟩
  cases hfs : (d.grammar.reduce (reduceLevel tk) fs t).1 with
  | nil =>
    rw [hfs] at hs'
    cases hs'
    have hbegin : ¬d.reduces tk .exprBegin = true := by
      rw [reduces_eq]
      rcases htk with ⟨o, rfl⟩ | rfl | rfl
      · have hb := o.prec_bounds
        change ¬(17 < o.prec ∨ (_ ∧ o.prec = 17) ∧ _)
        omega
      · change ¬(17 < 14 ∨ (_ ∧ 14 = 17) ∧ _)
        omega
      · exact (hne rfl).elim
    rw [evaluateExpression_push hbegin] at h
    cases h
    exact ⟨rfl, rfl⟩
  | cons f fs' =>
    rw [hfs] at hs'
    have hstop : f.Admits d.grammar (reduceLevel tk) := by
      have htop := reduce_stop (g := d.grammar) (reduceLevel tk) fs t
      rw [hfs] at htop
      exact htop f rfl
    obtain ⟨ops₁, rfl, hk⟩ := hs'.ops_cons
    rw [evaluateExpression_push (fun hr => (reduces_iff htk hs').1 hr hstop)] at h
    cases h
    exact ⟨rfl, rfl⟩

theorem Stacks.closes (h : Stacks fs vs ops) : ∀ f ∈ fs, f.Closes := by
  induction h with
  | base => intro f hf; cases hf
  | bin o h ha ih => exact List.forall_mem_cons.2 ⟨trivial, ih⟩
  | bang h ih => exact List.forall_mem_cons.2 ⟨trivial, ih⟩
  | cond h hc ha ih => exact List.forall_mem_cons.2 ⟨trivial, ih⟩

/-- **At its end an expression has one value.** -/
theorem finish_reduce (hs : Stacks fs vs ops) (ht : Val t v) {s : Bool} {pos : Pos} {lx : Lexer} {p : Parsed}
    (h : finish d (v :: vs) ops s pos lx = .done p) :
    Val (d.grammar.reduce 15 fs t).2 p.value ∧ p.pos = pos ∧ p.lx = lx := by
  unfold finish at h
  split at h
  · rename_i w heval
    cases h
    obtain ⟨v', vs', ops', hs', hv, heval⟩ :=
      evaluateExpression_reduce hs ht (Or.inr (Or.inr rfl) : Reducer .exprEnd) heval
    have hnil : (d.grammar.reduce 15 fs t).1 = [] := reduce_end hs.closes t
    change Stacks (d.grammar.reduce 15 fs t).1 vs' ops' at hs'
    rw [hnil] at hs'
    cases hs'
    have hend : evaluateExpression d .exprEnd [v'] [.exprBegin] = some ([v'], []) := by cases d <;> rfl
    rw [hend] at heval
    cases heval
    exact ⟨hv, rfl, rfl⟩
  · cases h

/-- A part of a tree that can be evaluated can be. -/
theorem close_value (h : (strictValue (f.close t)).isSome) : (strictValue t).isSome := by
  obtain ⟨v, hv⟩ := Option.isSome_iff_exists.1 h
  cases f with
  | bin a o =>
    obtain ⟨x, y, -, hy, -⟩ := strictValue_bin hv
    exact Option.isSome_of_eq_some hy
  | pre u =>
    obtain ⟨x, hx, -⟩ := Option.bind_eq_some_iff.1 hv
    exact Option.isSome_of_eq_some hx
  | cond c a =>
    obtain ⟨x, y, z, -, -, hz, -⟩ := strictValue_cond hv
    exact Option.isSome_of_eq_some hz
  | paren => exact h
  | quest c => exact h

theorem reduce_value {g : Grammar UnOp BinOp EToken} {p : ℕ} (h : (strictValue (g.reduce p fs t).2).isSome) :
    (strictValue t).isSome := by
  induction fs generalizing t with
  | nil => exact h
  | cons f fs ih =>
    by_cases hadm : f.Admits g p
    · rw [reduce_of_top (Top.cons hadm)] at h
      exact h
    · rw [reduce_cons hadm] at h
      exact close_value (ih h)

/-- Closing a frame meets nothing undefined. -/
theorem Stacks.applyTop_isSome (hs : Stacks (f :: fs) vs ops) (ht : Val t v)
    (h : (strictValue (f.close t)).isSome) : ∃ vs', applyTop (frameOp f) (v :: vs) = some vs' := by
  obtain ⟨w, hw⟩ := Option.isSome_iff_exists.1 h
  cases hs with
  | bin o hs ha =>
    rename_i vs' ops' a' x'
    obtain ⟨x, y, hx, hy, hv⟩ := strictValue_bin hw
    refine ⟨w :: vs', ?_⟩
    change (o.apply x' v).map _ = _
    rw [ha x hx, ht y hy, hv]
    rfl
  | bang hs => exact ⟨_, rfl⟩
  | cond hs hc ha => exact ⟨_, rfl⟩

/-- **`EvaluateExpression` returns** when the tree it makes can be evaluated. -/
theorem evaluateExpression_isSome (hs : Stacks fs vs ops) (ht : Val t v) (htk : Reducer tk)
    (h : (strictValue (d.grammar.reduce (reduceLevel tk) fs t).2).isSome) :
    ∃ r, evaluateExpression d tk (v :: vs) ops = some r := by
  induction fs generalizing t v vs ops with
  | nil =>
    -- only the mark of the beginning is left
    cases hs
    rcases htk with ⟨o, rfl⟩ | rfl | rfl
    · have hbegin : ¬d.reduces (.bin o) .exprBegin = true := by
        have hb := o.prec_bounds
        rw [reduces_eq]
        change ¬(17 < o.prec ∨ (_ ∧ o.prec = 17) ∧ _)
        omega
      exact ⟨_, evaluateExpression_push hbegin⟩
    · have hbegin : ¬d.reduces .question .exprBegin = true := by
        rw [reduces_eq]
        change ¬(17 < 14 ∨ (_ ∧ 14 = 17) ∧ _)
        omega
      exact ⟨_, evaluateExpression_push hbegin⟩
    · cases d <;> exact ⟨_, rfl⟩
  | cons f fs ih =>
    obtain ⟨ops', rfl, hk⟩ := hs.ops_cons
    by_cases hadm : f.Admits d.grammar (reduceLevel tk)
    · exact ⟨_, evaluateExpression_push fun hr => (reduces_iff htk hs).1 hr hadm⟩
    · rw [reduce_cons hadm] at h
      obtain ⟨vs', happ⟩ := Stacks.applyTop_isSome hs ht (reduce_value h)
      obtain ⟨w, vs'', rfl, hw, hs'⟩ := hs.pop ht happ
      obtain ⟨r, hr⟩ := ih hs' hw h
      refine ⟨r, ?_⟩
      rw [evaluateExpression_pop ((reduces_iff htk hs).2 hadm) hk, happ]
      exact hr

/-- A `!` closes nothing. -/
theorem evaluateExpression_bang (hs : Stacks fs vs ops) :
    evaluateExpression d .bang vs ops = some (vs, .bang :: ops) := by
  have hnot : ∀ k, 3 ≤ getTokenPrec k → ¬d.reduces .bang k = true := by
    intro k hk
    rw [reduces_eq]
    rintro (h | ⟨-, h⟩)
    · exact Nat.not_le_of_lt h hk
    · cases h
  cases hs with
  | base => exact evaluateExpression_push (hnot _ (by decide))
  | bin o _ _ => exact evaluateExpression_push (hnot _ (Nat.le_trans (by decide) o.prec_bounds.1))
  | bang _ => exact evaluateExpression_push (hnot _ (Nat.le_refl 3))
  | cond _ _ _ => exact evaluateExpression_push (hnot _ (by decide))

/-- A `!` may follow every operator. -/
theorem Stacks.top_pre (hs : Stacks fs vs ops) : Top d.grammar 3 fs := by
  cases hs with
  | base => exact Top.nil
  | bin o _ _ => exact Top.cons (admits_bin.2 (Or.inl o.prec_bounds.1))
  | bang _ => exact Top.cons (Nat.le_refl 3)
  | cond _ _ _ => exact Top.cons (by decide : 3 ≤ 14)

end OpenHT.Htl
