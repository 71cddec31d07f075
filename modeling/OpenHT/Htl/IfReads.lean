import OpenHT.Htl.IfGroup

/-!
# `#if` reads its expression

A call of `ParseExpression` takes the tokens of every tree of its grammar, one operand a turn, and ends with the value
of the tree. `ReadsIn` counts the turns.

* `Readable`: tokens that `GetNextToken` knows, and no names.
* `AfterExpr`: the stacks after the tokens of an expression.
* `exists_reads`: every tree is read, with enough turns.
* `startExpr_done`: the call returns.
-/

namespace OpenHT.Htl.IfArith

open OpPrec

variable {table : Table} {fs : List CFrame} {vs : List Int} {ops : List EToken} {t : CExpr} {pos : Pos} {lx : Lexer}
  {rest : List CTok}

/-- Tokens that `GetNextToken` knows, and no names. -/
def Readable (ts : List CTok) : Prop :=
  ∀ t ∈ ts, PlainTok t ∧ Dialect.preProcess.Knows t ∧ ∀ name, t ≠ .atom (.ident name)

theorem Readable.right {ts ts' : List CTok} (h : Readable (ts ++ ts')) : Readable ts' :=
  fun t ht => h t (List.mem_append_right ts ht)

theorem Readable.tail {t : CTok} {ts : List CTok} (h : Readable (t :: ts)) : Readable ts :=
  fun x hx => h x (List.mem_cons_of_mem t hx)

theorem Readable.next {cs : Text} {ts : List CTok} (h : Readable ts) (hl : Lexes cs ts) (lx : Lexer) :
    ∃ pos lx', getNextToken .preProcess (some cs) lx = .done (lx'.tk, pos, lx') ∧ At pos lx' ts :=
  getNextToken_lexes hl (fun t ht => (h t ht).1) (fun t ht => (h t ht).2.1) lx

/-- After the tokens of `e` the loop has its frames on the stacks. -/
def AfterExpr (e : CExpr) (fs : List CFrame) (vs : List Int) (ops : List EToken) : Prop :=
  ∃ fs' t vs' v, vs = v :: vs' ∧ Stacks (fs' ++ fs) vs' ops ∧ Val t v ∧ Pending ifGrammar e fs' t

/-- With `k` more turns the loop reads `e`. -/
def ReadsIn (table : Table) (k : ℕ) (e : CExpr) : Prop :=
  ∀ n fs vs ops s pos lx rest, Stacks fs vs ops → Top ifGrammar (e.level ifGrammar) fs →
    At pos lx (e.tokens cGrammar ++ rest) → Readable (e.tokens cGrammar ++ rest) →
    ∃ m vs' ops' s' cs' lx', n ≤ m ∧ AfterExpr e fs vs' ops' ∧ Lexes cs' rest ∧
      parseLoop .preProcess table (n + k) vs ops s pos lx =
        operator .preProcess (.ofLoop (parseLoop .preProcess table m)) vs' ops' s' (some cs') lx'

/-- A constant or an expression in parentheses is read as an operand. -/
def OperandIn (table : Table) (k : ℕ) (e : CExpr) : Prop :=
  ∀ n pos lx rest, At pos lx (e.tokens cGrammar ++ rest) → Readable (e.tokens cGrammar ++ rest) →
    lx.tk ≠ .error ∧ lx.tk ≠ .bang ∧
    ∃ p cs, operand .preProcess table (.ofLoop (parseLoop .preProcess table (n + k))) pos lx = .done p ∧
      Val e p.value ∧ p.pos = some cs ∧ Lexes cs rest

theorem operand_const (table : Table) (k n : ℕ) (sp : Spelling) : OperandIn table k (.atom (.num n sp)) := by
  rintro m pos lx rest ⟨⟨htk, hv⟩, cs, rfl, hl⟩ -
  refine ⟨?_, ?_, ⟨(getTokenValue lx).1, lx.isSigned, some cs, (getTokenValue lx).2⟩, cs, ?_, ?_, rfl, hl⟩
  · rcases htk with h | h <;> rw [h] <;> exact EToken.noConfusion
  · rcases htk with h | h <;> rw [h] <;> exact EToken.noConfusion
  · unfold operand
    rcases htk with h | h <;> rw [h]
  · intro w hw
    change (if n < 0x80000000 then some (n : Int) else none) = some w at hw
    split at hw
    · rename_i hlt
      exact (hv hlt).trans (Option.some.inj hw)
    · cases hw

/-- **At the end of an expression** the value that is left is that of its tree. -/
theorem finish_done {e : CExpr} (h : AfterExpr e [] vs ops) (he : (strictValue e).isSome) (s : Bool) (pos : Pos)
    (lx : Lexer) : ∃ v, finish .preProcess vs ops s pos lx = .done ⟨v, s, pos, lx⟩ ∧ Val e v := by
  obtain ⟨fs', t, vs', v, rfl, hs, ht, hp⟩ := h
  have hred : ifGrammar.reduce (reduceLevel .exprEnd) (fs' ++ []) t = ([], e) := hp.reduce_end Top.nil
  have hend : Reducer .exprEnd := Or.inr (Or.inr rfl)
  obtain ⟨r, hr⟩ := evaluateExpression_isSome (d := .preProcess) hs ht hend (by rw [hred]; exact he)
  obtain ⟨v', vs'', ops'', hs', hv', hr'⟩ := evaluateExpression_reduce hs ht hend hr
  rw [hred] at hs' hv'
  cases hs'
  have hone : evaluateExpression .preProcess .exprEnd [v'] [.exprBegin] = some ([v'], []) := rfl
  rw [← hr', hone] at hr
  refine ⟨v', ?_, hv'⟩
  unfold finish
  rw [hr]

/-- **A call** for an expression that the tokens end, or a closing parenthesis. -/
theorem startExpr_done {e : CExpr} {k : ℕ} (h : ReadsIn table k e) (he : (strictValue e).isSome)
    (hrest : rest = [] ∨ ∃ ts, rest = .rParen :: ts) (hne : e.tokens cGrammar ≠ [])
    (hat : At pos lx (e.tokens cGrammar ++ rest)) (hr : Readable (e.tokens cGrammar ++ rest)) (n : ℕ) :
    ∃ p, startExpr (parseLoop .preProcess table (n + k)) pos lx = .done p ∧ Val e p.value ∧ At p.pos p.lx rest := by
  obtain ⟨cs, rfl, hat'⟩ : ∃ cs, pos = some cs ∧ At (some (cs.dropWhile isBlank)) lx (e.tokens cGrammar ++ rest) := by
    cases htok : e.tokens cGrammar with
    | nil => exact absurd htok hne
    | cons t ts =>
      rw [htok] at hat
      obtain ⟨hs, cs, rfl, hl⟩ := hat
      exact ⟨cs, rfl, hs, _, rfl, hl.skip⟩
  obtain ⟨m, vs', ops', s', cs', lx', -, hafter, hlex, hrun⟩ :=
    h n [] [] [.exprBegin] true _ lx rest .base Top.nil hat' hr
  obtain ⟨pos₁, lx₁, hnext, hat₁⟩ := hr.right.next hlex lx'
  have hends : Dialect.preProcess.ends lx₁.tk = true := by
    rcases hrest with rfl | ⟨ts, rfl⟩
    · rw [hat₁.1]
      rfl
    · have htk : lx₁.tk = .rParen := hat₁.1.1
      rw [htk]
      rfl
  obtain ⟨v, hfinish, hv⟩ := finish_done hafter he s' pos₁ lx₁
  refine ⟨⟨v, s', pos₁, lx₁⟩, ?_, hv, hat₁⟩
  unfold startExpr skipSpace
  dsimp only
  rw [Run.done_bind, hrun]
  unfold operator
  rw [hnext, Run.done_bind]
  dsimp only
  rw [if_pos hends, hfinish]

theorem tokens_ne_nil (e : CExpr) : e.tokens cGrammar ≠ [] := by
  induction e with
  | bin o a b iha _ =>
    rw [Expr.tokens]
    exact fun h => iha (List.append_eq_nil_iff.1 h).1
  | cond c a b ihc _ _ =>
    intro h
    rw [Expr.tokens] at h
    simp at h
  | _ => exact fun h => by cases h

/-- **An expression in parentheses.** -/
theorem operand_parens {e : CExpr} {k : ℕ} (h : ReadsIn table k e) (he : (strictValue e).isSome) :
    OperandIn table k (.paren e) := by
  intro n pos lx rest hat hr
  have htok : (Expr.paren e : CExpr).tokens cGrammar ++ rest = .lParen :: (e.tokens cGrammar ++ .rParen :: rest) := by
    rw [Expr.tokens]
    simp
  rw [htok] at hat hr
  obtain ⟨⟨htk, -⟩, cs, rfl, hl⟩ := hat
  change lx.tk = .lParen at htk
  obtain ⟨pos₁, lx₁, hnext, hat₁⟩ := hr.tail.next hl lx
  obtain ⟨p, hcall, hv, ⟨hptk, -⟩, cs₂, hpos, hl₂⟩ :=
    startExpr_done h he (Or.inr ⟨rest, rfl⟩) (tokens_ne_nil e) hat₁ hr.tail n
  change p.lx.tk = .rParen at hptk
  refine ⟨by rw [htk]; exact EToken.noConfusion, by rw [htk]; exact EToken.noConfusion, p, cs₂, ?_, val_paren hv, hpos,
    hl₂⟩
  unfold operand
  rw [htk]
  dsimp only
  unfold parenOperand
  rw [hnext, Run.done_bind]
  dsimp only
  change (startExpr (parseLoop .preProcess table (n + k)) pos₁ lx₁ >>= _) = _
  rw [hcall, Run.done_bind, if_pos hptk]
  rfl

/-- An operand is read in one turn. -/
theorem reads_operand {e : CExpr} {k : ℕ} (h : OperandIn table k e) : ReadsIn table (k + 1) e := by
  intro n fs vs ops s pos lx rest hs _ hat hr
  obtain ⟨hne, hnb, p, cs, hop, hv, hpos, hl⟩ := h n pos lx rest hat hr
  refine ⟨n + k, p.value :: vs, ops, s && p.isSigned, cs, p.lx, Nat.le_add_right n k,
    ⟨[], e, vs, p.value, rfl, hs, hv, .refl e⟩, hl, ?_⟩
  rw [← Nat.add_assoc, parseLoop, loopBody, if_neg hne, prefixBang, if_neg hnb, Run.done_bind]
  dsimp only
  rw [hop, Run.done_bind, hpos]

/-- A `!` and its operand are read in one turn. -/
theorem reads_bang {e : CExpr} {k : ℕ} (h : OperandIn table k e) (hlevel : e.level ifGrammar = 0) :
    ReadsIn table (k + 1) (.pre .bang e) := by
  intro n fs vs ops s pos lx rest hs _ hat hr
  have htok : (Expr.pre .bang e : CExpr).tokens cGrammar ++ rest = .sym .bang :: (e.tokens cGrammar ++ rest) := rfl
  rw [htok] at hat hr
  obtain ⟨⟨htk, -⟩, cs, rfl, hl⟩ := hat
  change lx.tk = .bang at htk
  obtain ⟨pos₁, lx₁, hnext, hat₁⟩ := hr.tail.next hl lx
  -- nothing is reduced before the `!`, which binds most tightly
  obtain ⟨hne₁, -, p, cs₁, hop, hv, hpos, hl₁⟩ := h n pos₁ lx₁ rest hat₁ hr.tail
  have hpend : Pending ifGrammar (.pre .bang e) ([] ++ [.pre .bang]) e :=
    (Pending.refl e).snoc (f := .pre .bang) trivial rfl (by rw [hlevel]; exact Nat.zero_le _) (Nat.le_refl _)
  refine ⟨n + k, p.value :: vs, .bang :: ops, s && p.isSigned, cs₁, p.lx, Nat.le_add_right n k,
    ⟨[.pre .bang], e, vs, p.value, rfl, .bang hs, hv, hpend⟩, hl₁, ?_⟩
  rw [← Nat.add_assoc, parseLoop, loopBody, if_neg (by rw [htk]; exact EToken.noConfusion), prefixBang, if_pos htk,
    evaluateExpression_bang hs, Run.ofOption_some, Run.done_bind]
  dsimp only
  rw [hnext, Run.done_bind]
  dsimp only
  rw [if_neg hne₁, Run.pure_eq, Run.done_bind]
  dsimp only
  rw [hop, Run.done_bind, hpos]

/-- **A binary operator**: what was read before it is its left operand. -/
theorem reads_bin {o : BinOp} {a b : CExpr} {k l : ℕ} (hfit : (Expr.bin o a b : CExpr).Fits ifGrammar)
    (ha : ReadsIn table k a) (hb : ReadsIn table l b) (hva : (strictValue a).isSome) :
    ReadsIn table (l + k) (.bin o a b) := by
  intro n fs vs ops s pos lx rest hs htop hat hr
  obtain ⟨-, -, hleft, hright⟩ := hfit
  have htok : (Expr.bin o a b : CExpr).tokens cGrammar ++ rest =
      a.tokens cGrammar ++ (.sym (.bin o) :: (b.tokens cGrammar ++ rest)) := by
    rw [Expr.tokens]
    simp [grammar]
  rw [htok] at hat hr
  obtain ⟨m, vs₁, ops₁, s₁, cs₁, lx₁, hm, ⟨fsa, ta, vsa, va, rfl, hsa, hta, hpa⟩, hl₁, hrun₁⟩ :=
    ha (n + l) fs vs ops s pos lx _ hs (htop.mono hleft.le) hat hr
  have hr₁ := hr.right
  obtain ⟨pos₂, lx₂, hnext₂, ⟨htk, -⟩, cs₂, rfl, hl₂⟩ := hr₁.next hl₁ lx₁
  change lx₂.tk = .bin o at htk
  -- the operator closes all that was read before it
  have hred : ifGrammar.reduce (reduceLevel (.bin o)) (fsa ++ fs) ta = (fs, a) := by
    rw [reduceLevel_bin]
    exact hpa.reduce_prec hleft htop
  have hop : Reducer (.bin o) := Or.inl ⟨o, rfl⟩
  obtain ⟨⟨vs₃, ops₃⟩, heval⟩ := evaluateExpression_isSome (d := .preProcess) hsa hta hop (by rw [hred]; exact hva)
  obtain ⟨v', vs', ops', hs', hv', rfl, rfl⟩ :=
    evaluateExpression_operator hsa hta hop (fun h => EToken.noConfusion h) heval
  rw [hred] at hs' hv'
  obtain ⟨pos₃, lx₃, hnext₃, hat₃⟩ := hr₁.tail.next hl₂ lx₂
  obtain ⟨m', vs₄, ops₄, s₄, cs₄, lx₄, hm', ⟨fsb, tb, vsb, vb, rfl, hsb, htb, hpb⟩, hl₄, hrun₄⟩ :=
    hb (m - l) (.bin a o :: fs) (v' :: vs') (.bin o :: ops') s₁ pos₃ lx₃ rest (.bin o hs' hv') (Top.cons hright) hat₃
      hr₁.tail
  have hcl : (Frame.bin a o : CFrame).Closes := trivial
  refine ⟨m', vb :: vsb, ops₄, s₄, cs₄, lx₄, by omega,
    ⟨fsb ++ [.bin a o], tb, vsb, vb, rfl, by simpa using hsb, htb, hpb.snoc hcl rfl hright.le (Nat.le_refl _)⟩, hl₄, ?_⟩
  rw [← Nat.add_assoc, hrun₁]
  unfold operator
  rw [hnext₂, Run.done_bind]
  dsimp only
  rw [htk]
  have hnot : ¬Dialect.preProcess.ends (.bin o) = true := fun h => by cases h
  rw [if_neg hnot]
  dsimp only
  unfold binaryOperator
  rw [heval, Run.ofOption_some, Run.done_bind]
  dsimp only
  rw [hnext₃, Run.done_bind]
  rw [Nat.sub_add_cancel (by omega)] at hrun₄
  exact hrun₄

/-- **Every tree of the preprocessors' grammar is read**, with enough turns. -/
theorem exists_reads (table : Table) (e : CExpr) (hfit : e.Fits ifGrammar) (hp : Plain e)
    (hv : (strictValue e).isSome) :
    (∃ k, ReadsIn table k e) ∧ (e.level ifGrammar = 0 → ∃ k, OperandIn table k e) := by
  induction e with
  | atom a =>
    cases a with
    | num n sp => exact ⟨⟨_, reads_operand (operand_const table 0 n sp)⟩, fun _ => ⟨0, operand_const table 0 n sp⟩⟩
    | ident name => exact hp.elim
  | paren e ih =>
    obtain ⟨⟨k, hk⟩, -⟩ := ih hfit hp hv
    exact ⟨⟨_, reads_operand (operand_parens hk hv)⟩, fun _ => ⟨k, operand_parens hk hv⟩⟩
  | pre u e ih =>
    -- what follows the `!` is read in the same turn, so it has to be an operand
    obtain ⟨rfl, hlevel, hpe⟩ := hp
    rw [← level_eq] at hlevel
    have hve : (strictValue e).isSome := close_value (f := .pre .bang) hv
    obtain ⟨k, hk⟩ := (ih hfit.1 hpe hve).2 hlevel
    exact ⟨⟨_, reads_bang hk hlevel⟩, fun h => by cases h⟩
  | bin o a b iha ihb =>
    obtain ⟨v, hv⟩ := Option.isSome_iff_exists.1 hv
    obtain ⟨x, y, hx, hy, -⟩ := strictValue_bin hv
    obtain ⟨⟨k, hk⟩, -⟩ := iha hfit.1 hp.1 (Option.isSome_of_eq_some hx)
    obtain ⟨⟨l, hl⟩, -⟩ := ihb hfit.2.1 hp.2 (Option.isSome_of_eq_some hy)
    refine ⟨⟨_, reads_bin hfit hk hl (Option.isSome_of_eq_some hx)⟩, fun h => ?_⟩
    have hb := o.prec_bounds
    change o.prec = 0 at h
    omega
  | cond c a b _ _ _ => exact hp.elim

end OpenHT.Htl.IfArith
