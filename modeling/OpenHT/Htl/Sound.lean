import OpenHT.Htl.Macro

/-!
# `FindStringValue` is sound

What `ParseExpression` of `CDefineTable` accepts is an expression of C, and the value it returns is that of
the expression. The frames behind its stacks are the part of the tree read so far.

* `TurnReads`: what a call that is done has read, and the tree it found.
* `parseLoop_reads`: every call, from stacks that hold a part of a tree.
* `find_string_value_sound`: a string that is read up to its end.
-/

namespace OpenHT.Htl

open OpPrec

theorem grammar_defineTable : Dialect.defineTable.grammar = cGrammar := rfl

section

variable {lx : Lexer} {t : CTok} {pos : Pos} {ts : List CTok}

/-! ## The token last read -/

/-- The token of C that is stored as `tk`, words aside. -/
def tokenOf : EToken → Option CTok
  | .bin o => some (.sym (.bin o))
  | .tilda => some (.sym .tilda)
  | .bang => some (.sym .bang)
  | .lParen => some .lParen
  | .rParen => some .rParen
  | .question => some .question
  | .colon => some .colon
  | _ => none

theorem Shows.eq_tokenOf (h : Shows lx t) {t' : CTok} (ht : tokenOf lx.tk = some t') : t = t' := by
  cases t with
  | atom a =>
    cases a with
    | num n sp => rcases h.1 with h | h <;> rw [h] at ht <;> cases ht
    | ident name => rw [h.1] at ht; cases ht
  | sym s =>
    obtain ⟨hs, hop⟩ := h
    change lx.tk = s at hs
    rw [hs] at ht
    cases s <;> first | exact Option.some.inj ht | cases hop
  | _ => rw [h.1] at ht; exact Option.some.inj ht

theorem Shows.ident (h : Shows lx t) (htk : lx.tk = .ident) : t = .atom (.ident lx.tkString) := by
  cases t with
  | atom a =>
    cases a with
    | num n sp => rcases h.1 with h | h <;> rw [htk] at h <;> cases h
    | ident name => rw [h.2]
  | sym s =>
    obtain ⟨hs, hop⟩ := h
    change lx.tk = s at hs
    rw [htk] at hs
    subst hs
    cases hop
  | _ => cases htk.symm.trans h.1

theorem Shows.num (h : Shows lx t) (htk : lx.tk = .numInt ∨ lx.tk = .numHex) :
    ∃ n sp, t = .atom (.num n sp) ∧ (n < 0x80000000 → (getTokenValue lx).1 = n) := by
  cases t with
  | atom a =>
    cases a with
    | num n sp => exact ⟨n, sp, rfl, h.2⟩
    | ident name => rcases htk with htk | htk <;> rw [h.1] at htk <;> cases htk
  | sym s =>
    obtain ⟨hs, hop⟩ := h
    change lx.tk = s at hs
    rcases htk with htk | htk <;> rw [htk] at hs <;> subst hs <;> cases hop
  | _ => rcases htk with htk | htk <;> rw [h.1] at htk <;> cases htk

/-- No token of C is stored as the end of the text or as a bracket. -/
theorem Shows.ne (h : Shows lx t) {tk : EToken} (htk : tk = .exprEnd ∨ tk = .rBrack) : lx.tk ≠ tk := by
  intro he
  cases t with
  | atom a =>
    cases a with
    | num n sp => rcases h.1 with h | h <;> rw [he] at h <;> rcases htk with rfl | rfl <;> cases h
    | ident name => rcases htk with rfl | rfl <;> exact EToken.noConfusion (he.symm.trans h.1)
  | sym s =>
    obtain ⟨hs, hop⟩ := h
    change lx.tk = s at hs
    rw [← hs, he] at hop
    rcases htk with rfl | rfl <;> cases hop
  | _ => rcases htk with rfl | rfl <;> exact EToken.noConfusion (he.symm.trans h.1)

theorem At.cons_of_tk (h : At pos lx ts) (htk : lx.tk ≠ .exprEnd) :
    ∃ t ts' cs, ts = t :: ts' ∧ Shows lx t ∧ pos = some cs ∧ Lexes cs ts' := by
  cases ts with
  | nil => exact (htk h.1).elim
  | cons t ts' =>
    obtain ⟨hs, cs, hp, hl⟩ := h
    exact ⟨t, ts', cs, rfl, hs, hp, hl⟩

/-- The token that is shown is the next one. -/
theorem At.tokenOf (h : At pos lx ts) {t : CTok} (ht : tokenOf lx.tk = some t) :
    ∃ ts' cs, ts = t :: ts' ∧ pos = some cs ∧ Lexes cs ts' := by
  have hne : lx.tk ≠ .exprEnd := by
    intro he
    rw [he] at ht
    cases ht
  obtain ⟨t', ts', cs, rfl, hs, hp, hl⟩ := h.cons_of_tk hne
  rw [hs.eq_tokenOf ht]
  exact ⟨ts', cs, rfl, hp, hl⟩

theorem Lexes.skip {cs : Text} (h : Lexes cs ts) : Lexes (cs.dropWhile isBlank) ts := by
  have hidem : (cs.dropWhile isBlank).dropWhile isBlank = cs.dropWhile isBlank := by
    cases hcs : cs.dropWhile isBlank with
    | nil => rfl
    | cons c rest =>
      have hhead := List.head?_dropWhile_not isBlank cs
      rw [hcs] at hhead
      rw [List.dropWhile_cons_of_neg]
      simpa using hhead
  cases h with
  | nil h => exact .nil (hidem.trans h)
  | cons h ht hs => exact .cons (hidem.trans h) ht hs

end

/-- `GetNextToken` of `CDefineTable` on good tokens. -/
theorem Good.next {table : Table} {cs : Text} {ts : List CTok} (h : Good table ts) (hl : Lexes cs ts) (lx : Lexer) :
    ∃ pos lx', getNextToken .defineTable (some cs) lx = .done (lx'.tk, pos, lx') ∧ At pos lx' ts :=
  getNextToken_lexes hl h.plain (fun _ _ => Or.inl rfl) lx

/-! ## What a call reads -/

/-- Only a token that ends an expression may follow. -/
def EndsHere (ts : List CTok) : Prop := ∀ t ts', ts = t :: ts' → t = .rParen ∨ t = .colon

/-- A call that is done has read the rest of an expression, whose first part is `pre`. -/
def TurnReads (table : Table) (pre ts : List CTok) (p : Parsed) : Prop :=
  ∃ ts₁ ts₂ ts₁', ∃ e : CExpr, ts = ts₁ ++ ts₂ ∧ Subst table ts₁ ts₁' ∧ e.tokens cGrammar = pre ++ ts₁' ∧
    e.Fits cGrammar ∧ Val e p.value ∧ At p.pos p.lx ts₂ ∧ EndsHere ts₂

/-- Tokens read before a call. -/
theorem TurnReads.cons {table : Table} {pre a a' ts : List CTok} {p : Parsed} (ha : Subst table a a')
    (h : TurnReads table (pre ++ a') ts p) : TurnReads table pre (a ++ ts) p := by
  obtain ⟨ts₁, ts₂, ts₁', e, rfl, hsub, htok, hrest⟩ := h
  refine ⟨a ++ ts₁, ts₂, a' ++ ts₁', e, (List.append_assoc ..).symm, ha.append hsub, ?_, hrest⟩
  rw [htok, List.append_assoc]

/-- The turns of the loop on fuel `n`. -/
def LoopReads (table : Table) (n : ℕ) : Prop :=
  ∀ fs vs ops s pos lx ts p, Stacks fs vs ops → Held cGrammar fs → At pos lx ts → Good table ts →
    parseLoop .defineTable table n vs ops s pos lx = .done p → TurnReads table (render cGrammar fs) ts p

/-- An operand that was read, with the text after it. -/
def OperandReads (table : Table) (ts : List CTok) (p : Parsed) : Prop :=
  ∃ ts₁ ts₂ ts₁' cs, ∃ t : CExpr, ts = ts₁ ++ ts₂ ∧ Subst table ts₁ ts₁' ∧ t.tokens cGrammar = ts₁' ∧
    t.Fits cGrammar ∧ t.level cGrammar = 0 ∧ Val t p.value ∧ p.pos = some cs ∧ Lexes cs ts₂

section

variable {table : Table} {n : ℕ} {fs : List CFrame} {vs : List Int} {ops : List EToken} {s : Bool}
  {pos : Pos} {lx : Lexer} {ts : List CTok} {p : Parsed}

/-- A call for an expression of its own. -/
theorem startExpr_reads (ih : LoopReads table n) (hat : At pos lx ts) (hg : Good table ts)
    (h : startExpr (parseLoop .defineTable table n) pos lx = .done p) : TurnReads table [] ts p := by
  cases pos with
  | none => cases h
  | some cs =>
    have hat' : At (some (cs.dropWhile isBlank)) lx ts := by
      cases ts with
      | nil => cases hat.2
      | cons t ts =>
        obtain ⟨hs, cs', hcs, hl⟩ := hat
        cases hcs
        exact ⟨hs, _, rfl, hl.skip⟩
    exact ih [] [] [.exprBegin] true _ lx ts p .base trivial hat' hg h

/-- A constant. -/
theorem operand_num (hat : At pos lx ts) (htk : lx.tk = .numInt ∨ lx.tk = .numHex) :
    OperandReads table ts ⟨(getTokenValue lx).1, lx.isSigned, pos, (getTokenValue lx).2⟩ := by
  have hne : lx.tk ≠ .exprEnd := by
    intro he
    rcases htk with htk | htk <;> rw [htk] at he <;> cases he
  obtain ⟨t, ts', cs, rfl, hs, rfl, hl⟩ := hat.cons_of_tk hne
  obtain ⟨n, sp, rfl, hv⟩ := hs.num htk
  refine ⟨[.atom (.num n sp)], ts', [.atom (.num n sp)], cs, .atom (.num n sp), rfl, .single ?_, rfl, trivial,
    rfl, ?_, rfl, hl⟩
  · intro name h
    cases h
  · intro w hw
    have hlt : n < 0x80000000 ∧ (n : Int) = w := by
      change (if n < 0x80000000 then some (n : Int) else none) = some w at hw
      split at hw
      · rename_i hlt
        exact ⟨hlt, Option.some.inj hw⟩
      · cases hw
    exact (hv hlt.1).trans hlt.2

/-- The text of a macro is read up to its end. -/
theorem operand_ident (ih : LoopReads table n) (hat : At pos lx ts) (hg : Good table ts) (htk : lx.tk = .ident)
    (h : identOperand .defineTable table (.ofLoop (parseLoop .defineTable table n)) pos lx = .done p) :
    OperandReads table ts p := by
  have hne : lx.tk ≠ .exprEnd := by
    rw [htk]
    exact fun h => EToken.noConfusion h
  obtain ⟨t, ts', cs, rfl, hs, rfl, hl⟩ := hat.cons_of_tk hne
  obtain rfl := hs.ident htk
  obtain ⟨text, bts, bts', e₀, hfind, hlex, hplain, hsub, htok, hfit, hlev⟩ :=
    hg.enclosed lx.tkString (.here List.mem_cons_self)
  have hgb : Good table bts := hg.body List.mem_cons_self hfind hlex hplain
  unfold identOperand at h
  rw [if_neg (fun h => by cases h.1), hfind] at h
  obtain ⟨q, hcall, hq⟩ := Run.bind_done h
  cases hq
  obtain ⟨bpos, blx, hnext, hbat⟩ := hgb.next hlex lx
  unfold macroCall at hcall
  rw [hnext] at hcall
  obtain ⟨b₁, b₂, b₁', e, rfl, hsub₁, htok₁, hfit₁, hval, hat₂, hend⟩ := startExpr_reads ih hbat hgb hcall
  -- the text of the macro has no second tree, and none that goes on after a whole one
  obtain ⟨s₁, s₂, rfl, hs₁, hs₂⟩ := hsub.split
  obtain rfl := hsub₁.unique hs₁
  rw [List.nil_append] at htok₁
  rw [← htok₁] at htok
  have hs₂nil : s₂ = [] := by
    cases hs₂ with
    | nil => rfl
    | keep t ht _ => exact (Expr.Fits.not_ends hfit₁ hfit (hend t _ rfl) _ htok).elim
    | expand name _ _ _ _ _ =>
      rcases hend _ _ rfl with h | h <;> cases h
  rw [hs₂nil, List.append_nil] at htok
  obtain rfl := hfit.eq_of_tokens hfit₁ htok
  refine ⟨[.atom (.ident lx.tkString)], ts', _, cs, e₀, rfl, .expand _ text hfind hlex hsub .nil, ?_, hfit, hlev,
    hval, rfl, hl⟩
  rw [hs₂nil, List.append_nil, List.append_nil, htok₁]

/-- An expression in parentheses. -/
theorem operand_paren (ih : LoopReads table n) (hat : At pos lx ts) (hg : Good table ts) (htk : lx.tk = .lParen)
    (h : parenOperand .defineTable (.ofLoop (parseLoop .defineTable table n)) pos lx = .done p) :
    OperandReads table ts p := by
  obtain ⟨ts', cs, rfl, rfl, hl⟩ := hat.tokenOf (t := .lParen) (by rw [htk]; rfl)
  have hg' : Good table ts' := hg.sub fun t ht => List.mem_cons_of_mem _ ht
  obtain ⟨pos₁, lx₁, hnext, hat₁⟩ := hg'.next hl lx
  unfold parenOperand at h
  rw [hnext, Run.done_bind] at h
  obtain ⟨q, hcall, hq⟩ := Run.bind_done h
  obtain ⟨ts₁, ts₂, ts₁', e, rfl, hsub, htok, hfit, hval, hat₂, -⟩ := startExpr_reads ih hat₁ hg' hcall
  split at hq
  · rename_i hr
    cases hq
    obtain ⟨ts₃, cs₃, rfl, hpos, hl₃⟩ := hat₂.tokenOf (t := .rParen) (by rw [hr]; rfl)
    have hparen : ∀ name, (Tok.lParen : CTok) ≠ .atom (.ident name) := fun _ h => by cases h
    have hparen' : ∀ name, (Tok.rParen : CTok) ≠ .atom (.ident name) := fun _ h => by cases h
    refine ⟨.lParen :: ts₁ ++ [.rParen], ts₃, .lParen :: ts₁' ++ [.rParen], cs₃, .paren e, ?_, ?_, ?_, hfit, rfl,
      hval, hpos, hl₃⟩
    · rw [List.append_assoc]
      rfl
    · exact (Subst.keep _ hparen hsub).append (.single hparen')
    · rw [Expr.tokens, htok]
      rfl
  · cases hq

theorem operand_reads (ih : LoopReads table n) (hat : At pos lx ts) (hg : Good table ts)
    (h : operand .defineTable table (.ofLoop (parseLoop .defineTable table n)) pos lx = .done p) :
    OperandReads table ts p := by
  unfold operand at h
  split at h
  · rename_i htk
    cases h
    exact operand_num hat (Or.inl htk)
  · rename_i htk
    cases h
    exact operand_num hat (Or.inr htk)
  · rename_i htk
    exact operand_ident ih hat hg htk h
  · rename_i htk
    exact operand_paren ih hat hg htk h
  · cases h

/-- A `!` before an operand. -/
theorem prefixBang_reads (hs : Stacks fs vs ops) (hh : Held cGrammar fs) (hat : At pos lx ts)
    (hg : Good table ts) {vs' : List Int} {ops' : List EToken} {pos' : Pos} {lx' : Lexer}
    (h : prefixBang .defineTable vs ops pos lx = .done (vs', ops', pos', lx')) :
    ∃ fs' a ts', ts = a ++ ts' ∧ Subst table a a ∧ Stacks fs' vs' ops' ∧ Held cGrammar fs' ∧
      render cGrammar fs' = render cGrammar fs ++ a ∧ At pos' lx' ts' := by
  unfold prefixBang at h
  split at h
  · rename_i htk
    obtain ⟨ts', cs, rfl, rfl, hl⟩ := hat.tokenOf (t := .sym .bang) (by rw [htk]; rfl)
    have hg' : Good table ts' := hg.sub fun t ht => List.mem_cons_of_mem _ ht
    obtain ⟨pos₁, lx₁, hnext, hat₁⟩ := hg'.next hl lx
    rw [evaluateExpression_bang hs, Run.ofOption_some, Run.done_bind] at h
    dsimp only at h
    rw [hnext, Run.done_bind] at h
    dsimp only at h
    split at h
    · cases h
    · cases h
      have hbang : ∀ name, (Tok.sym .bang : CTok) ≠ .atom (.ident name) := fun _ h => by cases h
      exact ⟨.pre .bang :: fs, [.sym .bang], ts', rfl, .single hbang, .bang hs,
        ⟨trivial, hs.top_pre (d := .defineTable), hh⟩, rfl, hat₁⟩
  · cases h
    exact ⟨fs, [], ts, rfl, .nil, hs, hh, (List.append_nil _).symm, hat⟩

/-- The end of an expression. -/
theorem finish_reads (hs : Stacks fs vs ops) (hh : Held cGrammar fs) {t : CExpr} {v : Int} (ht : t.Fits cGrammar)
    (hl : t.level cGrammar = 0) (hv : Val t v) (hat : At pos lx ts)
    (hends : Dialect.defineTable.ends lx.tk = true)
    (h : finish .defineTable (v :: vs) ops s pos lx = .done p) :
    TurnReads table (render cGrammar fs ++ t.tokens cGrammar) ts p := by
  obtain ⟨hval, hpos, hlx⟩ := finish_reduce hs hv h
  have hnil : (cGrammar.reduce 15 fs t).1 = [] := reduce_end hs.closes t
  have htok := reduce_render (g := cGrammar) 15 fs t
  have htop : Top cGrammar (t.level cGrammar) fs := by
    rw [hl]
    exact Top.zero
  rw [hnil] at htok
  refine ⟨[], ts, [], (cGrammar.reduce 15 fs t).2, rfl, .nil, ?_, (hh.reduce ht htop).fits, hval, ?_, ?_⟩
  · rw [List.append_nil]
    exact htok
  · rw [hpos, hlx]
    exact hat
  · rintro t' ts' rfl
    obtain ⟨hshows, -⟩ := hat
    cases htk : lx.tk <;> rw [htk] at hends <;> try cases hends
    · exact (hshows.ne (Or.inl rfl) htk).elim
    · exact Or.inl (hshows.eq_tokenOf (by rw [htk]; rfl))
    · exact (hshows.ne (Or.inr rfl) htk).elim
    · exact Or.inr (hshows.eq_tokenOf (by rw [htk]; rfl))

/-- A binary operator and the turns after it. -/
theorem binaryOperator_reads (ih : LoopReads table n) (hs : Stacks fs vs ops) (hh : Held cGrammar fs) {t : CExpr}
    {v : Int} (ht : t.Fits cGrammar) (hl : t.level cGrammar = 0) (hv : Val t v) (hat : At pos lx ts)
    (hg : Good table ts) {o : BinOp} (htk : lx.tk = .bin o)
    (h : binaryOperator .defineTable (.ofLoop (parseLoop .defineTable table n)) o (v :: vs) ops s pos lx = .done p) :
    TurnReads table (render cGrammar fs ++ t.tokens cGrammar) ts p := by
  obtain ⟨ts', cs, rfl, rfl, hlex⟩ := hat.tokenOf (t := .sym (.bin o)) (by rw [htk]; rfl)
  have hg' : Good table ts' := hg.sub fun t ht => List.mem_cons_of_mem _ ht
  obtain ⟨pos', lx', hnext, hat'⟩ := hg'.next hlex lx
  unfold binaryOperator at h
  obtain ⟨⟨vs', ops'⟩, heval, h⟩ := Run.bind_done h
  dsimp only at h
  rw [hnext, Run.done_bind] at h
  obtain ⟨v', vs'', ops'', hs', hv', rfl, rfl⟩ :=
    evaluateExpression_operator hs hv (Or.inl ⟨o, rfl⟩) (fun h => EToken.noConfusion h) (Run.ofOption_done heval)
  rw [grammar_defineTable, reduceLevel_bin] at hs' hv'
  -- the operator takes all that was reduced as its left operand
  have hred := hh.reduce (p := o.prec) ht (by rw [hl]; exact Top.zero)
  have hleft : cGrammar.left o.prec ((cGrammar.reduce o.prec fs t).2.level cGrammar) := by
    refine reduce_left (Or.inl ?_)
    rw [hl]
    exact Nat.lt_of_lt_of_le (by decide) o.prec_bounds.1
  have hheld : Held cGrammar (.bin (cGrammar.reduce o.prec fs t).2 o :: (cGrammar.reduce o.prec fs t).1) :=
    ⟨⟨hred.fits, hleft⟩, reduce_stop o.prec fs t, hred.held⟩
  have hreads := ih _ _ _ _ _ _ _ _ (.bin o hs' hv') hheld hat' hg' h
  have hkeep : Subst table [.sym (.bin o)] [.sym (.bin o)] := .single fun name h => by cases h
  refine TurnReads.cons hkeep ?_
  rw [← reduce_render o.prec fs t, List.append_assoc]
  exact hreads

/-- A `?`, the operand up to `:` and the turns after it. -/
theorem questionOperator_reads (ih : LoopReads table n) (hs : Stacks fs vs ops) (hh : Held cGrammar fs) {t : CExpr}
    {v : Int} (ht : t.Fits cGrammar) (hl : t.level cGrammar = 0) (hv : Val t v) (hat : At pos lx ts)
    (hg : Good table ts) (htk : lx.tk = .question)
    (h : questionOperator .defineTable (.ofLoop (parseLoop .defineTable table n)) (v :: vs) ops s pos lx = .done p) :
    TurnReads table (render cGrammar fs ++ t.tokens cGrammar) ts p := by
  obtain ⟨ts', cs, rfl, rfl, hlex⟩ := hat.tokenOf (t := .question) (by rw [htk]; rfl)
  have hg' : Good table ts' := hg.sub fun t ht => List.mem_cons_of_mem _ ht
  obtain ⟨pos', lx', hnext, hat'⟩ := hg'.next hlex lx
  unfold questionOperator at h
  obtain ⟨⟨vs', ops'⟩, heval, h⟩ := Run.bind_done h
  dsimp only at h
  rw [hnext, Run.done_bind] at h
  obtain ⟨v', vs'', ops'', hs', hv', rfl, rfl⟩ :=
    evaluateExpression_operator hs hv (Or.inr (Or.inl rfl)) (fun h => EToken.noConfusion h) (Run.ofOption_done heval)
  have hlevel : reduceLevel .question = 14 := rfl
  rw [grammar_defineTable, hlevel] at hs' hv'
  obtain ⟨q, hcall, hq⟩ := Run.bind_done h
  obtain ⟨ts₁, ts₂, ts₁', e, rfl, hsub, htok, hfit, hval, hat₂, -⟩ := startExpr_reads ih hat' hg' hcall
  split at hq
  · rename_i hcolon
    obtain ⟨ts₃, cs₃, rfl, hpos, hlex₃⟩ := hat₂.tokenOf (t := .colon) (by rw [hcolon]; rfl)
    have hg₃ : Good table ts₃ :=
      hg'.sub fun t ht => List.mem_append_right _ (List.mem_cons_of_mem _ ht)
    obtain ⟨pos₃, lx₃, hnext₃, hat₃⟩ := hg₃.next hlex₃ q.lx
    rw [hpos, hnext₃, Run.done_bind] at hq
    -- the condition is all that was reduced, the second operand stands alone
    have hred := hh.reduce (p := 14) ht (by rw [hl]; exact Top.zero)
    have hcond : (cGrammar.reduce 14 fs t).2.level cGrammar < 14 :=
      reduce_lt_condLevel (g := cGrammar) (by rw [hl]; decide)
    have hheld : Held cGrammar (.cond (cGrammar.reduce 14 fs t).2 e :: (cGrammar.reduce 14 fs t).1) :=
      ⟨⟨hred.fits, hfit, hcond⟩, reduce_stop 14 fs t, hred.held⟩
    have hreads := ih _ _ _ _ _ _ _ _ (.cond hs' hv' hval) hheld hat₃ hg₃ hq
    have hquest : ∀ name, (Tok.question : CTok) ≠ .atom (.ident name) := fun _ h => by cases h
    have hcol : ∀ name, (Tok.colon : CTok) ≠ .atom (.ident name) := fun _ h => by cases h
    have hread : Subst table (.question :: ts₁ ++ [.colon]) (.question :: ts₁' ++ [.colon]) :=
      (Subst.keep _ hquest hsub).append (.single hcol)
    have heq : (.question :: (ts₁ ++ .colon :: ts₃) : List CTok) = (.question :: ts₁ ++ [.colon]) ++ ts₃ := by
      simp
    rw [heq]
    refine TurnReads.cons hread ?_
    rw [← reduce_render (g := cGrammar) 14 fs t, List.append_assoc]
    rw [List.nil_append] at htok
    rw [render, Frame.tokens, htok] at hreads
    simpa only [List.append_assoc, List.cons_append] using hreads
  · cases hq

/-- What follows an operand. -/
theorem operator_reads (ih : LoopReads table n) (hs : Stacks fs vs ops) (hh : Held cGrammar fs) {t : CExpr}
    {v : Int} (ht : t.Fits cGrammar) (hl : t.level cGrammar = 0) (hv : Val t v) {cs : Text} (hlex : Lexes cs ts)
    (hg : Good table ts)
    (h : operator .defineTable (.ofLoop (parseLoop .defineTable table n)) (v :: vs) ops s (some cs) lx = .done p) :
    TurnReads table (render cGrammar fs ++ t.tokens cGrammar) ts p := by
  obtain ⟨pos', lx', hnext, hat⟩ := hg.next hlex lx
  unfold operator at h
  rw [hnext, Run.done_bind] at h
  dsimp only at h
  split at h
  · rename_i hends
    exact finish_reads hs hh ht hl hv hat hends h
  · split at h
    · rename_i htk
      exact binaryOperator_reads ih hs hh ht hl hv hat hg htk h
    · rename_i htk _
      exact questionOperator_reads ih hs hh ht hl hv hat hg htk h
    · cases h

end

/-- **Every turn of the loop reads a part of an expression.** -/
theorem parseLoop_reads (table : Table) (n : ℕ) : LoopReads table n := by
  induction n with
  | zero =>
    intro fs vs ops s pos lx ts p _ _ _ _ h
    cases h
  | succ n ih =>
    intro fs vs ops s pos lx ts p hs hh hat hg h
    unfold parseLoop loopBody at h
    split at h
    · cases h
    · obtain ⟨⟨vs', ops', pos', lx'⟩, hbang, h⟩ := Run.bind_done h
      obtain ⟨q, hop, h⟩ := Run.bind_done h
      obtain ⟨fs', a, ts', rfl, ha, hs', hh', hrender, hat'⟩ := prefixBang_reads hs hh hat hg hbang
      have hg' : Good table ts' := hg.sub fun t ht => List.mem_append_right _ ht
      obtain ⟨ts₁, ts₂, ts₁', cs, t, rfl, hsub, htok, hfit, hlev, hval, hpos, hlex⟩ := operand_reads ih hat' hg' hop
      have hg₂ : Good table ts₂ := hg'.sub fun t ht => List.mem_append_right _ ht
      rw [hpos] at h
      have hreads := operator_reads ih hs' hh' hfit hlev hval hlex hg₂ h
      rw [hrender, htok] at hreads
      exact (hreads.cons hsub).cons ha

/-- **`FindStringValue` is sound.** A string that is read up to its end is an expression of C after macro
substitution, and the value is that of the expression. -/
theorem find_string_value_sound {table : Table} {cs : Text} {ts : List CTok} {n : ℕ} {lx : Lexer} {p : Parsed}
    (hlex : Lexes cs ts) (hg : Good table ts)
    (hrun : CDefineTable.findStringValue table n (some cs) lx = .done p) (hend : p.pos = none) :
    ∃ ts', ∃ e : CExpr, Subst table ts ts' ∧ e.tokens cGrammar = ts' ∧ e.Fits cGrammar ∧
      (∀ e' : CExpr, e'.tokens cGrammar = ts' → e'.Fits cGrammar → e' = e) ∧
      (Defined e → cValue e = some p.value) := by
  obtain ⟨pos, lx', hnext, hat⟩ := hg.next hlex lx
  unfold CDefineTable.findStringValue evaluate at hrun
  rw [hnext] at hrun
  obtain ⟨ts₁, ts₂, ts₁', e, rfl, hsub, htok, hfit, hval, hat₂, -⟩ :=
    startExpr_reads (parseLoop_reads table n) hat hg hrun
  have hnil : ts₂ = [] := by
    cases ts₂ with
    | nil => rfl
    | cons t ts₂ =>
      obtain ⟨-, cs', hp, -⟩ := hat₂
      rw [hend] at hp
      cases hp
  rw [hnil, List.append_nil]
  refine ⟨ts₁', e, hsub, htok, hfit, ?_, ?_⟩
  · intro e' htok' hfit'
    exact hfit'.eq_of_tokens hfit (htok'.trans htok.symm)
  · intro hdef
    obtain ⟨w, hw⟩ := strictValue_of_defined e hdef
    rw [hval w hw]
    exact cValue_of_strictValue e hw

/-! ## A string with conditionals in every place -/

/-- `A` is `(1+B)` and `B` is `2`. -/
def demoTable : Table := [(['A'], ['(', '1', '+', 'B', ')']), (['B'], ['2'])]

/-- `0?1?5:6:0?3:(4*2+1)<<A` -/
def demoText : Text :=
  ['0', '?', '1', '?', '5', ':', '6', ':', '0', '?', '3', ':', '(', '4', '*', '2', '+', '1', ')', '<', '<', 'A']

def demoNum (n : ℕ) : CTok := .atom (.num n .plain)

def demoToks : List CTok :=
  [demoNum 0, .question, demoNum 1, .question, demoNum 5, .colon, demoNum 6, .colon, demoNum 0, .question,
    demoNum 3, .colon, .lParen, demoNum 4, .sym (.bin .asterisk), demoNum 2, .sym (.bin .plus), demoNum 1,
    .rParen, .sym (.bin .lessLess), .atom (.ident ['A'])]

theorem demoText_lexes : Lexes demoText demoToks := by
  unfold demoText demoToks
  repeat first | exact .nil rfl | refine .cons rfl rfl ?_

theorem demoA_lexes : Lexes ['(', '1', '+', 'B', ')']
    [.lParen, demoNum 1, .sym (.bin .plus), .atom (.ident ['B']), .rParen] := by
  repeat first | exact .nil rfl | refine .cons rfl rfl ?_

theorem demoB_lexes : Lexes ['2'] [demoNum 2] := .cons rfl rfl (.nil rfl)

theorem demoToks_good : Good demoTable demoToks := by
  refine ⟨by decide, fun name hname => ?_⟩
  have hmem : name ∈ [['A'], ['B']] := by
    refine hname.mem (fun name h => ?_) (fun name h => ?_)
    · simp [demoToks, demoNum] at h
      simp [h]
    · simp at h
      rcases h with rfl | rfl
      · exact ⟨_, _, rfl, demoA_lexes, fun name h => by simp [demoNum] at h; simp [h]⟩
      · exact ⟨_, _, rfl, demoB_lexes, fun name h => by simp [demoNum] at h⟩
  have hB : Subst demoTable [.atom (.ident ['B'])] [demoNum 2] :=
    .expand _ _ rfl demoB_lexes (.single fun name h => by cases h) .nil
  simp at hmem
  rcases hmem with rfl | rfl
  · refine ⟨_, _, _, .paren (.bin .plus (.atom (.num 1 .plain)) (.atom (.num 2 .plain))), rfl, demoA_lexes, by decide,
      ?_, rfl, ⟨trivial, trivial, Or.inl (by decide), Or.inl (by decide)⟩, rfl⟩
    refine .keep _ (fun name h => by cases h) (.keep _ (fun name h => by cases h)
      (.keep _ (fun name h => by cases h) ?_))
    exact hB.append (.single fun name h => by cases h)
  · refine ⟨_, _, _, .atom (.num 2 .plain), rfl, demoB_lexes, by decide, ?_, rfl, trivial, rfl⟩
    exact .single fun name h => by cases h

theorem find_string_value_sound_demo :
    ∃ ts', ∃ e : CExpr, Subst demoTable demoToks ts' ∧ e.tokens cGrammar = ts' ∧ e.Fits cGrammar ∧
      (∀ e' : CExpr, e'.tokens cGrammar = ts' → e'.Fits cGrammar → e' = e) ∧ (Defined e → cValue e = some 72) :=
  find_string_value_sound (n := 12) (p := ⟨72, true, none, ⟨.exprEnd, ['2'], true, []⟩⟩) demoText_lexes
    demoToks_good (rfl : CDefineTable.findStringValue demoTable 12 (some demoText) .initial = _) rfl

/-- The value of a text, when all of it was read. -/
def valueOf (table : Table) (cs : Text) : Option Int :=
  match CDefineTable.findStringValue table 20 (some cs) .initial with
  | .done p => if p.pos = none then some p.value else none
  | _ => none

/-- **Octal constants, suffixes and macros that are not enclosed.** `010` is 8 in C and 10 here; `(0-1)<1u`
compares with 2^32 - 1 in C; with `A` for `(B*2)` and `B` for `1+1`, `A` is 3 in C; and `1)` is accepted. -/
theorem find_string_value_differs :
    (Lexes ['0', '1', '0'] [.atom (.num 8 .octal)] ∧ cValue (.atom (.num 8 .octal)) = some 8 ∧
      valueOf [] ['0', '1', '0'] = some 10) ∧
    (valueOf [] ['(', '0', '-', '1', ')', '<', '1', 'u'] = some 1 ∧ ¬(-1 : Int) % 4294967296 < 1) ∧
    (cValue (.paren (.bin .plus (.atom (.num 1 .plain)) (.bin .asterisk (.atom (.num 1 .plain))
        (.atom (.num 2 .plain))))) = some 3 ∧
      valueOf [(['A'], ['(', 'B', '*', '2', ')']), (['B'], ['1', '+', '1'])] ['A'] = some 4) ∧
    CDefineTable.findStringValue [] 20 (some ['1', ')']) .initial =
      .done ⟨1, true, some [], ⟨.rParen, ['1'], true, []⟩⟩ := by
  refine ⟨⟨.cons rfl rfl (.nil rfl), rfl, rfl⟩, ⟨rfl, by decide⟩, ⟨rfl, rfl⟩, rfl⟩

end OpenHT.Htl
