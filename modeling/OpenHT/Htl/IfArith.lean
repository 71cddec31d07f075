import OpenHT.Htl.IfReads

/-!
# The arithmetic of `#if`

What `ParseExpression` and `EvaluateExpression` of `htl` and of `Htfe` compute for a constant expression. They know no
prefix operator but a `!` right before a constant or a parenthesis, and group operators of equal precedence from the
right.

* `FindsValue`: with enough turns the value is that of C.
* `scan`: the tokens `ParseExpression` knows what to do with, one after the other.
* `if_value`: the value is found exactly where there are no other prefix operators.
* `chain_differs`: `3-2-1`.
-/

namespace OpenHT.Htl.IfArith

open OpPrec

/-- With enough turns the preprocessors find C's value for the text of `e`. -/
def FindsValue (table : Table) (cs : Text) (e : CExpr) : Prop :=
  ∃ v k, cValue e = some v ∧ ∀ n lx, k ≤ n → ∃ p, evaluate .preProcess table n (some cs) lx = .done p ∧ p.value = v

/-- The expressions of a condition without names. -/
def Constants : CExpr → Prop
  | .atom (.num _ sp) => sp = .plain
  | .atom (.ident _) => False
  | .paren e => Constants e
  | .pre _ e => Constants e
  | .bin _ a b => Constants a ∧ Constants b
  | .cond _ _ _ => False

theorem constants_readable (e : CExpr) (h : Constants e) : Readable (e.tokens cGrammar) := by
  induction e with
  | atom a =>
    cases a with
    | num n sp =>
      intro t ht
      obtain rfl := List.mem_singleton.1 ht
      exact ⟨h, Or.inr ⟨by simp, by simp⟩, by simp⟩
    | ident name => exact h.elim
  | paren e ih =>
    intro t ht
    rw [Expr.tokens] at ht
    simp only [List.cons_append, List.mem_cons, List.mem_append, List.not_mem_nil, or_false] at ht
    rcases ht with rfl | ht | rfl
    · exact ⟨trivial, Or.inr ⟨by simp, by simp⟩, by simp⟩
    · exact ih h t ht
    · exact ⟨trivial, Or.inr ⟨by simp, by simp⟩, by simp⟩
  | pre u e ih =>
    intro t ht
    rcases List.mem_cons.1 ht with rfl | ht
    · exact ⟨trivial, Or.inr ⟨by simp, by simp⟩, by simp⟩
    · exact ih h t ht
  | bin o a b iha ihb =>
    intro t ht
    rw [Expr.tokens] at ht
    rcases List.mem_append.1 ht with ht | ht
    · exact iha h.1 t ht
    · rcases List.mem_cons.1 ht with rfl | ht
      · exact ⟨trivial, Or.inr ⟨by simp, by simp⟩, by simp⟩
      · exact ihb h.2 t ht
  | cond c a b _ _ _ => exact h.elim

theorem Plain.constants {e : CExpr} (h : Plain e) : Constants e := by
  induction e with
  | atom a => cases a with
    | num n sp => exact h
    | ident name => exact h
  | paren e ih => exact ih h
  | pre u e ih => exact ih h.2.2
  | bin o a b iha ihb => exact ⟨iha h.1, ihb h.2⟩
  | cond c a b _ _ _ => exact h

/-! ## The prefix operators that are read -/

/-- Where the parser is: before an operand, after a `!`, or after an operand. -/
inductive Mode
  | operand
  | bang
  | operator

/-- Whether `ParseExpression` knows what to do with each token, up to a parenthesis that was not opened. -/
def scan : Mode → ℕ → List CTok → Bool
  | _, _, [] => true
  | .operand, k, .sym .bang :: ts => scan .bang k ts
  | .operand, k, .atom _ :: ts => scan .operator k ts
  | .operand, k, .lParen :: ts => scan .operand (k + 1) ts
  | .bang, k, .atom _ :: ts => scan .operator k ts
  | .bang, k, .lParen :: ts => scan .operand (k + 1) ts
  | .operator, k, .sym (.bin _) :: ts => scan .operand k ts
  | .operator, 0, .rParen :: _ => true
  | .operator, k + 1, .rParen :: ts => scan .operator k ts
  | _, _, _ => false

/-- **What is known is plain.** -/
theorem plain_of_scan (e : CExpr) (hfit : e.Fits cGrammar) (hc : Constants e) (k : ℕ) (rest : List CTok) :
    (scan .operand k (e.tokens cGrammar ++ rest) = true → Plain e ∧ scan .operator k rest = true) ∧
      (e.level cGrammar ≤ 3 → scan .bang k (e.tokens cGrammar ++ rest) = true →
        e.level cGrammar = 0 ∧ Plain e ∧ scan .operator k rest = true) := by
  induction e generalizing k rest with
  | atom a =>
    cases a with
    | num n sp => exact ⟨fun h => ⟨hc, h⟩, fun _ h => ⟨rfl, hc, h⟩⟩
    | ident name => exact hc.elim
  | paren e ih =>
    have htok : (Expr.paren e : CExpr).tokens cGrammar ++ rest = .lParen :: (e.tokens cGrammar ++ .rParen :: rest) := by
      rw [Expr.tokens]
      simp
    have hin := (ih hfit hc (k + 1) (.rParen :: rest)).1
    rw [htok]
    exact ⟨fun h => hin h, fun _ h => ⟨rfl, hin h⟩⟩
  | pre u e ih =>
    have htok : (Expr.pre u e : CExpr).tokens cGrammar ++ rest = .sym u.sym :: (e.tokens cGrammar ++ rest) := rfl
    have hin := (ih hfit.1 hc k rest).2 hfit.2
    rw [htok]
    cases u with
    | bang =>
      -- a second `!` is not known
      refine ⟨fun h => ?_, fun _ h => by cases h⟩
      obtain ⟨hlevel, hp, hrest⟩ := hin h
      exact ⟨⟨rfl, hlevel, hp⟩, hrest⟩
    | plus => refine ⟨fun h => ?_, fun _ h => ?_⟩ <;> cases h
    | minus => refine ⟨fun h => ?_, fun _ h => ?_⟩ <;> cases h
    | tilda => refine ⟨fun h => ?_, fun _ h => ?_⟩ <;> cases h
  | bin o a b iha ihb =>
    have htok : (Expr.bin o a b : CExpr).tokens cGrammar ++ rest =
        a.tokens cGrammar ++ (.sym (.bin o) :: (b.tokens cGrammar ++ rest)) := by
      rw [Expr.tokens]
      simp [grammar]
    rw [htok]
    refine ⟨fun h => ?_, fun hl => ?_⟩
    · obtain ⟨ha, hmid⟩ := (iha hfit.1 hc.1 k _).1 h
      obtain ⟨hb, hrest⟩ := (ihb hfit.2.1 hc.2 k rest).1 hmid
      exact ⟨⟨ha, hb⟩, hrest⟩
    · have hb := o.prec_bounds
      change o.prec ≤ 3 at hl
      omega
  | cond c a b _ _ _ => exact hc.elim

section Scan

variable {table : Table} {n : ℕ} {vs : List Int} {ops : List EToken} {s : Bool} {pos : Pos} {lx : Lexer}
  {ts : List CTok} {p : Parsed}

/-- A call that is done has known every token up to the end or a closing parenthesis. -/
def Scanned (ts : List CTok) (p : Parsed) : Prop :=
  ∃ ts', At p.pos p.lx ts' ∧ Readable ts' ∧ (ts' = [] ∨ ∃ r, ts' = .rParen :: r) ∧
    ∀ k, scan .operand k ts = scan .operator k ts'

def LoopScans (table : Table) (n : ℕ) : Prop :=
  ∀ vs ops s pos lx ts p, At pos lx ts → Readable ts → parseLoop .preProcess table n vs ops s pos lx = .done p →
    Scanned ts p

theorem startExpr_scans (ih : LoopScans table n) (hat : At pos lx ts) (hr : Readable ts) (hne : ts ≠ [])
    (h : startExpr (parseLoop .preProcess table n) pos lx = .done p) : Scanned ts p := by
  cases ts with
  | nil => exact absurd rfl hne
  | cons t ts =>
    obtain ⟨hs, cs, rfl, hl⟩ := hat
    exact ih [] [.exprBegin] true (some (cs.dropWhile isBlank)) lx (t :: ts) p ⟨hs, _, rfl, hl.skip⟩ hr h

/-- An operand, also after a `!`. -/
theorem operand_scans (ih : LoopScans table n) (hat : At pos lx ts) (hr : Readable ts)
    (h : operand .preProcess table (.ofLoop (parseLoop .preProcess table n)) pos lx = .done p) :
    ∃ ts' cs, p.pos = some cs ∧ Lexes cs ts' ∧ Readable ts' ∧
      ∀ k, scan .operand k ts = scan .operator k ts' ∧ scan .bang k ts = scan .operator k ts' := by
  have hnum : (lx.tk = .numInt ∨ lx.tk = .numHex) → p = ⟨(getTokenValue lx).1, lx.isSigned, pos, (getTokenValue lx).2⟩ →
      ∃ ts' cs, p.pos = some cs ∧ Lexes cs ts' ∧ Readable ts' ∧
        ∀ k, scan .operand k ts = scan .operator k ts' ∧ scan .bang k ts = scan .operator k ts' := by
    rintro htk rfl
    have hne : lx.tk ≠ .exprEnd := by
      intro he
      rcases htk with htk | htk <;> rw [htk] at he <;> cases he
    obtain ⟨t, ts', cs, rfl, hs, rfl, hl⟩ := hat.cons_of_tk hne
    obtain ⟨m, sp, rfl, -⟩ := hs.num htk
    exact ⟨ts', cs, rfl, hl, hr.tail, fun k => ⟨rfl, rfl⟩⟩
  unfold operand at h
  split at h
  · rename_i htk
    cases h
    exact hnum (Or.inl htk) rfl
  · rename_i htk
    cases h
    exact hnum (Or.inr htk) rfl
  · rename_i htk
    obtain ⟨t, ts', cs, rfl, hs, -⟩ := hat.cons_of_tk (by rw [htk]; exact EToken.noConfusion)
    exact absurd (hs.ident htk) ((hr t List.mem_cons_self).2.2 _)
  · rename_i htk
    obtain ⟨ts', cs, rfl, rfl, hl⟩ := hat.tokenOf (t := .lParen) (by rw [htk]; rfl)
    obtain ⟨pos₁, lx₁, hnext, hat₁⟩ := hr.tail.next hl lx
    unfold parenOperand at h
    rw [hnext, Run.done_bind] at h
    obtain ⟨q, hcall, hq⟩ := Run.bind_done h
    split at hq
    · rename_i hclose
      cases hq
      have hne : ts' ≠ [] := by
        rintro rfl
        have hpos : pos₁ = none := hat₁.2
        rw [hpos] at hcall
        cases hcall
      -- the call ends at the parenthesis, one level further in
      obtain ⟨ts₂, hat₂, hr₂, hend, hscan⟩ := startExpr_scans ih hat₁ hr.tail hne hcall
      obtain ⟨ts₃, cs₃, rfl, hpos₃, hl₃⟩ := hat₂.tokenOf (t := .rParen) (by rw [hclose]; rfl)
      exact ⟨ts₃, cs₃, hpos₃, hl₃, hr₂.tail, fun k => ⟨hscan (k + 1), hscan (k + 1)⟩⟩
    · cases hq
  · cases h

/-- What follows an operand. -/
theorem operator_scans (ih : LoopScans table n) {cs : Text} (hl : Lexes cs ts) (hr : Readable ts)
    (h : operator .preProcess (.ofLoop (parseLoop .preProcess table n)) vs ops s (some cs) lx = .done p) :
    ∃ ts', At p.pos p.lx ts' ∧ Readable ts' ∧ (ts' = [] ∨ ∃ r, ts' = .rParen :: r) ∧
      ∀ k, scan .operator k ts = scan .operator k ts' := by
  obtain ⟨pos₁, lx₁, hnext, hat₁⟩ := hr.next hl lx
  unfold operator at h
  rw [hnext, Run.done_bind] at h
  dsimp only at h
  split at h
  · rename_i hends
    have hp : p.pos = pos₁ ∧ p.lx = lx₁ := by
      unfold finish at h
      split at h
      · cases h
        exact ⟨rfl, rfl⟩
      · cases h
    refine ⟨ts, by rw [hp.1, hp.2]; exact hat₁, hr, ?_, fun _ => rfl⟩
    cases ts with
    | nil => exact Or.inl rfl
    | cons t ts =>
      obtain ⟨hs, -⟩ := hat₁
      cases htk : lx₁.tk <;> rw [htk] at hends <;> try cases hends
      · exact (hs.ne (Or.inl rfl) htk).elim
      · exact Or.inr ⟨ts, by rw [show t = .rParen from hs.eq_tokenOf (by rw [htk]; rfl)]⟩
  · split at h
    · rename_i o htk
      obtain ⟨ts', cs₁, rfl, rfl, hl₁⟩ := hat₁.tokenOf (t := .sym (.bin o)) (by rw [htk]; rfl)
      obtain ⟨pos₂, lx₂, hnext₂, hat₂⟩ := hr.tail.next hl₁ lx₁
      unfold binaryOperator at h
      obtain ⟨⟨vs', ops'⟩, -, h⟩ := Run.bind_done h
      dsimp only at h
      rw [hnext₂, Run.done_bind] at h
      obtain ⟨ts₂, hat₃, hr₃, hend, hscan⟩ := ih _ _ _ _ _ _ _ hat₂ hr.tail h
      exact ⟨ts₂, hat₃, hr₃, hend, fun k => hscan k⟩
    · rename_i heq
      cases heq
    · cases h

/-- **Every turn of the loop** knows the tokens it takes. -/
theorem parseLoop_scans (table : Table) (n : ℕ) : LoopScans table n := by
  induction n with
  | zero =>
    intro vs ops s pos lx ts p _ _ h
    cases h
  | succ n ih =>
    intro vs ops s pos lx ts p hat hr h
    unfold parseLoop loopBody at h
    split at h
    · cases h
    obtain ⟨⟨vs', ops', pos', lx'⟩, hbang, h⟩ := Run.bind_done h
    obtain ⟨q, hop, h⟩ := Run.bind_done h
    -- a `!` in front of the operand, or none
    obtain ⟨ts', hat', hr', hscan'⟩ : ∃ ts', At pos' lx' ts' ∧ Readable ts' ∧
        ((∀ k, scan .operand k ts = scan .operand k ts') ∨ ∀ k, scan .operand k ts = scan .bang k ts') := by
      unfold prefixBang at hbang
      split at hbang
      · rename_i htk
        obtain ⟨ts', cs, rfl, rfl, hl⟩ := hat.tokenOf (t := .sym .bang) (by rw [htk]; rfl)
        obtain ⟨pos₁, lx₁, hnext, hat₁⟩ := hr.tail.next hl lx
        obtain ⟨⟨vs₁, ops₁⟩, -, hbang⟩ := Run.bind_done hbang
        dsimp only at hbang
        rw [hnext, Run.done_bind] at hbang
        dsimp only at hbang
        split at hbang
        · cases hbang
        · cases hbang
          exact ⟨ts', hat₁, hr.tail, Or.inr fun _ => rfl⟩
      · cases hbang
        exact ⟨ts, hat, hr, Or.inl fun _ => rfl⟩
    obtain ⟨ts₁, cs₁, hpos, hl₁, hr₁, hscan₁⟩ := operand_scans ih hat' hr' hop
    rw [hpos] at h
    obtain ⟨ts₂, hat₂, hr₂, hend, hscan₂⟩ := operator_scans ih hl₁ hr₁ h
    refine ⟨ts₂, hat₂, hr₂, hend, fun k => ?_⟩
    rw [← hscan₂ k]
    rcases hscan' with hs | hs
    · rw [hs, (hscan₁ k).1]
    · rw [hs, (hscan₁ k).2]

end Scan

/-- Only plain expressions have a value for the preprocessors. -/
theorem FindsValue.plain {table : Table} {e : CExpr} {cs : Text} (h : FindsValue table cs e) (hfit : e.Fits cGrammar)
    (hc : Constants e) (hlex : Lexes cs (e.tokens cGrammar)) : Plain e := by
  obtain ⟨v, k, -, hall⟩ := h
  obtain ⟨p, hp, -⟩ := hall k ⟨.error, [], true, []⟩ (Nat.le_refl k)
  have hr := constants_readable e hc
  obtain ⟨pos, lx, hnext, hat⟩ := hr.next hlex ⟨.error, [], true, []⟩
  unfold evaluate at hp
  rw [hnext, Run.done_bind] at hp
  obtain ⟨ts, -, -, hend, hscan⟩ := startExpr_scans (parseLoop_scans table k) hat hr (tokens_ne_nil e) hp
  have hall : scan .operand 0 (e.tokens cGrammar ++ []) = true := by
    rw [List.append_nil, hscan 0]
    rcases hend with rfl | ⟨r, rfl⟩ <;> rfl
  exact ((plain_of_scan e hfit hc 0 []).1 hall).1

/-- Plain expressions have the value of C. -/
theorem Plain.findsValue {e : CExpr} {cs : Text} (hp : Plain e) (hfit : e.Fits cGrammar) (hd : Defined e)
    (hlex : Lexes cs (e.tokens cGrammar)) (hg : Grouped e) (table : Table) : FindsValue table cs e := by
  obtain ⟨v, hv⟩ := strictValue_of_defined e hd
  have hv' := regroup_value e hg hv
  have hsome := Option.isSome_of_eq_some hv'
  obtain ⟨⟨k, hk⟩, -⟩ := exists_reads table (regroup e) (regroup_fits e hfit hg) (regroup_plain e hp) hsome
  refine ⟨v, k, cValue_of_strictValue e hv, fun n lx hn => ?_⟩
  have htok : e.tokens cGrammar = (regroup e).tokens cGrammar ++ [] := by rw [regroup_tokens, List.append_nil]
  have hr : Readable ((regroup e).tokens cGrammar ++ []) := htok ▸ constants_readable e hp.constants
  obtain ⟨pos, lx', hnext, hat⟩ := hr.next (htok ▸ hlex) lx
  obtain ⟨p, hcall, hval, -⟩ := startExpr_done hk hsome (Or.inl rfl) (tokens_ne_nil _) hat hr (n - k)
  rw [Nat.sub_add_cancel hn] at hcall
  refine ⟨p, ?_, hval v hv'⟩
  unfold evaluate
  rw [hnext, Run.done_bind]
  exact hcall

/-- **The value of a condition** whose operators of equal precedence are the same and associative. -/
theorem if_value {e : CExpr} {cs : Text} (hfit : e.Fits cGrammar) (hd : Defined e) (hc : Constants e)
    (hlex : Lexes cs (e.tokens cGrammar)) (hg : Grouped e) (table : Table) : FindsValue table cs e ↔ Plain e :=
  ⟨fun h => h.plain hfit hc hlex, fun hp => hp.findsValue hfit hd hlex hg table⟩

def number (n : ℕ) : CExpr := .atom (.num n .plain)

/-- `!(2+3*4)|0x10|1` -/
theorem if_value_sum : FindsValue [] "!(2+3*4)|0x10|1".toList
    (.bin .vbar (.bin .vbar (.pre .bang (.paren (.bin .plus (number 2) (.bin .asterisk (number 3) (number 4)))))
      (number 16)) (number 1)) := by
  refine (if_value ?_ ?_ ?_ ?_ ?_ []).2 ?_
  · refine ⟨⟨⟨⟨trivial, ⟨trivial, trivial, ?_, ?_⟩, ?_, ?_⟩, ?_⟩, trivial, ?_, ?_⟩, trivial, ?_, ?_⟩ <;> decide
  · exact ⟨⟨⟨⟨rfl, ⟨rfl, rfl, rfl⟩, rfl⟩, rfl⟩, rfl, rfl⟩, rfl, rfl⟩
  · exact ⟨⟨⟨rfl, rfl, rfl⟩, rfl⟩, rfl⟩
  · repeat (first | exact .nil rfl | refine .cons rfl rfl ?_)
  · exact ⟨⟨⟨trivial, ⟨trivial, trivial, by decide⟩, by decide⟩, trivial, by decide⟩, trivial, by decide⟩
  · exact ⟨⟨⟨rfl, rfl, rfl, rfl, rfl⟩, rfl⟩, rfl⟩

/-- **Equal precedence.** `3-2-1` is 0 in C, and 2 for the preprocessors. -/
theorem chain_differs : ∃ e : CExpr, e.Fits cGrammar ∧ Defined e ∧ Constants e ∧
    Lexes ['3', '-', '2', '-', '1'] (e.tokens cGrammar) ∧ ¬FindsValue [] ['3', '-', '2', '-', '1'] e := by
  refine ⟨.bin .minus (.bin .minus (number 3) (number 2)) (number 1), ?_, ?_, ⟨⟨rfl, rfl⟩, rfl⟩, ?_, ?_⟩
  · refine ⟨⟨trivial, trivial, ?_, ?_⟩, trivial, ?_, ?_⟩ <;> decide
  · exact ⟨⟨rfl, rfl, rfl⟩, rfl, rfl⟩
  · repeat (first | exact .nil rfl | refine .cons rfl rfl ?_)
  · rintro ⟨v, k, hv, hall⟩
    obtain rfl : 0 = v := Option.some.inj hv
    obtain ⟨p, hp, hpv⟩ := hall (k + 3) ⟨.error, [], true, []⟩ (Nat.le_add_right k 3)
    have hrun : evaluate .preProcess [] (k + 3) (some ['3', '-', '2', '-', '1']) ⟨.error, [], true, []⟩ =
        .done ⟨2, true, none, ⟨.exprEnd, ['1'], true, []⟩⟩ := rfl
    cases hp.symm.trans hrun
    cases hpv

end OpenHT.Htl.IfArith
