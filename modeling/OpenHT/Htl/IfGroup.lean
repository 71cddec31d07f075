import OpenHT.Htl.Sound

/-!
# Chains of operators in `#if`

`EvaluateExpression` of both preprocessors leaves an operator on its stack when one of equal precedence follows, so it
groups such a chain from the right. Where the operators are the same and associative, the value is that of C.

* `Plain`: the operators `ParseExpression` of the preprocessors knows.
* `Grouped`: operators of equal precedence follow each other only where they are the same and associative.
* `regroup`: the tree the preprocessors make, with the tokens of the first one.
* `regroup_fits`, `regroup_value`: it is of their grammar, and has the value of C.
-/

namespace OpenHT.Htl.IfArith

open OpPrec

/-- The expression has no operator besides those `ParseExpression` of the preprocessors knows: no prefix operator but a
`!` right before a constant or a parenthesis. -/
def Plain : CExpr → Prop
  | .atom (.num _ sp) => sp = .plain
  | .atom (.ident _) => False
  | .paren e => Plain e
  | .pre u e => u = .bang ∧ e.level cGrammar = 0 ∧ Plain e
  | .bin _ a b => Plain a ∧ Plain b
  | .cond _ _ _ => False

/-- Operators of equal precedence follow each other only where they are the same and associative. -/
def Grouped : CExpr → Prop
  | .atom _ => True
  | .paren e => Grouped e
  | .pre _ e => Grouped e
  | .bin o a b => Grouped a ∧ Grouped b ∧ (a.level cGrammar = o.prec → 9 ≤ o.prec)
  | .cond _ _ _ => False

/-- The operator takes its left operand from the end of a chain. -/
def graft (o : BinOp) : CExpr → CExpr → CExpr
  | .bin o' x y, b => if o' = o then .bin o x (graft o y b) else .bin o (.bin o' x y) b
  | a, b => .bin o a b

/-- The tree with chains grouped from the right. -/
def regroup : CExpr → CExpr
  | .atom a => .atom a
  | .paren e => .paren (regroup e)
  | .pre u e => .pre u (regroup e)
  | .bin o a b => graft o (regroup a) (regroup b)
  | .cond c a b => .cond c a b

/-- The grammar of the preprocessors, whose operators group from the right. -/
abbrev ifGrammar : Grammar UnOp BinOp EToken := Dialect.preProcess.grammar

variable {o : BinOp} {a b e : CExpr} {v : Int}

theorem eq_of_prec {o o' : BinOp} (h : o.prec = o'.prec) (h9 : 9 ≤ o.prec) : o = o' := by
  cases o <;> cases o' <;> simp_all [BinOp.prec]

theorem level_eq (e : CExpr) : e.level ifGrammar = e.level cGrammar := by cases e <;> rfl

theorem tokens_eq (e : CExpr) : e.tokens ifGrammar = e.tokens cGrammar := by
  induction e with
  | atom a => rfl
  | paren e ih => rw [Expr.tokens, Expr.tokens, ih]
  | pre u e ih => rw [Expr.tokens, Expr.tokens, ih]; rfl
  | bin o a b iha ihb => rw [Expr.tokens, Expr.tokens, iha, ihb]; rfl
  | cond c a b ihc iha ihb => rw [Expr.tokens, Expr.tokens, ihc, iha, ihb]

theorem graft_tokens (o : BinOp) (a b : CExpr) :
    (graft o a b).tokens cGrammar = a.tokens cGrammar ++ .sym (.bin o) :: b.tokens cGrammar := by
  induction a with
  | bin o' x y _ ih =>
    unfold graft
    split
    · rename_i h
      subst h
      rw [Expr.tokens, ih, Expr.tokens, List.append_assoc]
      rfl
    · rfl
  | _ => rfl

theorem graft_level (o : BinOp) (a b : CExpr) : (graft o a b).level cGrammar = o.prec := by
  cases a with
  | bin o' x y => unfold graft; split <;> rfl
  | _ => rfl

theorem left_iff {p n : ℕ} : ifGrammar.left p n ↔ n < p := by
  change n < p ∨ n = p ∧ decide (Dialect.preProcess = .defineTable) = true ↔ _
  simp

theorem right_iff {p n : ℕ} : ifGrammar.right p n ↔ n ≤ p := by
  change n < p ∨ n = p ∧ ¬decide (Dialect.preProcess = .defineTable) = true ↔ _
  simp
  omega

/-- Operands that bind more tightly. -/
theorem fits_bin (ha : a.Fits ifGrammar) (hb : b.Fits ifGrammar) (hla : a.level cGrammar < o.prec)
    (hlb : b.level cGrammar < o.prec) : (.bin o a b : CExpr).Fits ifGrammar := by
  refine ⟨ha, hb, left_iff.2 ?_, right_iff.2 ?_⟩
  · rw [level_eq]
    exact hla
  · rw [level_eq]
    exact Nat.le_of_lt hlb

/-- A chain that is grouped from the right is a tree of the preprocessors' grammar. -/
theorem graft_fits (ha : a.Fits ifGrammar) (hla : a.level cGrammar ≤ o.prec)
    (h9 : a.level cGrammar = o.prec → 9 ≤ o.prec) (hb : b.Fits ifGrammar) (hlb : b.level cGrammar < o.prec) :
    (graft o a b).Fits ifGrammar := by
  induction a with
  | bin o' x y _ ih =>
    obtain ⟨hx, hy, hlx, hly⟩ := ha
    unfold graft
    split
    · rename_i h
      subst h
      have hy' : y.level cGrammar ≤ o'.prec := by rw [← level_eq]; exact right_iff.1 hly
      refine ⟨hx, ih hy hy' (fun _ => h9 rfl), hlx, right_iff.2 ?_⟩
      rw [level_eq, graft_level]
      exact Nat.le_refl _
    · -- another operator of this precedence would not be associative
      rename_i hne
      have hlt : o'.prec < o.prec := by
        refine Nat.lt_of_le_of_ne hla fun heq => hne ?_
        exact eq_of_prec heq (by have := h9 heq; omega)
      exact fits_bin ⟨hx, hy, hlx, hly⟩ hb hlt hlb
  | atom _ => exact fits_bin ha hb (Nat.lt_of_lt_of_le (by decide : 0 < 4) o.prec_bounds.1) hlb
  | paren _ _ => exact fits_bin ha hb (Nat.lt_of_lt_of_le (by decide : 0 < 4) o.prec_bounds.1) hlb
  | pre _ _ _ => exact fits_bin ha hb o.prec_bounds.1 hlb
  | cond _ _ _ _ _ _ =>
    have hb' := o.prec_bounds
    change 14 ≤ o.prec at hla
    omega

theorem regroup_level (e : CExpr) : (regroup e).level cGrammar = e.level cGrammar := by
  cases e with
  | bin o a b => exact graft_level o _ _
  | _ => rfl

theorem regroup_tokens (e : CExpr) : (regroup e).tokens cGrammar = e.tokens cGrammar := by
  induction e with
  | atom a => rfl
  | paren e ih => rw [regroup, Expr.tokens, Expr.tokens, ih]
  | pre u e ih => rw [regroup, Expr.tokens, Expr.tokens, ih]
  | bin o a b iha ihb => rw [regroup, graft_tokens, iha, ihb]; rfl
  | cond c a b => rfl

theorem regroup_fits (e : CExpr) (h : e.Fits cGrammar) (hg : Grouped e) : (regroup e).Fits ifGrammar := by
  induction e with
  | atom a => trivial
  | paren e ih => exact ih h hg
  | pre u e ih =>
    refine ⟨ih h.1 hg, ?_⟩
    rw [level_eq, regroup_level]
    exact h.2
  | bin o a b iha ihb =>
    obtain ⟨ha, hb, hla, hlb⟩ := h
    have hlb' : b.level cGrammar < o.prec := hlb.elim id fun h => absurd rfl h.2
    refine graft_fits (iha ha hg.1) ?_ ?_ (ihb hb hg.2.1) ?_
    · rw [regroup_level]
      exact hla.le
    · rw [regroup_level]
      exact hg.2.2
    · rw [regroup_level]
      exact hlb'
  | cond c a b _ _ _ => exact hg.elim

theorem graft_plain (ha : Plain a) (hb : Plain b) : Plain (graft o a b) := by
  induction a with
  | bin o' x y _ ih =>
    unfold graft
    split
    · exact ⟨ha.1, ih ha.2⟩
    · exact ⟨ha, hb⟩
  | _ => exact ⟨ha, hb⟩

theorem regroup_plain (e : CExpr) (h : Plain e) : Plain (regroup e) := by
  induction e with
  | atom a => exact h
  | paren e ih => exact ih h
  | pre u e ih => exact ⟨h.1, by rw [regroup_level]; exact h.2.1, ih h.2.2⟩
  | bin o a b iha ihb => exact graft_plain (iha h.1) (ihb h.2)
  | cond c a b _ _ _ => exact h.elim

/-! ## Values -/

theorem bits_toInt (x : BitVec 32) : bits x.toInt = x := BitVec.ofInt_toInt

/-- The operators that share their precedence with no other are associative. -/
theorem apply_assoc (h9 : 9 ≤ o.prec) {x y z u : Int} (h1 : o.apply x y = some u) (h2 : o.apply u z = some v) :
    ∃ w, o.apply y z = some w ∧ o.apply x w = some v := by
  cases o with
  | ampersand =>
    cases h1
    cases h2
    exact ⟨_, rfl, by simp only [BinOp.apply, bits_toInt, BitVec.and_assoc]⟩
  | carot =>
    cases h1
    cases h2
    exact ⟨_, rfl, by simp only [BinOp.apply, bits_toInt, BitVec.xor_assoc]⟩
  | vbar =>
    cases h1
    cases h2
    exact ⟨_, rfl, by simp only [BinOp.apply, bits_toInt, BitVec.or_assoc]⟩
  | ampersandAmpersand =>
    cases h1
    cases h2
    refine ⟨_, rfl, ?_⟩
    by_cases hx : x = 0 <;> by_cases hy : y = 0 <;> by_cases hz : z = 0 <;> simp [BinOp.apply, ofBool, hx, hy, hz]
  | vbarVbar =>
    cases h1
    cases h2
    refine ⟨_, rfl, ?_⟩
    by_cases hx : x = 0 <;> by_cases hy : y = 0 <;> by_cases hz : z = 0 <;> simp [BinOp.apply, ofBool, hx, hy, hz]
  | _ => exact absurd h9 (by decide)

theorem strictValue_bin_of {x y : Int} (ha : strictValue a = some x) (hb : strictValue b = some y) :
    strictValue (.bin o a b) = o.apply x y := by
  rw [strictValue, ha, hb]
  rfl

theorem graft_value (h9 : a.level cGrammar = o.prec → 9 ≤ o.prec) (h : strictValue (.bin o a b) = some v) :
    strictValue (graft o a b) = some v := by
  induction a generalizing v with
  | bin o' x y _ ih =>
    unfold graft
    split
    · -- the chain `p o q o z` changes from `(p o q) o z` to `p o (q o z)`
      rename_i heq
      subst heq
      obtain ⟨u, z, hxy, hz, hv⟩ := strictValue_bin h
      obtain ⟨p, q, hp, hq, hu⟩ := strictValue_bin hxy
      obtain ⟨w, hw, hv'⟩ := apply_assoc (h9 rfl) hu hv
      have hyb : strictValue (.bin o' y b) = some w := by rw [strictValue_bin_of hq hz, hw]
      rw [strictValue_bin_of hp (ih (fun _ => h9 rfl) hyb), hv']
    · exact h
  | _ => exact h

theorem regroup_value (e : CExpr) (hg : Grouped e) (h : strictValue e = some v) : strictValue (regroup e) = some v := by
  induction e generalizing v with
  | atom a => exact h
  | paren e ih => exact ih hg h
  | pre u e ih =>
    obtain ⟨x, hx, hv⟩ := Option.bind_eq_some_iff.1 h
    rw [regroup, strictValue, ih hg hx]
    exact hv
  | bin o a b iha ihb =>
    obtain ⟨x, y, hx, hy, hv⟩ := strictValue_bin h
    refine graft_value (fun hl => hg.2.2 (by rw [← regroup_level]; exact hl)) ?_
    rw [strictValue_bin_of (iha hg.1 hx) (ihb hg.2.1 hy), hv]
  | cond c a b _ _ _ => exact hg.elim

end OpenHT.Htl.IfArith
