import OpenHT.Htl.Sound
import OpenHT.Htl.TokenValue

/-!
# Simple conditions

The conditions of `#if` and `#elif` that are one integer literal or a test with `defined`.

* `CondForm`, `Cond`: a text that C reads as such a condition, and what it asks.
* `Cond.Supported`: the literals and tests that `ParseExpression` reads.
* `evaluate_supported`: on these `ParseExpression` finds C's value and reports nothing.
* `preProcessIfdef`, `preProcessIfndef`: the tests for one name, `ifName_reads` what they find.
-/

namespace OpenHT.Htl

open OpPrec

/-- What a simple condition asks. -/
inductive CondForm
  | literal (n : ℕ) (spelling : Spelling)
  /-- `defined(name)` or `defined name`, with `!` before it if `neg` is set. -/
  | isDefined (neg paren : Bool) (name : Text)

namespace CondForm

def toks : CondForm → List CTok
  | literal n spelling => [.atom (.num n spelling)]
  | isDefined false true name => [.atom (.ident definedName), .lParen, .atom (.ident name), .rParen]
  | isDefined true true name => [.sym .bang, .atom (.ident definedName), .lParen, .atom (.ident name), .rParen]
  | isDefined false false name => [.atom (.ident definedName), .atom (.ident name)]
  | isDefined true false name => [.sym .bang, .atom (.ident definedName), .atom (.ident name)]

/-- The condition in C. -/
def holds (macros : Table) : CondForm → Bool
  | literal n _ => n ≠ 0
  | isDefined neg _ name => (macros.find name).isSome ^^ neg

end CondForm

/-- The text after `#if`, as C reads it. -/
structure Cond where
  text : Text
  form : CondForm
  lexes : Lexes text form.toks

/-- The first word of a text. -/
def firstWord (cs : Text) : Text := (cs.dropWhile isBlank).takeWhile isIdent

/-- A literal is decimal, octal or hexadecimal after `0x`, without a suffix, and the number that its digits make
is below the ceiling; a test has parentheses. -/
def Cond.Supported (c : Cond) : Prop :=
  (∃ n sp, c.form = .literal n sp ∧ ∃ t : NumToken, firstWord c.text = t.radix.text t.digits ∧
    t.number < t.radix.ceiling) ∨
  ∃ neg name, c.form = .isDefined neg true name

/-! ## Tokens -/

section Tokens

variable {d : Dialect} {pos pos' : Pos} {lx lx' : Lexer} {tk : EToken} {cs : Text}

/-- A token that carries no text leaves the text of the last one, and only an error is reported. -/
theorem getNextToken_frame (h : getNextToken d pos lx = .done (tk, pos', lx')) (htk : tk ≠ .error) :
    lx'.msgs = lx.msgs ∧ (tk ≠ .ident → tk ≠ .numInt → tk ≠ .numHex → lx'.tkString = lx.tkString) := by
  unfold getNextToken at h
  obtain ⟨cs, -, h⟩ := Run.bind_done h
  cases cs with
  | nil =>
    cases h
    exact ⟨rfl, fun _ _ _ => rfl⟩
  | cons c cs =>
    dsimp only at h
    split at h
    · cases h
      exact absurd rfl htk
    · cases h
      exact ⟨rfl, fun _ _ _ => rfl⟩
    · unfold wordToken at h
      split at h
      · cases h
        exact ⟨rfl, fun hid => absurd rfl hid⟩
      · split at h
        · -- a number
          have hnumber : ∀ (k : EToken) (text cs : Text) (s : Bool),
              (numberToken d k text cs s lx).1 = k ∧ (numberToken d k text cs s lx).2.2.msgs = lx.msgs := by
            intro k text cs s
            cases d <;> exact ⟨rfl, rfl⟩
          split at h
          · have hn := hnumber .numHex ('0' :: 'x' :: cs.tail.takeWhile isXDigit) (cs.tail.dropWhile isXDigit) false
            rw [Run.done.inj h] at hn
            exact ⟨hn.2, fun _ _ hhex => absurd hn.1 hhex⟩
          · have hn := hnumber .numInt ((c :: cs).takeWhile Char.isDigit) ((c :: cs).dropWhile Char.isDigit) true
            rw [Run.done.inj h] at hn
            exact ⟨hn.2, fun _ hint => absurd hn.1 hint⟩
        · cases h
          exact absurd rfl htk

/-- Whether a number is 0 can be read off its digits. -/
theorem radixValue_eq_zero {radix : ℕ} (hr : 1 ≤ radix) (val : Char → ℕ) (ds : Text) (v : ℕ) :
    radixValue radix val ds v = 0 ↔ v = 0 ∧ ∀ c ∈ ds, val c = 0 := by
  induction ds generalizing v with
  | nil => simp [radixValue]
  | cons c ds ih =>
    have hstep : radixValue radix val (c :: ds) v = radixValue radix val ds (v * radix + val c) := rfl
    rw [hstep, ih, Nat.add_eq_zero_iff, Nat.mul_eq_zero, List.forall_mem_cons]
    constructor
    · rintro ⟨⟨hv | hr0, hc⟩, hds⟩
      · exact ⟨hv, hc, hds⟩
      · omega
    · rintro ⟨hv, hc, hds⟩
      exact ⟨⟨Or.inl hv, hc⟩, hds⟩

theorem not_suffix_of_isXDigit (c : Char) (h : isXDigit c = true) : isSuffix c = false := by
  rw [Bool.eq_false_iff]
  intro hs
  simp only [isSuffix, Bool.or_eq_true, decide_eq_true_eq] at hs
  rcases hs with ((rfl | rfl) | rfl) | rfl <;> exact absurd h (by decide)

/-- The constant that a number token is in C is 0 just if the token's number is. -/
theorem cConstant_eq_zero {t : NumToken} {n : ℕ} {sp : Spelling}
    (h : cConstant (t.radix.text t.digits) = some (.num n sp)) : n = 0 ↔ t.number = 0 := by
  obtain ⟨r, ds, hds⟩ := t
  have hnosuffix : (r.text ds).any isSuffix = false := by
    rw [List.any_eq_false]
    intro c hc
    cases r with
    | decimal =>
      have hdig := List.all_eq_true.1 hds c hc
      have hx : isXDigit c = true := by
        unfold isXDigit
        rw [show c.isDigit = true from hdig, Bool.true_or, Bool.true_or]
      rw [not_suffix_of_isXDigit c hx]
      exact Bool.false_ne_true
    | hexadecimal =>
      rcases List.mem_cons.1 hc with rfl | hc
      · decide
      · rcases List.mem_cons.1 hc with rfl | hc
        · decide
        · rw [not_suffix_of_isXDigit c (List.all_eq_true.1 hds c hc)]
          exact Bool.false_ne_true
  unfold cConstant at h
  rw [hnosuffix, if_neg Bool.false_ne_true, Option.map_eq_some_iff] at h
  obtain ⟨⟨m, sp'⟩, hd, heq⟩ := h
  obtain ⟨rfl, rfl⟩ : m = n ∧ sp' = sp := by
    have := Atom.num.inj heq
    exact this
  change m = 0 ↔ radixValue r.base r.value ds 0 = 0
  cases r with
  | hexadecimal =>
    change cDigits ('0' :: 'x' :: ds) = some (m, sp') at hd
    unfold cDigits at hd
    simp only at hd
    split at hd
    · cases hd
      exact Iff.rfl
    · cases hd
  | decimal =>
    change cDigits ds = some (m, sp') at hd
    have hall : ds.all Char.isDigit = true := hds
    unfold cDigits at hd
    split at hd
    · cases hd
      decide
    · exact absurd hall (by simp)
    · exact absurd hall (by simp)
    · split at hd
      · -- octal: only the digits matter
        cases hd
        change radixValue 8 digitValue _ 0 = 0 ↔ radixValue 10 digitValue _ 0 = 0
        rw [radixValue_eq_zero (by omega), radixValue_eq_zero (by omega), List.forall_mem_cons]
        have hzero : digitValue '0' = 0 := rfl
        simp [hzero]
      · cases hd
    · rw [if_pos hall] at hd
      cases hd
      exact Iff.rfl

/-- The word of a number token, and nothing after it. -/
theorem wordToken_word {c : Char} (hc : c.isDigit = true) {t : NumToken}
    (hword : (c :: cs).takeWhile isIdent = t.radix.text t.digits) (lx : Lexer) :
    wordToken .preProcess c cs lx = (t.radix.kind, some ((c :: cs).dropWhile isIdent), t.lexer lx) := by
  obtain ⟨r, ds, hds⟩ := t
  unfold wordToken
  rw [if_neg (not_alpha_of_isDigit hc), if_pos hc]
  cases r with
  | decimal =>
    change (c :: cs).takeWhile isIdent = ds at hword
    have hall : ((c :: cs).takeWhile isIdent).all Char.isDigit = true := by
      rw [hword]
      exact hds
    have hnox : ¬(decide (c = '0') && decide (cs.head? = some 'x')) = true := by
      intro hx
      simp only [Bool.and_eq_true, decide_eq_true_eq] at hx
      obtain ⟨rfl, hx⟩ := hx
      cases cs with
      | nil => cases hx
      | cons c₂ cs =>
        obtain rfl : c₂ = 'x' := Option.some.inj hx
        rw [List.takeWhile_cons_of_pos (by decide), List.takeWhile_cons_of_pos (by decide)] at hall
        exact absurd hall (by rw [List.all_cons, List.all_cons]; exact Bool.false_ne_true)
    obtain ⟨htake, hdrop⟩ := span_eq_of_all isIdent_of_isDigit hall
    rw [if_neg hnox, htake, hdrop, hword]
    rfl
  | hexadecimal =>
    change (c :: cs).takeWhile isIdent = '0' :: 'x' :: ds at hword
    obtain ⟨cs₂, rfl, rfl, htail⟩ : ∃ cs₂, c = '0' ∧ cs = 'x' :: cs₂ ∧ cs₂.takeWhile isIdent = ds := by
      rw [List.takeWhile_cons] at hword
      split at hword
      · cases cs with
        | nil => cases hword
        | cons c₂ cs =>
          rw [List.takeWhile_cons] at hword
          split at hword
          · cases hword
            exact ⟨cs, rfl, rfl, rfl⟩
          · cases hword
      · cases hword
    have hall : (cs₂.takeWhile isIdent).all isXDigit = true := by
      rw [htail]
      exact hds
    obtain ⟨htake, hdrop⟩ := span_eq_of_all isIdent_of_isXDigit hall
    rw [if_pos (by rfl), List.tail_cons, htake, hdrop, htail]
    rfl

/-- **A literal** becomes the number token of its word. -/
theorem getNextToken_literal {n : ℕ} {sp : Spelling} (h : Lexes cs [.atom (.num n sp)]) {t : NumToken}
    (hword : firstWord cs = t.radix.text t.digits) (lx : Lexer) :
    ∃ rest, getNextToken .preProcess (some cs) lx = .done (t.radix.kind, some rest, t.lexer lx) ∧
      rest.dropWhile isBlank = [] ∧ (n = 0 ↔ t.number = 0) := by
  cases h with
  | cons h ht hs =>
    rename_i rest cs' c
    cases hs with
    | nil hrest =>
      unfold firstWord at hword
      rw [h] at hword
      unfold cToken at ht
      by_cases hdig : c.isDigit = true
      · rw [if_pos hdig, hword, Option.map_eq_some_iff] at ht
        obtain ⟨a, ha, heq⟩ := ht
        obtain ⟨rfl, rfl⟩ : a = .num n sp ∧ (c :: cs').dropWhile isIdent = rest := by
          cases heq
          exact ⟨rfl, rfl⟩
        refine ⟨_, ?_, hrest, cConstant_eq_zero ha⟩
        unfold getNextToken skipSpace
        rw [Run.done_bind, h]
        dsimp only
        rw [punctuator_word (isIdent_of_isDigit c hdig)]
        dsimp only
        rw [wordToken_word hdig hword]
        rfl
      · -- only digits start a number
        rw [if_neg hdig] at ht
        split at ht
        · cases ht
        · have hop := cPunct_isOperator ht
          cases hop

end Tokens

/-! ## `ParseExpression` -/

section Evaluate

variable {macros : Table} {k : ℕ} {calls : Calls} {cs : Text} {lx : Lexer} {c : Cond}

/-- Nothing follows the operand. -/
theorem getNextToken_end {rest : Text} (h : rest.dropWhile isBlank = []) (lx : Lexer) :
    getNextToken .preProcess (some rest) lx = .done (.exprEnd, none, lx.setTk .exprEnd) := by
  unfold getNextToken skipSpace
  dsimp only
  rw [h]
  rfl

/-- An expression of one operand ends. -/
theorem operator_end {rest : Text} (h : rest.dropWhile isBlank = []) (v : Int) (s : Bool) (lx : Lexer) :
    operator .preProcess calls [v] [.exprBegin] s (some rest) lx = .done ⟨v, s, none, lx.setTk .exprEnd⟩ := by
  unfold operator
  rw [getNextToken_end h]
  rfl

/-- An expression of `!` and one operand ends. -/
theorem operator_end_bang {rest : Text} (h : rest.dropWhile isBlank = []) (v : Int) (s : Bool) (lx : Lexer) :
    operator .preProcess calls [v] [.bang, .exprBegin] s (some rest) lx =
      .done ⟨ofBool (v = 0), s, none, lx.setTk .exprEnd⟩ := by
  unfold operator
  rw [getNextToken_end h]
  rfl

theorem toInt_eq_zero {v : ℕ} (h : v < 4294967296) : toInt v = 0 ↔ v = 0 := by
  unfold toInt
  split <;> omega

/-- **A literal below the ceiling** is 0 for `ParseExpression` just if it is in C. -/
theorem evaluate_literal {n : ℕ} {sp : Spelling} (h : Lexes cs [.atom (.num n sp)]) {t : NumToken}
    (hword : firstWord cs = t.radix.text t.digits) (hlt : t.number < t.radix.ceiling) (lx : Lexer) :
    ∃ p, evaluate .preProcess macros (k + 1) (some cs) lx = .done p ∧ p.lx.msgs = lx.msgs ∧
      (p.value = 0 ↔ n = 0) := by
  obtain ⟨rest, hnext, hrest, hzero⟩ := getNextToken_literal h hword lx
  have hvalue : getTokenValue (t.lexer lx) = (toInt t.number, t.lexer lx) := by
    rw [t.getTokenValue_eq, if_pos hlt]
  have hoperand : operand .preProcess macros (.ofLoop (parseLoop .preProcess macros k)) (some []) (t.lexer lx) =
      .done ⟨toInt t.number, (t.lexer lx).isSigned, some [], t.lexer lx⟩ := by
    unfold operand
    rw [hvalue]
    obtain ⟨r, ds, hds⟩ := t
    cases r <;> rfl
  have hne : ¬(t.lexer lx).tk = .error ∧ ¬(t.lexer lx).tk = .bang := by
    obtain ⟨r, ds, hds⟩ := t
    cases r <;> exact ⟨EToken.noConfusion, EToken.noConfusion⟩
  refine ⟨⟨toInt t.number, true && (t.lexer lx).isSigned, none, (t.lexer lx).setTk .exprEnd⟩, ?_, rfl, ?_⟩
  · unfold evaluate
    rw [hnext]
    simp only [Run.done_bind]
    unfold parseExpression startExpr skipSpace
    dsimp only
    rw [hrest, Run.done_bind, parseLoop, loopBody, if_neg hne.1, prefixBang, if_neg hne.2]
    simp only [Run.done_bind]
    rw [hoperand]
    exact @operator_end (.ofLoop (parseLoop .preProcess macros k)) [] List.dropWhile_nil _ _ _
  · have hceil := t.radix.ceiling_lt
    rw [hzero]
    exact toInt_eq_zero (by omega)

/-- A token of C that is next, with what the lexer keeps. -/
theorem getNextToken_next {t : CTok} {ts : List CTok} (h : Lexes cs (t :: ts)) (hp : PlainTok t)
    (hk : t ≠ .question ∧ t ≠ .colon) (lx : Lexer) :
    ∃ rest lx', getNextToken .preProcess (some cs) lx = .done (lx'.tk, some rest, lx') ∧ Shows lx' t ∧
      Lexes rest ts := by
  cases h with
  | cons h ht hs =>
    obtain ⟨lx', hnext, hshows⟩ := getNextToken_cToken h ht hp (Or.inr hk) lx
    exact ⟨_, lx', hnext, hshows, hs⟩

/-- **A test with parentheses** after its first word. -/
theorem definedOperand_reads {name : Text} (h : Lexes cs [.lParen, .atom (.ident name), .rParen]) (lx : Lexer) :
    ∃ rest lx', definedOperand macros (some cs) lx = .done ⟨ofBool (macros.find name).isSome, true, some rest, lx'⟩ ∧
      rest.dropWhile isBlank = [] ∧ lx'.msgs = lx.msgs := by
  obtain ⟨rest₁, lx₁, h₁, ⟨hs₁, -⟩, hl₁⟩ := getNextToken_next h trivial (by decide) lx
  obtain ⟨rest₂, lx₂, h₂, ⟨hs₂, hname⟩, hl₂⟩ := getNextToken_next hl₁ trivial (by simp) lx₁
  obtain ⟨rest₃, lx₃, h₃, ⟨hs₃, -⟩, hl₃⟩ := getNextToken_next hl₂ trivial (by decide) lx₂
  change lx₁.tk = .lParen at hs₁
  change lx₃.tk = .rParen at hs₃
  have hf₁ := getNextToken_frame h₁ (by rw [hs₁]; decide)
  have hf₂ := getNextToken_frame h₂ (by rw [hs₂]; decide)
  have hf₃ := getNextToken_frame h₃ (by rw [hs₃]; decide)
  -- the name is still there after the parenthesis
  have hkept : lx₃.tkString = name := by
    rw [hs₃] at hf₃
    exact (hf₃.2 (by decide) (by decide) (by decide)).trans hname
  have hrest : rest₃.dropWhile isBlank = [] := by
    cases hl₃ with
    | nil h => exact h
  refine ⟨rest₃, lx₃, ?_, hrest, hf₃.1.trans (hf₂.1.trans hf₁.1)⟩
  unfold definedOperand expect
  rw [h₁, hs₁]
  simp only [Run.done_bind, if_true, Run.pure_eq]
  rw [h₂, hs₂]
  simp only [Run.done_bind, if_true]
  rw [h₃, hs₃]
  simp only [Run.done_bind, if_true, hkept]

/-- **A test with parentheses** is 1 or 0, as in C. -/
theorem evaluate_defined {neg : Bool} {name : Text} (h : Lexes cs (CondForm.isDefined neg true name).toks) (lx : Lexer) :
    ∃ p, evaluate .preProcess macros (k + 1) (some cs) lx = .done p ∧ p.lx.msgs = lx.msgs ∧
      (p.value = 0 ↔ (CondForm.isDefined neg true name).holds macros = false) := by
  have hident {rest : Text} {lx₁ : Lexer} (hs : Shows lx₁ (.atom (.ident definedName)))
      (hl : Lexes rest [.lParen, .atom (.ident name), .rParen]) : ∃ rest' lx', operand .preProcess macros
        (.ofLoop (parseLoop .preProcess macros k)) (some rest) lx₁ =
          .done ⟨ofBool (macros.find name).isSome, true, some rest', lx'⟩ ∧
        rest'.dropWhile isBlank = [] ∧ lx'.msgs = lx₁.msgs := by
    obtain ⟨rest', lx', hd, hrest, hmsgs⟩ := @definedOperand_reads macros _ _ hl lx₁
    refine ⟨rest', lx', ?_, hrest, hmsgs⟩
    unfold operand
    rw [hs.1]
    dsimp only
    unfold identOperand
    rw [if_pos ⟨rfl, hs.2⟩]
    exact hd
  cases neg with
  | false =>
    obtain ⟨rest₁, lx₁, h₁, hs₁, hl₁⟩ := getNextToken_next h trivial (by simp) lx
    have hf₁ := getNextToken_frame h₁ (by rw [hs₁.1]; decide)
    obtain ⟨rest', lx', hop, hrest, hmsgs⟩ := hident hs₁ hl₁.skip
    refine ⟨⟨ofBool (macros.find name).isSome, true && true, none, lx'.setTk .exprEnd⟩, ?_, hmsgs.trans hf₁.1, ?_⟩
    · unfold evaluate
      rw [h₁]
      simp only [Run.done_bind]
      unfold parseExpression startExpr skipSpace
      dsimp only
      rw [Run.done_bind, parseLoop, loopBody, if_neg (by rw [hs₁.1]; decide), prefixBang,
        if_neg (by rw [hs₁.1]; decide)]
      simp only [Run.done_bind]
      rw [hop]
      exact operator_end hrest _ _ _
    · change ofBool (macros.find name).isSome = 0 ↔ ((macros.find name).isSome ^^ false) = false
      cases (macros.find name).isSome <;> decide
  | true =>
    obtain ⟨rest₁, lx₁, h₁, hs₁, hl₁⟩ := getNextToken_next h trivial (by decide) lx
    change lx₁.tk = .bang ∧ _ at hs₁
    have hf₁ := getNextToken_frame h₁ (by rw [hs₁.1]; decide)
    obtain ⟨rest₂, lx₂, h₂, hs₂, hl₂⟩ := getNextToken_next hl₁.skip trivial (by simp) lx₁
    have hf₂ := getNextToken_frame h₂ (by rw [hs₂.1]; decide)
    obtain ⟨rest', lx', hop, hrest, hmsgs⟩ := hident hs₂ hl₂
    refine ⟨⟨ofBool (ofBool (macros.find name).isSome = 0), true && true, none, lx'.setTk .exprEnd⟩, ?_,
      hmsgs.trans (hf₂.1.trans hf₁.1), ?_⟩
    · unfold evaluate
      rw [h₁]
      simp only [Run.done_bind]
      unfold parseExpression startExpr skipSpace
      dsimp only
      -- the operator waits on its stack for the operand
      have hpush : evaluateExpression .preProcess .bang [] [.exprBegin] = some ([], [.bang, .exprBegin]) := rfl
      rw [Run.done_bind, parseLoop, loopBody, if_neg (by rw [hs₁.1]; decide), prefixBang, if_pos hs₁.1, hpush,
        Run.ofOption_some]
      simp only [Run.done_bind]
      rw [h₂]
      simp only [Run.done_bind]
      rw [if_neg (by rw [hs₂.1]; decide)]
      simp only [Run.pure_eq, Run.done_bind]
      rw [hop]
      exact operator_end_bang hrest _ _ _
    · change ofBool (ofBool (macros.find name).isSome = 0) = 0 ↔ ((macros.find name).isSome ^^ true) = false
      cases (macros.find name).isSome <;> decide

/-- **The supported conditions** have C's value, and nothing is reported. -/
theorem evaluate_supported (h : c.Supported) (macros : Table) (k : ℕ) (lx : Lexer) :
    ∃ p, evaluate .preProcess macros (k + 1) (some c.text) lx = .done p ∧ p.lx.msgs = lx.msgs ∧
      (p.value = 0 ↔ c.form.holds macros = false) := by
  have hlex := c.lexes
  rcases h with ⟨n, sp, hform, t, hword, hlt⟩ | ⟨neg, name, hform⟩
  · rw [hform] at hlex ⊢
    obtain ⟨p, hp, hmsgs, hzero⟩ := @evaluate_literal macros k _ _ _ hlex _ hword hlt lx
    refine ⟨p, hp, hmsgs, hzero.trans ?_⟩
    unfold CondForm.holds
    simp
  · rw [hform] at hlex ⊢
    exact evaluate_defined hlex lx

end Evaluate

/-! ## `#ifdef` and `#ifndef` -/

/-- `ParseIdentifier`: the identifier, empty if there is none, and what follows it. -/
def parseIdentifier : Text → Text × Text
  | [] => ([], [])
  | c :: cs =>
    if c = '_' || c.isAlpha then ((c :: cs).takeWhile isIdent, (c :: cs).dropWhile isIdent) else ([], c :: cs)

/-- A directive that tests one name, `isDef` for `#ifdef`: whether the lines after it are skipped. -/
def ifName (isDef : Bool) (msg : String) (macros : Table) (cs : Text) (lx : Lexer) : Bool × Lexer :=
  let (identifier, rest) := parseIdentifier (cs.dropWhile isBlank)
  if identifier = [] ∨ rest.dropWhile isBlank ≠ [] then (false, lx.parseMsg msg)
  else ((macros.find identifier).isSome != isDef, lx)

def preProcessIfdef : Table → Text → Lexer → Bool × Lexer := ifName true "Unknown #ifdef directive format"

def preProcessIfndef : Table → Text → Lexer → Bool × Lexer := ifName false "Unknown #ifmdef directive format"

/-- The text after `#ifdef` or `#ifndef`: one identifier of C. -/
structure IfName where
  text : Text
  name : Text
  lexes : Lexes text [.atom (.ident name)]

/-- **A test for one name** reads it as C does. -/
theorem ifName_reads (i : IfName) (isDef : Bool) (msg : String) (macros : Table) (lx : Lexer) :
    ifName isDef msg macros i.text lx = ((macros.find i.name).isSome != isDef, lx) := by
  obtain ⟨text, name, hl⟩ := i
  cases hl with
  | cons h ht hs =>
    rename_i rest cs' c
    cases hs with
    | nil hrest =>
      unfold cToken at ht
      by_cases hdig : c.isDigit = true
      · -- a number is no identifier
        rw [if_pos hdig, Option.map_eq_some_iff] at ht
        obtain ⟨a, ha, heq⟩ := ht
        cases heq
        unfold cConstant at ha
        split at ha
        · split at ha
          · rw [Option.map_eq_some_iff] at ha
            obtain ⟨_, _, heq⟩ := ha
            cases heq
          · cases ha
        · rw [Option.map_eq_some_iff] at ha
          obtain ⟨_, _, heq⟩ := ha
          cases heq
      · rw [if_neg hdig] at ht
        split at ht
        · rename_i hid
          obtain ⟨rfl, rfl⟩ : (c :: cs').takeWhile isIdent = name ∧ (c :: cs').dropWhile isIdent = rest := by
            cases ht
            exact ⟨rfl, rfl⟩
          have hident : isIdent c = true := by
            unfold isIdent Char.isAlphanum
            rw [Bool.or_eq_true] at hid ⊢
            exact hid.imp_left fun h => by rw [h, Bool.true_or]
          unfold ifName
          rw [h]
          have hparse : parseIdentifier (c :: cs') =
              ((c :: cs').takeWhile isIdent, (c :: cs').dropWhile isIdent) := if_pos (by rw [Bool.or_comm]; exact hid)
          rw [hparse]
          have hne : ¬((c :: cs').takeWhile isIdent = [] ∨
              ((c :: cs').dropWhile isIdent).dropWhile isBlank ≠ []) := by
            rw [hrest, List.takeWhile_cons_of_pos hident]
            simp
          exact if_neg hne
        · have hop := cPunct_isOperator ht
          cases hop

end OpenHT.Htl
