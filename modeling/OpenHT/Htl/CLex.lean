import OpenHT.Htl.ParseExpr
import OpenHT.Lib.OpPrec

/-!
# The tokens of C

What C reads in a text, to be compared with `GetNextToken`: the longest token each time, and integer
constants with their octal and hexadecimal forms and their suffixes.

* `cToken`, `Lexes`: the tokens of a text.
* `Shows`: the lexer has read a token.
* `getNextToken_lexes`: on plain tokens `GetNextToken` reads what C reads.
-/

namespace OpenHT.Htl

open OpPrec

/-- How an integer constant is written. -/
inductive Spelling
  /-- Decimal, or hexadecimal after `0x`, without a suffix. -/
  | plain
  /-- Hexadecimal after `0X`. -/
  | upperHex
  | octal
  | suffixed
deriving DecidableEq, Repr

inductive Atom
  | num (n : ℕ) (spelling : Spelling)
  | ident (name : Text)
deriving DecidableEq, Repr

/-- The tokens of C expressions; the operators are those of the lexer. -/
abbrev CTok := Tok Atom EToken

/-! ## Integer constants -/

def digitValue (c : Char) : ℕ := c.toNat - '0'.toNat

def xDigitValue (c : Char) : ℕ := (hexDigit c).getD 0

/-- The number that digits stand for. -/
def radixValue (radix : ℕ) (val : Char → ℕ) (ds : Text) (v : ℕ) : ℕ := ds.foldl (fun v c => v * radix + val c) v

def isOctDigit (c : Char) : Bool := '0' ≤ c && c ≤ '7'

/-- A character of a suffix. -/
def isSuffix (c : Char) : Bool := c = 'u' || c = 'U' || c = 'l' || c = 'L'

def suffixes : List Text :=
  [['u'], ['U'], ['l'], ['L'], ['l', 'l'], ['L', 'L'], ['u', 'l'], ['u', 'L'], ['U', 'l'], ['U', 'L'],
    ['l', 'u'], ['l', 'U'], ['L', 'u'], ['L', 'U'], ['u', 'l', 'l'], ['u', 'L', 'L'], ['U', 'l', 'l'],
    ['U', 'L', 'L'], ['l', 'l', 'u'], ['l', 'l', 'U'], ['L', 'L', 'u'], ['L', 'L', 'U']]

/-- The digits of a constant. -/
def cDigits : Text → Option (ℕ × Spelling)
  | ['0'] => some (0, .plain)
  | '0' :: 'x' :: ds =>
    if ds ≠ [] ∧ ds.all isXDigit then some (radixValue 16 xDigitValue ds 0, .plain) else none
  | '0' :: 'X' :: ds =>
    if ds ≠ [] ∧ ds.all isXDigit then some (radixValue 16 xDigitValue ds 0, .upperHex) else none
  | '0' :: ds => if ds.all isOctDigit then some (radixValue 8 digitValue ds 0, .octal) else none
  | ds => if ds.all Char.isDigit then some (radixValue 10 digitValue ds 0, .plain) else none

/-- The constant that a word is. -/
def cConstant (word : Text) : Option Atom :=
  if word.any isSuffix then
    if suffixes.contains (word.dropWhile (!isSuffix ·)) then
      (cDigits (word.takeWhile (!isSuffix ·))).map fun d => .num d.1 .suffixed
    else none
  else (cDigits word).map fun d => .num d.1 d.2

/-! ## Tokens -/

/-- The longest operator: one of `alts` if its character is next, else `t`. `none` are the operators of C
that are not part of constant expressions. -/
def longer (cs : Text) : List (Char × Option CTok) → CTok → Option (CTok × Text)
  | [], t => some (t, cs)
  | (c, t') :: alts, t => if cs.head? = some c then t'.map fun t' => (t', cs.tail) else longer cs alts t

def cPunct (c : Char) (cs : Text) : Option (CTok × Text) :=
  match c with
  | '!' => longer cs [('=', some (.sym (.bin .bangEqual)))] (.sym .bang)
  | '|' => longer cs [('|', some (.sym (.bin .vbarVbar))), ('=', none)] (.sym (.bin .vbar))
  | '&' => longer cs [('&', some (.sym (.bin .ampersandAmpersand))), ('=', none)] (.sym (.bin .ampersand))
  | '(' => some (.lParen, cs)
  | ')' => some (.rParen, cs)
  | '+' => longer cs [('+', none), ('=', none)] (.sym (.bin .plus))
  | '-' => longer cs [('-', none), ('=', none), ('>', none)] (.sym (.bin .minus))
  | '/' => longer cs [('=', none), ('/', none), ('*', none)] (.sym (.bin .slash))
  | '*' => longer cs [('=', none)] (.sym (.bin .asterisk))
  | '%' => longer cs [('=', none), ('>', none), (':', none)] (.sym (.bin .percent))
  | '^' => longer cs [('=', none)] (.sym (.bin .carot))
  | '~' => some (.sym .tilda, cs)
  | '=' => if cs.head? = some '=' then some (.sym (.bin .equalEqual), cs.tail) else none
  | '<' =>
    if ['<', '='].isPrefixOf cs then none
    else longer cs [('<', some (.sym (.bin .lessLess))), ('=', some (.sym (.bin .lessEqual))), (':', none),
      ('%', none)] (.sym (.bin .less))
  | '>' =>
    if ['>', '='].isPrefixOf cs then none
    else longer cs [('>', some (.sym (.bin .greaterGreater))), ('=', some (.sym (.bin .greaterEqual)))]
      (.sym (.bin .greater))
  | '?' => some (.question, cs)
  | ':' => longer cs [('>', none)] .colon
  | _ => none

/-- The token that starts with `c`, and what follows it. -/
def cToken (c : Char) (cs : Text) : Option (CTok × Text) :=
  if c.isDigit then
    (cConstant ((c :: cs).takeWhile isIdent)).map fun a => (.atom a, (c :: cs).dropWhile isIdent)
  else if c.isAlpha || c = '_' then
    some (.atom (.ident ((c :: cs).takeWhile isIdent)), (c :: cs).dropWhile isIdent)
  else cPunct c cs

/-- The text has these tokens. -/
inductive Lexes : Text → List CTok → Prop
  | nil {cs : Text} (h : cs.dropWhile isBlank = []) : Lexes cs []
  | cons {cs rest cs' : Text} {c : Char} {t : CTok} {ts : List CTok}
    (h : cs.dropWhile isBlank = c :: cs') (ht : cToken c cs' = some (t, rest)) (hs : Lexes rest ts) :
    Lexes cs (t :: ts)

theorem Lexes.unique {cs : Text} {ts ts' : List CTok} (h : Lexes cs ts) (h' : Lexes cs ts') : ts = ts' := by
  induction h generalizing ts' with
  | nil h =>
    cases h' with
    | nil _ => rfl
    | cons h₁ _ _ =>
      rw [h] at h₁
      cases h₁
  | cons h ht _ ih =>
    cases h' with
    | nil h₁ =>
      rw [h] at h₁
      cases h₁
    | cons h₁ ht₁ hs₁ =>
      rw [h] at h₁
      cases h₁
      rw [ht] at ht₁
      cases ht₁
      rw [ih hs₁]

/-- The token as the lexer stores it. -/
def CTok.kind : CTok → EToken
  | .atom (.num _ _) => .numInt
  | .atom (.ident _) => .ident
  | .sym s => s
  | .lParen => .lParen
  | .rParen => .rParen
  | .question => .question
  | .colon => .colon

/-- A constant is plain. -/
def PlainTok : CTok → Prop
  | .atom (.num _ spelling) => spelling = .plain
  | _ => True

instance : DecidablePred PlainTok
  | .atom (.num _ spelling) => inferInstanceAs (Decidable (spelling = .plain))
  | .atom (.ident _) | .sym _ | .lParen | .rParen | .question | .colon => isTrue trivial

/-- The tokens `GetNextToken` knows. -/
def Dialect.Knows (d : Dialect) (t : CTok) : Prop := d = .defineTable ∨ t ≠ .question ∧ t ≠ .colon

/-- A token that is not a word. -/
def isOperator : CTok → Bool
  | .atom _ => false
  | .sym (.bin _) | .sym .tilda | .sym .bang => true
  | .sym _ => false
  | _ => true

/-- The lexer has read the token. -/
def Shows (lx : Lexer) : CTok → Prop
  | .atom (.num n _) => (lx.tk = .numInt ∨ lx.tk = .numHex) ∧ (n < 0x80000000 → (getTokenValue lx).1 = n)
  | .atom (.ident name) => lx.tk = .ident ∧ lx.tkString = name
  | t => lx.tk = t.kind ∧ isOperator t

/-! ## Operators -/

/-- The alternatives `GetNextToken` knows. -/
def known (alts : List (Char × Option CTok)) : List (Char × EToken) :=
  alts.filterMap fun a => a.2.map fun t => (a.1, t.kind)

theorem longer_follow {cs rest : Text} {alts : List (Char × Option CTok)} {t t' : CTok}
    (h : longer cs alts t = some (t', rest)) : follow cs (known alts) t.kind = (t'.kind, some rest) := by
  induction alts with
  | nil =>
    cases h
    rfl
  | cons a alts ih =>
    obtain ⟨c, o⟩ := a
    rw [longer] at h
    cases o with
    | none =>
      split at h
      · cases h
      · exact ih h
    | some t₁ =>
      change follow cs ((c, t₁.kind) :: known alts) t.kind = _
      rw [follow]
      split
      · rename_i hc
        rw [if_pos hc] at h
        cases h
        rfl
      · rename_i hc
        rw [if_neg hc] at h
        exact ih h

/-- **The switch of `GetNextToken` finds the operators of C.** -/
theorem punctuator_cPunct {d : Dialect} {c : Char} {cs rest : Text} {t : CTok}
    (h : cPunct c cs = some (t, rest)) (hd : d.Knows t) : punctuator d c cs = some (t.kind, some rest) := by
  have hdef : t = .question ∨ t = .colon → d = .defineTable := by
    intro ht
    rcases hd with hd | hd
    · exact hd
    · exact (ht.elim hd.1 hd.2).elim
  unfold cPunct at h
  split at h
  case h_4 | h_5 | h_12 => cases h; rfl
  case h_16 =>
    cases h
    rw [hdef (Or.inl rfl)]
    rfl
  case h_17 =>
    have ht : t = .colon := by
      rw [longer] at h
      split at h
      · cases h
      · cases h
        rfl
    rw [hdef (Or.inr ht)]
    exact congrArg some (longer_follow h)
  case h_13 =>
    -- `=` is the only character the tokenizer passes without looking
    cases cs with
    | nil => cases h
    | cons c cs =>
      split at h
      · rename_i heq
        cases h
        obtain rfl : c = '=' := Option.some.inj heq
        rfl
      · cases h
  case h_14 | h_15 =>
    split at h
    · cases h
    · exact congrArg some (longer_follow h)
  case h_18 => cases h
  all_goals exact congrArg some (longer_follow h)

/-! ## Words -/

/-- A longer run of characters that are all in a class is the run of that class. -/
theorem span_eq_of_all {p q : Char → Bool} (hqp : ∀ c, q c = true → p c = true) {l : Text}
    (h : (l.takeWhile p).all q = true) : l.takeWhile q = l.takeWhile p ∧ l.dropWhile q = l.dropWhile p := by
  induction l with
  | nil => exact ⟨rfl, rfl⟩
  | cons c l ih =>
    by_cases hp : p c = true
    · rw [List.takeWhile_cons_of_pos hp, List.all_cons, Bool.and_eq_true] at h
      obtain ⟨h₁, h₂⟩ := ih h.2
      rw [List.takeWhile_cons_of_pos hp, List.takeWhile_cons_of_pos h.1, List.dropWhile_cons_of_pos hp,
        List.dropWhile_cons_of_pos h.1, h₁, h₂]
      exact ⟨rfl, rfl⟩
    · have hq : ¬q c = true := fun hq => hp (hqp c hq)
      rw [List.takeWhile_cons_of_neg hp, List.takeWhile_cons_of_neg hq, List.dropWhile_cons_of_neg hp,
        List.dropWhile_cons_of_neg hq]
      exact ⟨rfl, rfl⟩

theorem isIdent_of_isDigit (c : Char) (h : c.isDigit = true) : isIdent c = true := by
  unfold isIdent Char.isAlphanum
  rw [h, Bool.or_true]
  rfl

theorem isAlpha_eq (c : Char) : c.isAlpha = (c.isUpper || c.isLower) := rfl

theorem isUpper_eq (c : Char) : c.isUpper = decide (c.val ≥ 'A'.val ∧ c.val ≤ 'Z'.val) := rfl

theorem isLower_eq (c : Char) : c.isLower = (decide (c.val ≥ 'a'.val) && decide (c.val ≤ 'z'.val)) := rfl

theorem isIdent_of_isXDigit (c : Char) (h : isXDigit c = true) : isIdent c = true := by
  have ha : 'a'.val.toNat = 97 ∧ 'f'.val.toNat = 102 ∧ 'z'.val.toNat = 122 := ⟨rfl, rfl, rfl⟩
  have hA : 'A'.val.toNat = 65 ∧ 'F'.val.toNat = 70 ∧ 'Z'.val.toNat = 90 := ⟨rfl, rfl, rfl⟩
  simp only [isXDigit, isIdent, Char.isAlphanum, isAlpha_eq, isLower_eq, isUpper_eq, Bool.or_eq_true,
    Bool.and_eq_true, decide_eq_true_eq, Char.le_def, UInt32.le_iff_toNat_le, ge_iff_le] at h ⊢
  rcases h with (h | h) | h
  · exact Or.inl (Or.inr h)
  · exact Or.inl (Or.inl (Or.inr (by omega)))
  · exact Or.inl (Or.inl (Or.inl (by omega)))

/-- No suffix follows a word. -/
theorem skipTypeSuffix_dropWhile (l : Text) (s : Bool) :
    skipTypeSuffix (l.dropWhile isIdent) s = (l.dropWhile isIdent, s) := by
  have hhead := List.head?_dropWhile_not isIdent l
  cases hl : l.dropWhile isIdent with
  | nil => rfl
  | cons c rest =>
    rw [hl] at hhead
    have hc : isIdent c = false := by simpa using hhead
    unfold skipTypeSuffix
    split
    case h_5 => rfl
    all_goals
      rename_i heq
      cases heq
      exact absurd hc (by decide)

theorem le_radixValue {radix : ℕ} (hr : 1 ≤ radix) (val : Char → ℕ) (ds : Text) (v : ℕ) :
    v ≤ radixValue radix val ds v := by
  induction ds generalizing v with
  | nil => exact Nat.le_refl v
  | cons c ds ih =>
    have hmul : v * 1 ≤ v * radix := Nat.mul_le_mul_left v hr
    have hle := ih (v * radix + val c)
    change v ≤ radixValue radix val ds (v * radix + val c)
    omega

/-- **`GetTokenValue` finds the values of `int`.** -/
theorem numberValue_eq {radix : ℕ} (hr : radix = 10 ∨ radix = 16) {digit : Char → Option ℕ} {val : Char → ℕ}
    {ds : Text} (hds : ∀ c ∈ ds, digit c = some (val c)) (v : ℕ)
    (h : radixValue radix val ds v < 0x80000000) :
    numberValue radix digit ds v = some (radixValue radix val ds v) := by
  have hr1 : 1 ≤ radix := by omega
  induction ds generalizing v with
  | nil => rfl
  | cons c ds ih =>
    have hle : v * radix + val c ≤ radixValue radix val ds (v * radix + val c) := le_radixValue hr1 ..
    have hlt : v * radix < 0x80000000 := by
      change radixValue radix val ds (v * radix + val c) < 0x80000000 at h
      omega
    have hsmall : ¬0xffffffff / radix ≤ v := by
      rcases hr with rfl | rfl <;> omega
    rw [numberValue, if_neg hsmall, hds c List.mem_cons_self]
    exact ih (fun c hc => hds c (List.mem_cons_of_mem _ hc)) _ h

/-! ## `GetNextToken` -/

theorem longer_isOperator {cs rest : Text} {alts : List (Char × Option CTok)} {t t' : CTok}
    (h : longer cs alts t = some (t', rest)) (halts : alts.all (fun a => a.2.all isOperator) = true)
    (ht : isOperator t = true) : isOperator t' = true := by
  induction alts with
  | nil =>
    cases h
    exact ht
  | cons a alts ih =>
    obtain ⟨c, o⟩ := a
    rw [List.all_cons, Bool.and_eq_true] at halts
    rw [longer] at h
    split at h
    · cases o with
      | none => cases h
      | some t₁ =>
        cases h
        exact halts.1
    · exact ih h halts.2

theorem cPunct_isOperator {c : Char} {cs rest : Text} {t : CTok} (h : cPunct c cs = some (t, rest)) :
    isOperator t = true := by
  unfold cPunct at h
  split at h
  case h_4 | h_5 | h_12 | h_16 => cases h; rfl
  case h_13 =>
    split at h
    · cases h
      rfl
    · cases h
  case h_14 | h_15 =>
    split at h
    · cases h
    · exact longer_isOperator h (by decide) (by decide)
  case h_18 => cases h
  all_goals exact longer_isOperator h (by decide) (by decide)

theorem Shows.of_isOperator {lx : Lexer} {t : CTok} (ht : isOperator t = true) (h : lx.tk = t.kind) :
    Shows lx t := by
  cases t with
  | atom a => cases ht
  | _ => exact ⟨h, ht⟩

theorem punctuator_word {d : Dialect} {c : Char} (hc : isIdent c = true) (cs : Text) :
    punctuator d c cs = none := by
  unfold punctuator
  split
  case h_20 => rfl
  all_goals exact absurd hc (by decide)

/-- What is left after a word has no suffix to skip. -/
theorem numberToken_word {d : Dialect} (tk : EToken) (text l : Text) (s : Bool) (lx : Lexer) :
    ∃ lx' : Lexer, numberToken d tk text (l.dropWhile isIdent) s lx = (lx'.tk, some (l.dropWhile isIdent), lx') ∧
      lx'.tk = tk ∧ lx'.tkString = text := by
  cases d with
  | defineTable =>
    unfold numberToken
    rw [skipTypeSuffix_dropWhile]
    exact ⟨{ lx with tk := tk, tkString := text, isSigned := s }, rfl, rfl, rfl⟩
  | preProcess => exact ⟨{ lx with tk := tk, tkString := text }, rfl, rfl, rfl⟩

theorem getTokenValue_dec {lx : Lexer} (htk : lx.tk = .numInt)
    (hlt : radixValue 10 digitValue lx.tkString 0 < 0x80000000) :
    (getTokenValue lx).1 = radixValue 10 digitValue lx.tkString 0 := by
  have hv : numberValue 10 (fun c => some (c.toNat - '0'.toNat)) lx.tkString 0 = _ :=
    numberValue_eq (Or.inl rfl) (fun c _ => rfl) 0 hlt
  unfold getTokenValue
  rw [if_pos htk, hv]
  exact if_pos hlt

theorem hexDigit_of_isXDigit {c : Char} (h : isXDigit c = true) : ∃ v, hexDigit c = some v := by
  unfold isXDigit at h
  unfold hexDigit
  by_cases hd : '0' ≤ c ∧ c ≤ '9'
  · exact ⟨_, if_pos hd⟩
  · by_cases hA : 'A' ≤ c ∧ c ≤ 'F'
    · exact ⟨_, by rw [if_neg hd, if_pos hA]⟩
    · have hdf : c.isDigit = false := by
        rw [Bool.eq_false_iff]
        intro hdig
        simp only [Char.isDigit, Bool.and_eq_true, decide_eq_true_eq] at hdig
        exact hd hdig
      rw [hdf, Bool.false_or, Bool.or_eq_true, Bool.and_eq_true, Bool.and_eq_true] at h
      simp only [decide_eq_true_eq] at h
      exact ⟨_, by rw [if_neg hd, if_neg hA, if_pos (h.resolve_right hA)]⟩

theorem getTokenValue_hex {lx : Lexer} {ds : Text} (htk : lx.tk = .numHex)
    (hs : lx.tkString = '0' :: 'x' :: ds) (hds : ds.all isXDigit = true)
    (hlt : radixValue 16 xDigitValue ds 0 < 0x80000000) :
    (getTokenValue lx).1 = radixValue 16 xDigitValue ds 0 := by
  have hdigit : ∀ c ∈ ds, hexDigit c = some (xDigitValue c) := by
    intro c hc
    obtain ⟨v, hv⟩ := hexDigit_of_isXDigit (List.all_eq_true.1 hds c hc)
    unfold xDigitValue
    rw [hv]
    rfl
  have hv := numberValue_eq (Or.inr rfl) hdigit 0 hlt
  have hskip : numberValue 16 hexDigit ('0' :: 'x' :: ds) 0 = numberValue 16 hexDigit ds 0 := rfl
  unfold getTokenValue
  rw [if_neg (by rw [htk]; exact fun h => EToken.noConfusion h), hs, hskip, hv]
  exact if_pos hlt

theorem not_alpha_of_isDigit {c : Char} (h : c.isDigit = true) : ¬(c.isAlpha || decide (c = '_')) = true := by
  intro hid
  have h0 : '0'.val.toNat = 48 ∧ '9'.val.toNat = 57 := ⟨rfl, rfl⟩
  have ha : 'a'.val.toNat = 97 ∧ 'A'.val.toNat = 65 := ⟨rfl, rfl⟩
  simp only [Char.isDigit, isAlpha_eq, isLower_eq, isUpper_eq, Bool.or_eq_true, Bool.and_eq_true,
    decide_eq_true_eq, UInt32.le_iff_toNat_le, ge_iff_le] at h hid
  rcases hid with (hid | hid) | rfl
  · omega
  · omega
  · exact absurd h (by decide)

section

variable {d : Dialect} {c : Char} {cs : Text} {n : ℕ}

theorem wordToken_dec (hc : c.isDigit = true) (hall : ((c :: cs).takeWhile isIdent).all Char.isDigit = true)
    (lx : Lexer) :
    ∃ lx' : Lexer, wordToken d c cs lx = (lx'.tk, some ((c :: cs).dropWhile isIdent), lx') ∧
      Shows lx' (.atom (.num (radixValue 10 digitValue ((c :: cs).takeWhile isIdent) 0) .plain)) := by
  have hnox : ¬(decide (c = '0') && decide (cs.head? = some 'x')) = true := by
    intro hx
    simp only [Bool.and_eq_true, decide_eq_true_eq] at hx
    obtain ⟨rfl, hx⟩ := hx
    cases cs with
    | nil => cases hx
    | cons c₂ cs =>
      obtain rfl : c₂ = 'x' := Option.some.inj hx
      rw [List.takeWhile_cons_of_pos (by decide), List.takeWhile_cons_of_pos (by decide)] at hall
      exact absurd hall (by rw [List.all_cons, List.all_cons]; exact Bool.false_ne_true)
  obtain ⟨htake, hdrop⟩ := span_eq_of_all isIdent_of_isDigit hall
  obtain ⟨lx', hnum, htk, hs⟩ := numberToken_word (d := d) .numInt ((c :: cs).takeWhile isIdent) (c :: cs) true lx
  refine ⟨lx', ?_, Or.inl htk, ?_⟩
  · rw [wordToken, if_neg (not_alpha_of_isDigit hc), if_pos hc, if_neg hnox, htake, hdrop, hnum]
  · rw [← hs]
    exact getTokenValue_dec htk

theorem wordToken_hex {ds : Text} (hw : (c :: cs).takeWhile isIdent = '0' :: 'x' :: ds)
    (hall : ds.all isXDigit = true) (lx : Lexer) :
    ∃ lx' : Lexer, wordToken d c cs lx = (lx'.tk, some ((c :: cs).dropWhile isIdent), lx') ∧
      Shows lx' (.atom (.num (radixValue 16 xDigitValue ds 0) .plain)) := by
  obtain ⟨cs, rfl, rfl, hds⟩ : ∃ cs₂, c = '0' ∧ cs = 'x' :: cs₂ ∧ cs₂.takeWhile isIdent = ds := by
    rw [List.takeWhile_cons] at hw
    split at hw
    · cases cs with
      | nil => cases hw
      | cons c₂ cs =>
        rw [List.takeWhile_cons] at hw
        split at hw
        · cases hw
          exact ⟨cs, rfl, rfl, rfl⟩
        · cases hw
    · cases hw
  rw [← hds] at hall
  obtain ⟨htake, hdrop⟩ := span_eq_of_all isIdent_of_isXDigit hall
  obtain ⟨lx', hnum, htk, hs⟩ := numberToken_word (d := d) .numHex ('0' :: 'x' :: ds) cs false lx
  refine ⟨lx', ?_, Or.inr htk, ?_⟩
  · rw [wordToken, if_neg (by decide), if_pos (by decide), if_pos (by rfl), List.tail_cons, htake, hdrop, hds, hnum]
    rfl
  · exact getTokenValue_hex htk hs (hds ▸ hall)

/-- A plain constant as the tokenizer reads it. -/
theorem wordToken_number (hc : c.isDigit = true)
    (h : cConstant ((c :: cs).takeWhile isIdent) = some (.num n .plain)) (lx : Lexer) :
    ∃ lx' : Lexer, wordToken d c cs lx = (lx'.tk, some ((c :: cs).dropWhile isIdent), lx') ∧
      Shows lx' (.atom (.num n .plain)) := by
  have hdigits : cDigits ((c :: cs).takeWhile isIdent) = some (n, .plain) := by
    unfold cConstant at h
    split at h
    · split at h
      · rw [Option.map_eq_some_iff] at h
        obtain ⟨_, _, heq⟩ := h
        cases heq
      · cases h
    · rw [Option.map_eq_some_iff] at h
      obtain ⟨⟨_, _⟩, hd, heq⟩ := h
      cases heq
      exact hd
  unfold cDigits at hdigits
  split at hdigits
  · rename_i hw
    cases hdigits
    have hdec := wordToken_dec (d := d) hc (by rw [hw]; rfl) lx
    rw [hw] at hdec
    exact hdec
  · rename_i ds hw
    split at hdigits
    · rename_i hall
      cases hdigits
      exact wordToken_hex hw hall.2 lx
    · cases hdigits
  · split at hdigits <;> cases hdigits
  · split at hdigits <;> cases hdigits
  · split at hdigits
    · rename_i hall
      cases hdigits
      exact wordToken_dec hc hall lx
    · cases hdigits

end

/-- **`GetNextToken` reads a plain token of C.** -/
theorem getNextToken_cToken {d : Dialect} {cs cs' rest : Text} {c : Char} {t : CTok}
    (h : cs.dropWhile isBlank = c :: cs') (ht : cToken c cs' = some (t, rest)) (hp : PlainTok t)
    (hd : d.Knows t) (lx : Lexer) :
    ∃ lx' : Lexer, getNextToken d (some cs) lx = .done (lx'.tk, some rest, lx') ∧ Shows lx' t := by
  unfold getNextToken skipSpace
  rw [Run.done_bind, h]
  dsimp only
  unfold cToken at ht
  by_cases hdig : c.isDigit = true
  · rw [if_pos hdig, Option.map_eq_some_iff] at ht
    obtain ⟨a, ha, heq⟩ := ht
    cases heq
    rw [punctuator_word (isIdent_of_isDigit c hdig)]
    cases a with
    | ident name =>
      unfold cConstant at ha
      split at ha
      · split at ha
        · rw [Option.map_eq_some_iff] at ha
          obtain ⟨_, _, heq⟩ := ha
          cases heq
        · cases ha
      · rw [Option.map_eq_some_iff] at ha
        obtain ⟨_, _, heq⟩ := ha
        cases heq
    | num n spelling =>
      obtain rfl : spelling = .plain := hp
      obtain ⟨lx', hword, hshows⟩ := wordToken_number (d := d) hdig ha lx
      exact ⟨lx', by rw [hword]; rfl, hshows⟩
  · rw [if_neg hdig] at ht
    by_cases hid : (c.isAlpha || decide (c = '_')) = true
    · rw [if_pos hid] at ht
      cases ht
      have hident : isIdent c = true := by
        unfold isIdent Char.isAlphanum
        rw [Bool.or_eq_true] at hid ⊢
        exact hid.imp_left fun h => by rw [h]; rfl
      rw [punctuator_word hident, wordToken, if_pos hid]
      exact ⟨{ lx with tk := .ident, tkString := (c :: cs').takeWhile isIdent }, rfl, rfl, rfl⟩
    · rw [if_neg hid] at ht
      have hop := cPunct_isOperator ht
      rw [punctuator_cPunct ht hd]
      refine ⟨lx.setTk t.kind, ?_, .of_isOperator hop rfl⟩
      cases t with
      | atom a => cases hop
      | sym s =>
        cases s with
        | error => cases hop
        | _ => rfl
      | _ => rfl

/-- What is left to read: the token last read and those after it. -/
def At (pos : Pos) (lx : Lexer) : List CTok → Prop
  | [] => lx.tk = .exprEnd ∧ pos = none
  | t :: ts => Shows lx t ∧ ∃ cs, pos = some cs ∧ Lexes cs ts

/-- **`GetNextToken` goes on to the next token of C**, and past the end after the last one. -/
theorem getNextToken_lexes {d : Dialect} {cs : Text} {ts : List CTok} (h : Lexes cs ts)
    (hp : ∀ t ∈ ts, PlainTok t) (hd : ∀ t ∈ ts, d.Knows t) (lx : Lexer) :
    ∃ pos lx', getNextToken d (some cs) lx = .done (lx'.tk, pos, lx') ∧ At pos lx' ts := by
  cases h with
  | nil h =>
    refine ⟨none, lx.setTk .exprEnd, ?_, rfl, rfl⟩
    unfold getNextToken skipSpace
    rw [Run.done_bind, h]
    rfl
  | cons h ht hs =>
    obtain ⟨lx', hnext, hshows⟩ :=
      getNextToken_cToken h ht (hp _ List.mem_cons_self) (hd _ List.mem_cons_self) lx
    exact ⟨_, lx', hnext, hshows, _, rfl, hs⟩

end OpenHT.Htl
