import OpenHT.Htfe.ConstValue
import OpenHT.Htl.CLex

/-!
# Integer and character literals

The scanner finds the end of a literal and stores its text, for a character literal the number in hexadecimal.
`GetConstValue` reads that text again.

* `getNumber`, `getChar`, `getLiteral`: the part of `GetNextToken2` for literals.
* `getConstValue`: the value of the text, in the container that the suffix selects.
* `Literal`: the literals of C, with their texts and values.
* `digitLoop_eq`, `suffixEnd_text`: the loop over the digits, and the end of the suffix.
* `literal_kept_iff`: the literals that keep their value.
-/

namespace OpenHT.Htfe.Literals

open CInt CInt.IntType Htl

inductive Token
  | numInt
  | numHex
  | numFloat
  | numString
deriving DecidableEq, Repr

inductive Msg
  /-- "octal digit too large" -/
  | octalTooLarge
  /-- "illegal hex digit" -/
  | illegalHex
  /-- "illegal escape sequence" -/
  | illegalEscape
  /-- "illegal character constant" -/
  | illegalChar
  /-- "integer too large (%s)" -/
  | integerTooLarge (text : Text)
deriving DecidableEq, Repr

/-- `m_token`, `m_stringBuf` and `m_pPos` after a token, with its messages. -/
structure Scan where
  token : Token
  stringBuf : Text
  pos : Text
  msgs : List Msg
deriving DecidableEq, Repr

/-! ## The scanner -/

/-- `if (tolower(*m_pPos) == c) m_pPos += 1;` -/
def eat (c : Char) : Text → Text
  | a :: s => if a.toLower = c then s else a :: s
  | [] => []

def suffixEnd (s : Text) : Text := eat 'l' (eat 'l' (eat 'u' s))

/-- `m_stringBuf.assign(pInitPos, m_pPos-pInitPos)` -/
def upTo (init pos : Text) : Text := init.take (init.length - pos.length)

/-- The fraction of a number, after its period. -/
def floatEnd (s : Text) : Text :=
  let q := s.dropWhile Char.isDigit
  if q.take 3 = ['i', '6', '4'] ∨ q.take 3 = ['I', '6', '4'] then q.drop 3 else q

/-- A token that starts with a digit. -/
def getNumber (s : Text) : Scan :=
  if s.take 2 = ['0', 'x'] then
    let pos := suffixEnd ((s.drop 2).dropWhile isXDigit)
    ⟨.numHex, upTo s pos, pos, []⟩
  else
    let p := s.dropWhile Char.isDigit
    if p.head? = some '.' then ⟨.numFloat, upTo s (floatEnd p.tail), floatEnd p.tail, []⟩
    else ⟨.numInt, upTo s (suffixEnd p), suffixEnd p, []⟩

/-- `(char)v` -/
def charOf (v : Int) : Int := (v + 128) % 256 - 128

def simpleEscape : Char → Option Int
  | 'n' => some 10
  | 'r' => some 13
  | '\\' => some 92
  | 't' => some 9
  | 'v' => some 11
  | 'b' => some 8
  | 'f' => some 12
  | 'a' => some 7
  | '?' => some 63
  | '\'' => some 39
  | '"' => some 34
  | _ => none

/-- The loop over the digits of an octal escape. -/
def octLoop : ℕ → ℕ → Text → ℕ × Text
  | n + 1, v, c :: s => if isOctDigit c then octLoop n (v * 8 + digitValue c) s else (v, c :: s)
  | _, v, s => (v, s)

/-- What `strtol` reads of two characters in base 16. -/
def strtolEnd (buf : Text) : ℕ :=
  let s := buf.dropWhile fun c => c.toNat = 32 || 9 ≤ c.toNat && c.toNat ≤ 13
  let s := if s.head? = some '+' ∨ s.head? = some '-' then s.tail else s
  if (s.head?.map isXDigit).getD false then buf.length - (s.dropWhile isXDigit).length else 0

/-- An escape sequence after its backslash: `ch`, the position, and the messages. `ch` is not set for a hexadecimal
one, whose two digits are never above 255. `none`: the position is past the end of the line. -/
def getEscape : Text → Option (Int × Text × List Msg)
  | [] => none
  | c :: s =>
    match simpleEscape c with
    | some ch => some (ch, s, [])
    | none =>
      if isOctDigit c then
        let (v, pos) := octLoop 3 0 (c :: s)
        some (charOf v, pos, if v > 255 then [.octalTooLarge] else [])
      else if c = 'x' then
        if s = [] then none
        else some (0, s.drop (strtolEnd (s.take 2)), if strtolEnd (s.take 2) = 0 then [.illegalHex] else [])
      else some (0, s, [.illegalEscape])

/-- `sprintf(str, "0x%02x", ch)`: a negative `ch` has eight digits, which `str` has no place for. -/
def printChar (ch : Int) : Option Text :=
  if 0 ≤ ch then some ['0', 'x', Nat.digitChar (ch.toNat / 16), Nat.digitChar (ch.toNat % 16)] else none

/-- `ch`, the position after it, and the messages. -/
def getCh : Text → Option (Int × Text × List Msg)
  | [] => none
  | '\\' :: s => getEscape s
  | c :: s => some (charOf c.toNat, s, [])

/-- A token that starts with an apostrophe, after it. `none`: outside of the line, or of `str`. -/
def getChar (s : Text) : Option Scan := do
  let (ch, pos, msgs) ← getCh s
  match pos with
  | [] => none
  | q :: pos =>
    let str ← printChar ch
    return ⟨.numHex, str, pos, msgs ++ if q ≠ '\'' then [.illegalChar] else []⟩

/-- The part of `GetNextToken2` for literals. -/
def getLiteral : Text → Option Scan
  | '\'' :: s => getChar s
  | c :: s => if c.isDigit then some (getNumber (c :: s)) else none
  | [] => none

/-! ## `GetConstValue` -/

/-- The loops over the digits: a step has the value and whether it is too large. -/
def digitLoop (isDigit : Char → Bool) (step : ℕ → Char → ℕ × Bool) : Text → ℕ → Bool → ℕ × Bool × Text
  | c :: s, value, big =>
    if isDigit c then digitLoop isDigit step s (step value c).1 (big || (step value c).2) else (value, big, c :: s)
  | [], value, big => (value, big, [])

/-- `lastValue` is the value before the step. -/
def decStep (lastValue : ℕ) (c : Char) : ℕ × Bool :=
  let value := (lastValue * 10 + digitValue c) % 18446744073709551616
  (value, value / 10 != lastValue)

def hexStep (value : ℕ) (c : Char) : ℕ × Bool :=
  ((value * 16 + xDigitValue c) % 18446744073709551616, decide (value > 18446744073709551615 / 16))

/-- `u` or `U` at the position, after which the container is unsigned. -/
def takeU (s : Text) (bIsSigned : Bool) : Text × Bool :=
  match s with
  | 'u' :: s | 'U' :: s => (s, false)
  | s => (s, bIsSigned)

/-- `bIsLongLong` -/
def takeL (s : Text) : Text × Bool :=
  match s with
  | 'l' :: 'l' :: s | 'L' :: 'L' :: s => (s, true)
  | 'l' :: s | 'L' :: s => (s, true)
  | s => (s, false)

/-- The first value that the test of a container reports; there is no test for the largest one. -/
def limit (bIsSigned bIsLongLong : Bool) : ℕ :=
  match bIsSigned, bIsLongLong with
  | true, true => 9223372036854775808
  | true, false => 2147483648
  | false, true => 18446744073709551616
  | false, false => 4294967296

def containerOf (bIsSigned bIsLongLong : Bool) : IntType :=
  match bIsSigned, bIsLongLong with
  | true, true => int64
  | true, false => int32
  | false, true => uint64
  | false, false => uint32

/-- The end of `GetConstValue`, from the suffix on. -/
def fillConst (text s : Text) (value : ℕ) (bIsSigned bNeg big : Bool) : CConstValue × List Msg :=
  let (s, bIsSigned) := takeU s bIsSigned
  let (s, bIsLongLong) := takeL s
  let (_, bIsSigned) := takeU s bIsSigned
  let tooLarge := big || decide (limit bIsSigned bIsLongLong ≤ value)
  let value := if bNeg then (18446744073709551616 - value) % 18446744073709551616 else value
  (.of (containerOf bIsSigned bIsLongLong) value, if tooLarge then [.integerTooLarge text] else [])

/-- `GetConstValue`: `none` is a failed assertion. -/
def getConstValue (token : Token) (text : Text) : Option (CConstValue × List Msg) :=
  match token with
  | .numInt =>
    let bNeg := text.head? = some '-'
    let (value, big, s) := digitLoop Char.isDigit decStep (if bNeg then text.tail else text) 0 false
    some (fillConst text s value true bNeg big)
  | .numHex =>
    if text.take 2 = ['0', 'x'] ∨ text.take 2 = ['0', 'X'] then
      let (value, big, s) := digitLoop isXDigit hexStep (text.drop 2) 0 false
      some (fillConst text s value false false big)
    else none
  | .numString =>
    -- `strtol` stops at the largest `long`
    some (fillConst text text (min (radixValue 2 digitValue text 0) 9223372036854775807) true false false)
  | .numFloat => none

/-- A literal at the start of a text: its constant, the text after it, and the messages. -/
def lexConst (s : Text) : Option (CConstValue × Text × List Msg) := do
  let scan ← getLiteral s
  let (v, msgs) ← getConstValue scan.token scan.stringBuf
  return (v, scan.pos, scan.msgs ++ msgs)

/-! ## The literals of C -/

/-- `l`, `L`, `ll` or `LL` -/
structure LongSuffix where
  upper : Bool
  twice : Bool
deriving DecidableEq, Repr

def LongSuffix.text (l : LongSuffix) : Text :=
  List.replicate (if l.twice then 2 else 1) (if l.upper then 'L' else 'l')

/-- `u` or `U`, with its case. -/
def unsignedText (upper : Bool) : Text := if upper then ['U'] else ['u']

inductive Suffix
  | none
  | u (upper : Bool)
  | l (l : LongSuffix)
  /-- `u` first. -/
  | ul (upper : Bool) (l : LongSuffix)
  /-- `l` first. -/
  | lu (l : LongSuffix) (upper : Bool)
deriving DecidableEq, Repr

namespace Suffix

def text : Suffix → Text
  | none => []
  | u upper => unsignedText upper
  | l s => s.text
  | ul upper s => unsignedText upper ++ s.text
  | lu s upper => s.text ++ unsignedText upper

def isUnsigned : Suffix → Bool
  | none | l _ => false
  | u _ | ul .. | lu .. => true

def isLong : Suffix → Bool
  | none | u _ => false
  | l _ | ul .. | lu .. => true

/-- The scanner knows the suffix. -/
def UFirst : Suffix → Prop
  | lu .. => False
  | none | u _ | l _ | ul .. => True

end Suffix

/-- Simple escapes, by the character after the backslash. -/
inductive Escape
  | n | r | backslash | t | v | b | f | a | question | apostrophe | quote
deriving DecidableEq, Repr

def Escape.char : Escape → Char
  | n => 'n' | r => 'r' | backslash => '\\' | t => 't' | v => 'v' | b => 'b' | f => 'f' | a => 'a'
  | question => '?' | apostrophe => '\'' | quote => '"'

def Escape.value : Escape → ℕ
  | n => 10 | r => 13 | backslash => 92 | t => 9 | v => 11 | b => 8 | f => 12 | a => 7
  | question => 63 | apostrophe => 39 | quote => 34

/-- Integer constants that are decimal or hexadecimal, and character constants. -/
inductive Literal
  | dec (digits : Text) (suffix : Suffix)
  | hex (upper : Bool) (digits : Text) (suffix : Suffix)
  | plain (c : Char)
  | simple (e : Escape)
  | octal (digits : Text)
  | hexEscape (digits : Text)
deriving DecidableEq, Repr

namespace Literal

def text : Literal → Text
  | dec ds suffix => ds ++ suffix.text
  | hex upper ds suffix => '0' :: (if upper then 'X' else 'x') :: ds ++ suffix.text
  | plain c => ['\'', c, '\'']
  | simple e => ['\'', '\\', e.char, '\'']
  | octal ds => '\'' :: '\\' :: ds ++ ['\'']
  | hexEscape ds => '\'' :: '\\' :: 'x' :: ds ++ ['\'']

/-- What C allows. A constant that starts with 0 is octal, except for 0. -/
def Wf : Literal → Prop
  | dec ds _ => ds ≠ [] ∧ (∀ c ∈ ds, c.isDigit = true) ∧ (ds.head? = some '0' → ds = ['0'])
  | hex _ ds _ => ds ≠ [] ∧ ∀ c ∈ ds, isXDigit c = true
  | plain c => 0 < c.toNat ∧ c.toNat < 256 ∧ c ≠ '\'' ∧ c ≠ '\\' ∧ c ≠ '\n'
  | simple _ => True
  | octal ds => 1 ≤ ds.length ∧ ds.length ≤ 3 ∧ ∀ c ∈ ds, isOctDigit c = true
  | hexEscape ds => 1 ≤ ds.length ∧ ds.length ≤ 2 ∧ ∀ c ∈ ds, isXDigit c = true

/-- A constant is the longest token: no letter, digit, `_` or period is right after a number. -/
def Ends (rest : Text) : Literal → Prop
  | dec .. | hex .. => ∀ c ∈ rest.head?, isIdent c = false ∧ c ≠ '.'
  | plain _ | simple _ | octal _ | hexEscape _ => True

/-- The code of a character constant. -/
def code : Literal → ℕ
  | dec .. | hex .. => 0
  | plain c => c.toNat
  | simple e => e.value
  | octal ds => radixValue 8 digitValue ds 0
  | hexEscape ds => radixValue 16 xDigitValue ds 0

/-- The value in C, where `char` is signed; an octal escape that no `unsigned char` holds has none. -/
def cValue : Literal → Option Int
  | dec ds _ => some (radixValue 10 digitValue ds 0 : ℕ)
  | hex _ ds _ => some (radixValue 16 xDigitValue ds 0 : ℕ)
  | l => if l.code < 256 then some (if l.code < 128 then l.code else l.code - 256 : Int) else none

/-- The container that the suffix selects: a hexadecimal constant is unsigned. -/
def container : Literal → IntType
  | dec _ s => containerOf (!s.isUnsigned) s.isLong
  | hex _ _ s => containerOf false s.isLong
  | plain _ | simple _ | octal _ | hexEscape _ => int32

/-- Which literals the scanner and `GetConstValue` read right. -/
def Read : Literal → Prop
  | dec _ s => s.UFirst
  | hex upper _ s => upper = false ∧ s.UFirst
  | plain c => c.toNat < 128
  | simple _ => True
  | octal ds => radixValue 8 digitValue ds 0 % 256 < 128
  | hexEscape ds => radixValue 16 xDigitValue ds 0 = 0

end Literal

/-- **A literal keeps its value** before some text: nothing else is read, its value is there without a message if the
container holds it, and there is a message if not. -/
def Kept (l : Literal) (rest : Text) : Prop :=
  ∃ v msgs, lexConst (l.text ++ rest) = some (v, rest, msgs) ∧
    ((∃ x, l.cValue = some x ∧ l.container.InRange x ∧ v.value = x ∧ msgs = []) ∨
      (∀ x, l.cValue = some x → ¬l.container.InRange x) ∧ msgs ≠ [])

/-! ## The end of a number -/

section

variable {rest s : Text} {c : Char}

theorem isIdent_of_toLower (h : c.toLower = 'u' ∨ c.toLower = 'l') : isIdent c = true := by
  by_cases hup : c.isUpper = true
  · unfold isIdent Char.isAlphanum
    rw [isAlpha_eq, hup]
    rfl
  · have hlow : c.toLower = c := by
      unfold Char.toLower
      rw [isUpper_eq, decide_eq_true_iff] at hup
      exact dif_neg hup
    rw [hlow] at h
    rcases h with rfl | rfl
    · rfl
    · rfl

theorem eat_self (h : ∀ a ∈ s.head?, a.toLower ≠ c) : eat c s = s := by
  cases s with
  | nil => rfl
  | cons a s => exact if_neg (h a rfl)

theorem toLower_ne (h : isIdent c = false) : c.toLower ≠ 'u' ∧ c.toLower ≠ 'l' :=
  ⟨fun hu => Bool.false_ne_true (h.symm.trans (isIdent_of_toLower (Or.inl hu))),
    fun hl => Bool.false_ne_true (h.symm.trans (isIdent_of_toLower (Or.inr hl)))⟩

/-- **The end of a suffix** that has `u` first, or no `u`. -/
theorem suffixEnd_text {suffix : Suffix} (hrest : ∀ c ∈ rest.head?, isIdent c = false) (h : suffix.UFirst) :
    suffixEnd (suffix.text ++ rest) = rest := by
  have hu : eat 'u' rest = rest := eat_self fun a ha => (toLower_ne (hrest a ha)).1
  have hl : eat 'l' rest = rest := eat_self fun a ha => (toLower_ne (hrest a ha)).2
  have hlong : ∀ l : LongSuffix, eat 'l' (eat 'l' (l.text ++ rest)) = rest := by
    rintro ⟨upper, twice⟩
    have hone : ∀ s, eat 'l' ((if upper then 'L' else 'l') :: s) = s := by
      intro s
      cases upper <;> rfl
    cases twice with
    | false => exact (congrArg (eat 'l') (hone _)).trans hl
    | true => exact (congrArg (eat 'l') (hone _)).trans (hone _)
  unfold suffixEnd
  cases suffix with
  | none =>
    change eat 'l' (eat 'l' (eat 'u' rest)) = rest
    rw [hu, hl, hl]
  | u upper =>
    have hone : eat 'u' (unsignedText upper ++ rest) = rest := by cases upper <;> rfl
    change eat 'l' (eat 'l' (eat 'u' (unsignedText upper ++ rest))) = rest
    rw [hone, hl, hl]
  | l l =>
    have hskip : eat 'u' (l.text ++ rest) = l.text ++ rest := by
      obtain ⟨upper, twice⟩ := l
      cases upper <;> cases twice <;> rfl
    change eat 'l' (eat 'l' (eat 'u' (l.text ++ rest))) = rest
    rw [hskip, hlong]
  | ul upper l =>
    have hone : eat 'u' (unsignedText upper ++ (l.text ++ rest)) = l.text ++ rest := by cases upper <;> rfl
    change eat 'l' (eat 'l' (eat 'u' (unsignedText upper ++ l.text ++ rest))) = rest
    rw [List.append_assoc, hone, hlong]
  | lu l upper => exact h.elim

/-- With `l` first the `u` is left. -/
theorem suffixEnd_lu (l : LongSuffix) (upper : Bool) :
    suffixEnd ((Suffix.lu l upper).text ++ rest) = unsignedText upper ++ rest := by
  obtain ⟨upper', twice⟩ := l
  cases upper' <;> cases twice <;> cases upper <;> rfl

/-- What is after the digits of a number. -/
theorem suffix_head (suffix : Suffix) (hrest : ∀ c ∈ rest.head?, isIdent c = false ∧ c ≠ '.') :
    ∀ c ∈ (suffix.text ++ rest).head?, isXDigit c = false ∧ c ≠ '.' ∧ c ≠ 'x' := by
  have hown : ∀ c t, suffix.text = c :: t → isXDigit c = false ∧ c ≠ '.' ∧ c ≠ 'x' := by
    intro c t h
    have hmem : c = 'u' ∨ c = 'U' ∨ c = 'l' ∨ c = 'L' := by
      cases suffix with
      | none => cases h
      | u upper | ul upper l =>
        cases upper with
        | false => exact Or.inl (List.cons.inj h).1.symm
        | true => exact Or.inr (Or.inl (List.cons.inj h).1.symm)
      | l l | lu l upper =>
        obtain ⟨upper', twice⟩ := l
        cases upper' with
        | false => cases twice <;> exact Or.inr (Or.inr (Or.inl (List.cons.inj h).1.symm))
        | true => cases twice <;> exact Or.inr (Or.inr (Or.inr (List.cons.inj h).1.symm))
    rcases hmem with rfl | rfl | rfl | rfl <;> decide
  intro c hc
  cases htext : suffix.text with
  | nil =>
    rw [htext] at hc
    obtain ⟨hident, hdot⟩ := hrest c hc
    refine ⟨Bool.of_not_eq_true fun h => ?_, hdot, fun h => ?_⟩
    · exact Bool.false_ne_true (hident.symm.trans (isIdent_of_isXDigit c h))
    · rw [h] at hident
      exact Bool.false_ne_true hident.symm
  | cons a t =>
    rw [htext] at hc
    obtain rfl : a = c := Option.some.inj hc
    exact hown _ _ htext

theorem isDigit_of_not_isXDigit (h : isXDigit c = false) : c.isDigit = false := by
  unfold isXDigit at h
  simp only [Bool.or_eq_false_iff] at h
  exact h.1.1

theorem dropWhile_all {p : Char → Bool} {ds t : Text} (hds : ∀ c ∈ ds, p c = true)
    (ht : ∀ c ∈ t.head?, p c = false) : (ds ++ t).dropWhile p = t := by
  rw [List.dropWhile_append_of_pos hds]
  cases t with
  | nil => rfl
  | cons c t => exact List.dropWhile_cons_of_neg (by rw [ht c rfl]; exact Bool.false_ne_true)

theorem upTo_append (a b : Text) : upTo (a ++ b) b = a := by
  unfold upTo
  rw [List.length_append, Nat.add_sub_cancel, List.take_left]

end

/-! ## The value of a number -/

section

variable {s : Text} {suffix : Suffix}

theorem radixValue_mod (radix : ℕ) (val : Char → ℕ) (ds : Text) (v m : ℕ) :
    radixValue radix val ds (v % m) % m = radixValue radix val ds v % m := by
  induction ds generalizing v with
  | nil => exact Nat.mod_mod v m
  | cons c ds ih =>
    have hcons : ∀ v, radixValue radix val (c :: ds) v = radixValue radix val ds (v * radix + val c) := fun _ => rfl
    rw [hcons, hcons, ← ih, ← ih (v * radix + val c), Nat.add_mod, Nat.mod_mul_mod, ← Nat.add_mod]

/-- A step adds a digit, and finds out whether the value is too large. -/
def Adds (radix : ℕ) (isDigit : Char → Bool) (val : Char → ℕ) (step : ℕ → Char → ℕ × Bool) : Prop :=
  ∀ value c, value < 18446744073709551616 → isDigit c = true →
    step value c = ((value * radix + val c) % 18446744073709551616,
      decide (18446744073709551616 ≤ value * radix + val c))

theorem digitValue_lt {c : Char} (h : c.isDigit = true) : digitValue c < 10 := by
  have h0 : '0'.toNat = 48 := rfl
  have h9 : '9'.toNat = 57 := rfl
  have hle : c.toNat ≤ '9'.toNat := by
    unfold Char.isDigit at h
    simp only [Bool.and_eq_true, decide_eq_true_eq] at h
    exact h.2
  unfold digitValue
  omega

/-- A decimal step that wraps leaves a value with another quotient. -/
theorem decStep_adds : Adds 10 Char.isDigit digitValue decStep := by
  intro value c hvalue hc
  have hlt := digitValue_lt hc
  unfold decStep
  refine congrArg (Prod.mk _) ?_
  by_cases h : 18446744073709551616 ≤ value * 10 + digitValue c
  · rw [decide_eq_true h, bne_iff_ne]
    omega
  · rw [decide_eq_false h, bne_eq_false_iff_eq, Nat.mod_eq_of_lt (by omega)]
    omega

theorem xDigitValue_lt (c : Char) : xDigitValue c < 16 := by
  have h0 : '0'.toNat = 48 ∧ '9'.toNat = 57 := ⟨rfl, rfl⟩
  have hA : 'A'.toNat = 65 ∧ 'F'.toNat = 70 := ⟨rfl, rfl⟩
  have ha : 'a'.toNat = 97 ∧ 'f'.toNat = 102 := ⟨rfl, rfl⟩
  have hle : ∀ a b : Char, a ≤ b ↔ a.toNat ≤ b.toNat := fun a b => Iff.rfl
  unfold xDigitValue hexDigit
  simp only [hle]
  split
  · rw [Option.getD_some]
    omega
  · split
    · rw [Option.getD_some]
      omega
    · split
      · rw [Option.getD_some]
        omega
      · decide

theorem hexStep_adds : Adds 16 isXDigit xDigitValue hexStep := by
  intro value c hvalue _
  have hlt := xDigitValue_lt c
  refine congrArg (Prod.mk _) (decide_eq_decide.2 ?_)
  omega

/-- **The loop over the digits** keeps the value modulo 2^64, and is right about whether that is all. -/
theorem digitLoop_eq {radix : ℕ} {isDigit : Char → Bool} {val : Char → ℕ} {step : ℕ → Char → ℕ × Bool}
    (hadds : Adds radix isDigit val step) (hradix : 1 ≤ radix) {ds t : Text} (hds : ∀ c ∈ ds, isDigit c = true)
    (ht : ∀ c ∈ t.head?, isDigit c = false) {value : ℕ} (hvalue : value < 18446744073709551616) (big : Bool) :
    digitLoop isDigit step (ds ++ t) value big = (radixValue radix val ds value % 18446744073709551616,
      big || decide (18446744073709551616 ≤ radixValue radix val ds value), t) := by
  induction ds generalizing value big with
  | nil =>
    have hvalue' : radixValue radix val [] value = value := rfl
    have hend : digitLoop isDigit step t value big = (value, big, t) := by
      cases t with
      | nil => rfl
      | cons c t => exact if_neg (by rw [ht c rfl]; exact Bool.false_ne_true)
    rw [hvalue', decide_eq_false (by omega), Bool.or_false, Nat.mod_eq_of_lt hvalue]
    exact hend
  | cons c ds ih =>
    have hc := hds c List.mem_cons_self
    have hstep := hadds value c hvalue hc
    have hmod : (value * radix + val c) % 18446744073709551616 < 18446744073709551616 := Nat.mod_lt _ (by decide)
    have hih := ih (fun a ha => hds a (List.mem_cons_of_mem _ ha)) hmod
      (big || decide (18446744073709551616 ≤ value * radix + val c))
    have hcons : ∀ v, radixValue radix val (c :: ds) v = radixValue radix val ds (v * radix + val c) := fun _ => rfl
    have hrun : digitLoop isDigit step (c :: ds ++ t) value big =
        digitLoop isDigit step (ds ++ t) (step value c).1 (big || (step value c).2) := if_pos hc
    rw [hrun, hstep, hih, hcons, radixValue_mod]
    refine congrArg (Prod.mk _) (congrArg (Prod.mk · t) ?_)
    -- the first wrap is seen, and the value before it is the exact one
    by_cases hwrap : 18446744073709551616 ≤ value * radix + val c
    · have hle := le_radixValue hradix val ds (value * radix + val c)
      rw [decide_eq_true hwrap, decide_eq_true (Nat.le_trans hwrap hle), Bool.or_true, Bool.true_or]
    · rw [decide_eq_false hwrap, Bool.or_false, Nat.mod_eq_of_lt (by omega)]

/-- **The suffix** selects the container, in every order. -/
theorem fillConst_suffix (text : Text) (suffix : Suffix) (value : ℕ) (bIsSigned big : Bool) :
    fillConst text suffix.text value bIsSigned false big =
      (.of (containerOf (bIsSigned && !suffix.isUnsigned) suffix.isLong) value,
        if big || decide (limit (bIsSigned && !suffix.isUnsigned) suffix.isLong ≤ value) then [.integerTooLarge text]
        else []) := by
  cases suffix with
  | none => cases bIsSigned <;> rfl
  | u upper => cases upper <;> cases bIsSigned <;> rfl
  | l l =>
    obtain ⟨upper', twice⟩ := l
    cases upper' <;> cases twice <;> cases bIsSigned <;> rfl
  | ul upper l | lu l upper =>
    obtain ⟨upper', twice⟩ := l
    cases upper' <;> cases twice <;> cases upper <;> cases bIsSigned <;> rfl

theorem inRange_containerOf (bIsSigned bIsLongLong : Bool) (n : ℕ) :
    (containerOf bIsSigned bIsLongLong).InRange n ↔ n < limit bIsSigned bIsLongLong := by
  cases bIsSigned <;> cases bIsLongLong
  · exact inRange_uint32.trans (by change _ ↔ n < 4294967296; omega)
  · exact inRange_uint64.trans (by change _ ↔ n < 18446744073709551616; omega)
  · exact inRange_int32.trans (by change _ ↔ n < 2147483648; omega)
  · exact inRange_int64.trans (by change _ ↔ n < 9223372036854775808; omega)

theorem limit_le (bIsSigned bIsLongLong : Bool) : limit bIsSigned bIsLongLong ≤ 18446744073709551616 := by
  cases bIsSigned <;> cases bIsLongLong <;> decide

/-- **The test of the container** is right, also about a value that has wrapped. -/
theorem fillConst_kept (text : Text) (suffix : Suffix) (bIsSigned : Bool) (n : ℕ) :
    ∃ v msgs, fillConst text suffix.text (n % 18446744073709551616) bIsSigned false
        (false || decide (18446744073709551616 ≤ n)) = (v, msgs) ∧
      (((containerOf (bIsSigned && !suffix.isUnsigned) suffix.isLong).InRange n ∧ v.value = n ∧ msgs = []) ∨
        ¬(containerOf (bIsSigned && !suffix.isUnsigned) suffix.isLong).InRange n ∧ msgs ≠ []) := by
  refine ⟨_, _, fillConst_suffix .., ?_⟩
  generalize (bIsSigned && !suffix.isUnsigned) = b
  have hle := limit_le b suffix.isLong
  have hrange := inRange_containerOf b suffix.isLong n
  by_cases hfit : n < limit b suffix.isLong
  · have hmod : n % 18446744073709551616 = n := Nat.mod_eq_of_lt (by omega)
    refine Or.inl ⟨hrange.2 hfit, ?_, ?_⟩
    · rw [hmod]
      exact Val.of_value (hrange.2 hfit)
    · rw [hmod, decide_eq_false (by omega), decide_eq_false (by omega)]
      rfl
  · refine Or.inr ⟨mt hrange.1 hfit, ?_⟩
    have hbig : (false || decide (18446744073709551616 ≤ n) ||
        decide (limit b suffix.isLong ≤ n % 18446744073709551616)) = true := by
      by_cases hwrap : 18446744073709551616 ≤ n
      · rw [decide_eq_true hwrap]
        rfl
      · have hmod : n % 18446744073709551616 = n := Nat.mod_eq_of_lt (by omega)
        rw [hmod, decide_eq_true (Nat.le_of_not_lt hfit), Bool.or_true]
    rw [if_pos hbig]
    exact List.cons_ne_nil _ _

end

/-! ## Numbers -/

section

variable {rest ds : Text} {suffix : Suffix}

theorem lexConst_eq {s : Text} {scan : Scan} {v : CConstValue} {msgs : List Msg} (hscan : getLiteral s = some scan)
    (hconst : getConstValue scan.token scan.stringBuf = some (v, msgs)) :
    lexConst s = some (v, scan.pos, scan.msgs ++ msgs) := by
  unfold lexConst
  rw [hscan]
  change (getConstValue scan.token scan.stringBuf).bind _ = _
  rw [hconst]
  rfl

/-- A value that `GetConstValue` keeps, at the end of the literal. -/
theorem kept_of_scan {l : Literal} {b : Bool} {n : ℕ} {scan : Scan} (hscan : getLiteral (l.text ++ rest) = some scan)
    (hpos : scan.pos = rest) (hmsgs : scan.msgs = [])
    (hconst : getConstValue scan.token scan.stringBuf = some (fillConst scan.stringBuf suffix.text
      (n % 18446744073709551616) b false (false || decide (18446744073709551616 ≤ n))))
    (hvalue : l.cValue = some (n : Int))
    (hcontainer : l.container = containerOf (b && !suffix.isUnsigned) suffix.isLong) :
    Kept l rest := by
  obtain ⟨v, msgs, hfill, hkept⟩ := fillConst_kept scan.stringBuf suffix b n
  have hlex := lexConst_eq hscan (hconst.trans (congrArg some hfill))
  rw [hpos, hmsgs] at hlex
  refine ⟨v, msgs, hlex, ?_⟩
  rw [hvalue, hcontainer]
  rcases hkept with h | ⟨hrange, hne⟩
  · exact Or.inl ⟨n, rfl, h⟩
  · refine Or.inr ⟨fun x hx => ?_, hne⟩
    rw [← Option.some.inj hx]
    exact hrange

/-- What is kept is read to its end. -/
theorem Kept.pos {l : Literal} {scan : Scan} (h : Kept l rest) (hscan : getLiteral (l.text ++ rest) = some scan) :
    scan.pos = rest := by
  obtain ⟨v, msgs, hlex, -⟩ := h
  unfold lexConst at hlex
  rw [hscan] at hlex
  change (getConstValue scan.token scan.stringBuf).bind _ = _ at hlex
  obtain ⟨⟨v', msgs'⟩, -, heq⟩ := Option.bind_eq_some_iff.1 hlex
  exact (Prod.mk.inj (Prod.mk.inj (Option.some.inj heq)).2).1

/-- No text starts with itself and more. -/
theorem ne_append_of_ne_nil {a : Text} (h : a ≠ []) : a ++ rest ≠ rest := by
  intro heq
  have hlen := congrArg List.length heq
  have hpos : 0 < a.length := List.length_pos_iff.2 h
  rw [List.length_append] at hlen
  omega

theorem unsignedText_ne_nil (upper : Bool) : unsignedText upper ≠ [] := by
  cases upper <;> exact List.cons_ne_nil _ _

theorem getLiteral_digit {c : Char} {s : Text} (h : c.isDigit = true) :
    getLiteral (c :: s) = some (getNumber (c :: s)) := by
  have hne : c ≠ '\'' := fun heq => by
    rw [heq] at h
    cases h
  unfold getLiteral
  split
  next heq => exact absurd (List.cons.inj heq).1 hne
  next heq =>
    obtain ⟨rfl, rfl⟩ := List.cons.inj heq
    exact if_pos h
  next heq => cases heq

/-- The suffix alone starts with no digit. -/
theorem suffix_not_xdigit (suffix : Suffix) : ∀ c ∈ suffix.text.head?, isXDigit c = false := by
  intro c hc
  have hhead := @suffix_head [] suffix fun a ha => by cases ha
  rw [List.append_nil] at hhead
  exact (hhead c hc).1

theorem getLiteral_dec (hwf : (Literal.dec ds suffix).Wf) (hrest : (Literal.dec ds suffix).Ends rest) :
    getLiteral ((Literal.dec ds suffix).text ++ rest) = some ⟨.numInt,
      upTo ((Literal.dec ds suffix).text ++ rest) (suffixEnd (suffix.text ++ rest)), suffixEnd (suffix.text ++ rest),
      []⟩ := by
  obtain ⟨hne, hds, hzero⟩ := hwf
  have hhead := suffix_head suffix hrest
  have hdrop : (ds ++ (suffix.text ++ rest)).dropWhile Char.isDigit = suffix.text ++ rest :=
    dropWhile_all hds fun c hc => isDigit_of_not_isXDigit (hhead c hc).1
  -- it does not start with `0x`, and has no period
  have hx : (ds ++ (suffix.text ++ rest)).take 2 ≠ ['0', 'x'] := by
    intro hx
    cases ds with
    | nil => exact hne rfl
    | cons c ds =>
      have hc : c = '0' := (List.cons.inj hx).1
      have hnil : ds = [] := (List.cons.inj (hzero (congrArg some hc))).2
      subst hnil
      cases htail : suffix.text ++ rest with
      | nil =>
        rw [htail] at hx
        cases hx
      | cons a t =>
        rw [htail] at hx
        exact (hhead a (by rw [htail]; rfl)).2.2 (List.cons.inj (List.cons.inj hx).2).1
  have hdot : (suffix.text ++ rest).head? ≠ some '.' := fun h => (hhead '.' h).2.1 rfl
  have htext : (Literal.dec ds suffix).text ++ rest = ds ++ (suffix.text ++ rest) := List.append_assoc ..
  have hnumber : getNumber (ds ++ (suffix.text ++ rest)) = ⟨.numInt,
      upTo (ds ++ (suffix.text ++ rest)) (suffixEnd (suffix.text ++ rest)), suffixEnd (suffix.text ++ rest), []⟩ := by
    unfold getNumber
    rw [if_neg hx, hdrop]
    exact if_neg hdot
  rw [htext, ← hnumber]
  cases ds with
  | nil => exact absurd rfl hne
  | cons c ds => exact getLiteral_digit (hds c List.mem_cons_self)

theorem dec_kept_iff (hwf : (Literal.dec ds suffix).Wf) (hrest : (Literal.dec ds suffix).Ends rest) :
    Kept (.dec ds suffix) rest ↔ suffix.UFirst := by
  have hscan := getLiteral_dec hwf hrest
  obtain ⟨hne, hds, -⟩ := hwf
  constructor
  · intro hkept
    have hpos : suffixEnd (suffix.text ++ rest) = rest := hkept.pos hscan
    cases suffix with
    | lu l upper =>
      rw [suffixEnd_lu] at hpos
      exact (ne_append_of_ne_nil (unsignedText_ne_nil upper) hpos).elim
    | _ => trivial
  · intro hfirst
    rw [suffixEnd_text (fun c hc => (hrest c hc).1) hfirst, upTo_append] at hscan
    have hneg : (ds ++ suffix.text).head? ≠ some '-' := by
      cases ds with
      | nil => exact absurd rfl hne
      | cons c ds =>
        intro h
        have hc := hds c List.mem_cons_self
        rw [Option.some.inj h] at hc
        cases hc
    have hloop := digitLoop_eq decStep_adds (by decide) hds
      (fun c hc => isDigit_of_not_isXDigit (suffix_not_xdigit suffix c hc)) (by decide : 0 < 18446744073709551616) false
    refine kept_of_scan (b := true) hscan rfl rfl ?_ rfl rfl
    change getConstValue .numInt (ds ++ suffix.text) = _
    unfold getConstValue
    dsimp only
    rw [if_neg hneg, hloop, decide_eq_false hneg]
    rfl

theorem getConstValue_hex (hds : ∀ c ∈ ds, isXDigit c = true) (suffix : Suffix) :
    getConstValue .numHex ('0' :: 'x' :: (ds ++ suffix.text)) =
      some (fillConst ('0' :: 'x' :: (ds ++ suffix.text)) suffix.text
        (radixValue 16 xDigitValue ds 0 % 18446744073709551616) false false
        (false || decide (18446744073709551616 ≤ radixValue 16 xDigitValue ds 0))) := by
  have hloop := digitLoop_eq hexStep_adds (by decide) hds (suffix_not_xdigit suffix)
    (by decide : 0 < 18446744073709551616) false
  have htake : ('0' :: 'x' :: (ds ++ suffix.text)).take 2 = ['0', 'x'] := rfl
  have hskip : ('0' :: 'x' :: (ds ++ suffix.text)).drop 2 = ds ++ suffix.text := rfl
  unfold getConstValue
  dsimp only
  rw [if_pos (Or.inl htake), hskip, hloop]

theorem getLiteral_hex (hwf : (Literal.hex false ds suffix).Wf) (hrest : (Literal.hex false ds suffix).Ends rest) :
    getLiteral ((Literal.hex false ds suffix).text ++ rest) = some ⟨.numHex,
      upTo ((Literal.hex false ds suffix).text ++ rest) (suffixEnd (suffix.text ++ rest)),
      suffixEnd (suffix.text ++ rest), []⟩ := by
  have hdrop : (ds ++ (suffix.text ++ rest)).dropWhile isXDigit = suffix.text ++ rest :=
    dropWhile_all hwf.2 fun c hc => (suffix_head suffix hrest c hc).1
  have htext : (Literal.hex false ds suffix).text ++ rest = '0' :: 'x' :: (ds ++ (suffix.text ++ rest)) := by
    rw [← List.append_assoc]
    rfl
  rw [htext, getLiteral_digit rfl]
  have htake : ('0' :: 'x' :: (ds ++ (suffix.text ++ rest))).take 2 = ['0', 'x'] := rfl
  have hskip : ('0' :: 'x' :: (ds ++ (suffix.text ++ rest))).drop 2 = ds ++ (suffix.text ++ rest) := rfl
  unfold getNumber
  rw [if_pos htake, hskip, hdrop]

/-- `0X` is the number 0 and a word. -/
theorem hex_upper_pos {scan : Scan} (h : getLiteral ((Literal.hex true ds suffix).text ++ rest) = some scan) :
    scan.pos = 'X' :: (ds ++ suffix.text ++ rest) := by
  have htext : (Literal.hex true ds suffix).text ++ rest = '0' :: 'X' :: (ds ++ suffix.text ++ rest) := rfl
  rw [htext, getLiteral_digit rfl] at h
  rw [← Option.some.inj h]
  rfl

theorem hex_kept_iff {upper : Bool} (hwf : (Literal.hex upper ds suffix).Wf)
    (hrest : (Literal.hex upper ds suffix).Ends rest) :
    Kept (.hex upper ds suffix) rest ↔ upper = false ∧ suffix.UFirst := by
  cases upper with
  | true =>
    refine iff_of_false (fun hkept => ?_) fun h => Bool.noConfusion h.1
    have hscan : getLiteral ((Literal.hex true ds suffix).text ++ rest) = some _ := getLiteral_digit rfl
    have hpos := (hex_upper_pos hscan).symm.trans (hkept.pos hscan)
    exact ne_append_of_ne_nil (List.cons_ne_nil 'X' (ds ++ suffix.text)) hpos
  | false =>
    have hscan := getLiteral_hex hwf hrest
    constructor
    · intro hkept
      have hpos : suffixEnd (suffix.text ++ rest) = rest := hkept.pos hscan
      cases suffix with
      | lu l upper =>
        rw [suffixEnd_lu] at hpos
        exact (ne_append_of_ne_nil (unsignedText_ne_nil upper) hpos).elim
      | _ => exact ⟨rfl, trivial⟩
    · rintro ⟨-, hfirst⟩
      rw [suffixEnd_text (fun c hc => (hrest c hc).1) hfirst, upTo_append] at hscan
      exact kept_of_scan (b := false) hscan rfl rfl (getConstValue_hex hwf.2 suffix) rfl rfl

end

/-! ## Characters -/

section

variable {rest ds : Text} {l : Literal} {ch : Int} {msgs : List Msg}

theorem digitChar_value : ∀ n < 16, isXDigit (Nat.digitChar n) = true ∧ xDigitValue (Nat.digitChar n) = n := by
  decide

/-- **The number of a character** is read as it was printed. -/
theorem getConstValue_char {n : ℕ} (h : n < 256) :
    getConstValue .numHex ['0', 'x', Nat.digitChar (n / 16), Nat.digitChar (n % 16)] = some (.of uint32 n, []) := by
  obtain ⟨hd1, hv1⟩ := digitChar_value (n / 16) (by omega)
  obtain ⟨hd2, hv2⟩ := digitChar_value (n % 16) (by omega)
  have hds : ∀ c ∈ [Nat.digitChar (n / 16), Nat.digitChar (n % 16)], isXDigit c = true := by
    intro c hc
    simp only [List.mem_cons, List.not_mem_nil, or_false] at hc
    rcases hc with rfl | rfl
    · exact hd1
    · exact hd2
  have hvalue : radixValue 16 xDigitValue [Nat.digitChar (n / 16), Nat.digitChar (n % 16)] 0 = n := by
    change (0 * 16 + xDigitValue (Nat.digitChar (n / 16))) * 16 + xDigitValue (Nat.digitChar (n % 16)) = n
    rw [hv1, hv2]
    omega
  have hconst := getConstValue_hex hds .none
  rw [hvalue, fillConst_suffix] at hconst
  refine hconst.trans (congrArg some (Prod.ext ?_ (if_neg ?_)))
  · exact congrArg (fun m : ℕ => Val.of uint32 m) (Nat.mod_eq_of_lt (by omega))
  · change ¬(false || decide (18446744073709551616 ≤ n) || decide (4294967296 ≤ n % 18446744073709551616)) = true
    have hmod : n % 18446744073709551616 = n := Nat.mod_eq_of_lt (by omega)
    rw [hmod, decide_eq_false (by omega), decide_eq_false (by omega)]
    exact Bool.false_ne_true

/-- A character constant is closed after its character. -/
theorem getLiteral_char {s : Text} (h : getCh s = some (ch, '\'' :: rest, msgs)) :
    getLiteral ('\'' :: s) = (printChar ch).map fun str => ⟨.numHex, str, rest, msgs⟩ := by
  have hmsgs : msgs ++ (if '\'' ≠ '\'' then [Msg.illegalChar] else []) = msgs := by
    rw [if_neg fun hne => hne rfl, List.append_nil]
  change getChar s = _
  unfold getChar
  rw [h]
  change ((printChar ch).bind fun str => some (Scan.mk .numHex str rest
    (msgs ++ if '\'' ≠ '\'' then [Msg.illegalChar] else []))) = _
  rw [hmsgs]
  cases printChar ch <;> rfl

/-- A character constant whose `ch` fits in `str`. -/
theorem lexConst_char {s : Text} (h : getLiteral s = (printChar ch).map fun str => ⟨.numHex, str, rest, msgs⟩)
    (hch : ch < 128) : lexConst s = if 0 ≤ ch then some (.of uint32 ch, rest, msgs) else none := by
  unfold printChar at h
  by_cases h0 : 0 ≤ ch
  · rw [if_pos h0] at h ⊢
    have hconst := lexConst_eq h (getConstValue_char (by omega : ch.toNat < 256))
    rw [hconst, Int.toNat_of_nonneg h0]
    dsimp only
    rw [List.append_nil]
  · rw [if_neg h0] at h ⊢
    unfold lexConst
    rw [h]
    rfl

theorem charOf_nat {n : ℕ} : charOf n < 128 ∧ (n < 128 → charOf n = n) ∧
    (0 ≤ charOf n ↔ n % 256 < 128) := by
  unfold charOf
  omega

/-- A character constant of the code that `ch` is made from. -/
theorem char_kept_iff (h : getLiteral (l.text ++ rest) =
      (printChar (charOf l.code)).map fun str => ⟨.numHex, str, rest, if l.code > 255 then [.octalTooLarge] else []⟩)
    (hvalue : l.cValue = if l.code < 256 then some (if l.code < 128 then l.code else l.code - 256 : Int) else none)
    (hcontainer : l.container = int32) : Kept l rest ↔ l.code % 256 < 128 := by
  obtain ⟨hlt, hsame, hnonneg⟩ := @charOf_nat l.code
  have hlex := lexConst_char h hlt
  constructor
  · rintro ⟨v, msgs, hlex', -⟩
    refine hnonneg.1 (Decidable.not_not.1 fun hneg => ?_)
    rw [hlex, if_neg hneg] at hlex'
    cases hlex'
  · intro hsmall
    rw [if_pos (hnonneg.2 hsmall)] at hlex
    refine ⟨_, _, hlex, ?_⟩
    by_cases hbig : l.code < 256
    · have h128 : l.code < 128 := by omega
      rw [if_pos hbig, if_pos h128] at hvalue
      refine Or.inl ⟨_, hvalue, ?_, ?_, if_neg (by omega)⟩
      · rw [hcontainer]
        exact inRange_int32.2 (by omega)
      · rw [hsame h128]
        exact Val.of_value (inRange_uint32.2 (by omega))
    · rw [if_neg hbig] at hvalue
      refine Or.inr ⟨fun x hx => ?_, ?_⟩
      · rw [hvalue] at hx
        cases hx
      · rw [if_pos (by omega)]
        exact List.cons_ne_nil _ _

theorem plain_kept_iff {c : Char} (hwf : (Literal.plain c).Wf) : Kept (.plain c) rest ↔ c.toNat < 128 := by
  obtain ⟨-, h256, hquote, hback, -⟩ := hwf
  have hch : getCh (c :: '\'' :: rest) = some (charOf c.toNat, '\'' :: rest, []) := by
    unfold getCh
    split
    next heq => cases heq
    next heq => exact absurd (List.cons.inj heq).1 hback
    next heq =>
      obtain ⟨rfl, rfl⟩ := List.cons.inj heq
      rfl
  have hcode : (Literal.plain c).code = c.toNat := rfl
  have hiff := @char_kept_iff rest (.plain c) (by rw [hcode, if_neg (by omega)]; exact getLiteral_char hch) rfl rfl
  rw [hiff, hcode]
  omega

theorem simple_kept (e : Escape) : Kept (.simple e) rest := by
  refine (char_kept_iff ?_ rfl rfl).2 ?_
  · cases e <;> rfl
  · cases e <;> decide

/-- **The loop of an octal escape** reads up to `n` digits. -/
theorem octLoop_eq {n v : ℕ} {t : Text} (hds : ∀ c ∈ ds, isOctDigit c = true) (hlen : ds.length ≤ n)
    (ht : ∀ c ∈ t.head?, isOctDigit c = false) : octLoop n v (ds ++ t) = (radixValue 8 digitValue ds v, t) := by
  induction ds generalizing n v with
  | nil =>
    cases n with
    | zero => rfl
    | succ n =>
      cases t with
      | nil => rfl
      | cons c t => exact if_neg (by rw [ht c rfl]; exact Bool.false_ne_true)
  | cons c ds ih =>
    cases n with
    | zero => exact absurd hlen (Nat.not_succ_le_zero _)
    | succ n =>
      have hc := hds c List.mem_cons_self
      exact (if_pos hc).trans (ih (fun a ha => hds a (List.mem_cons_of_mem _ ha)) (Nat.le_of_succ_le_succ hlen))

theorem simpleEscape_octDigit {c : Char} (h : isOctDigit c = true) : simpleEscape c = none := by
  unfold simpleEscape
  split
  case h_12 => rfl
  all_goals exact absurd h (by decide)

theorem octal_kept_iff (hwf : (Literal.octal ds).Wf) :
    Kept (.octal ds) rest ↔ radixValue 8 digitValue ds 0 % 256 < 128 := by
  obtain ⟨hne, hlen, hds⟩ := hwf
  have hloop := @octLoop_eq ds 3 0 ('\'' :: rest) hds hlen fun c hc => by
    obtain rfl := Option.some.inj hc
    rfl
  have hch : getCh ('\\' :: (ds ++ '\'' :: rest)) = some (charOf (radixValue 8 digitValue ds 0 : ℕ), '\'' :: rest,
      if radixValue 8 digitValue ds 0 > 255 then [.octalTooLarge] else []) := by
    change getEscape (ds ++ '\'' :: rest) = _
    cases ds with
    | nil => exact absurd hne (by decide)
    | cons c ds =>
      have hc := hds c List.mem_cons_self
      change getEscape (c :: (ds ++ '\'' :: rest)) = _
      unfold getEscape
      dsimp only
      rw [simpleEscape_octDigit hc]
      dsimp only
      rw [if_pos hc]
      change some (charOf (octLoop 3 0 (c :: ds ++ '\'' :: rest)).1, (octLoop 3 0 (c :: ds ++ '\'' :: rest)).2,
        if (octLoop 3 0 (c :: ds ++ '\'' :: rest)).1 > 255 then [Msg.octalTooLarge] else []) = _
      rw [hloop]
  have htext : (Literal.octal ds).text ++ rest = '\'' :: '\\' :: (ds ++ '\'' :: rest) := by
    change '\'' :: '\\' :: (ds ++ ['\''] ++ rest) = _
    rw [List.append_assoc]
    rfl
  exact char_kept_iff (by rw [htext]; exact getLiteral_char hch) rfl rfl

theorem toNat_of_isXDigit {c : Char} (h : isXDigit c = true) : 48 ≤ c.toNat := by
  have h0 : '0'.toNat = 48 ∧ 'A'.toNat = 65 ∧ 'a'.toNat = 97 := ⟨rfl, rfl, rfl⟩
  have hle : ∀ a b : Char, a ≤ b ↔ a.toNat ≤ b.toNat := fun a b => Iff.rfl
  have hdigit : c.isDigit = true → 48 ≤ c.toNat := fun hd => by
    unfold Char.isDigit at hd
    simp only [Bool.and_eq_true, decide_eq_true_eq] at hd
    exact hd.1
  unfold isXDigit at h
  simp only [Bool.or_eq_true, Bool.and_eq_true, decide_eq_true_eq, hle] at h
  rcases h with (h | h) | h
  · exact hdigit h
  · omega
  · omega

/-- What `strtol` reads of one or two digits. -/
theorem strtolEnd_digits {c : Char} (h : isXDigit c = true) (t : Text) :
    strtolEnd (c :: t) = (c :: t).length - ((c :: t).dropWhile isXDigit).length := by
  have hspace : (c :: t).dropWhile (fun c => c.toNat = 32 || 9 ≤ c.toNat && c.toNat ≤ 13) = c :: t := by
    apply List.dropWhile_cons_of_neg
    have hge := toNat_of_isXDigit h
    simp only [Bool.or_eq_true, Bool.and_eq_true, decide_eq_true_eq]
    omega
  have hsign : ¬((c :: t).head? = some '+' ∨ (c :: t).head? = some '-') := by
    rintro (hc | hc)
    · rw [Option.some.inj hc] at h
      cases h
    · rw [Option.some.inj hc] at h
      cases h
  have hdigit : ((c :: t).head?.map isXDigit).getD false = true := h
  unfold strtolEnd
  dsimp only
  rw [hspace, if_neg hsign, if_pos hdigit]

theorem hexEscape_kept_iff (hwf : (Literal.hexEscape ds).Wf) :
    Kept (.hexEscape ds) rest ↔ radixValue 16 xDigitValue ds 0 = 0 := by
  obtain ⟨hne, hlen, hds⟩ := hwf
  have hend : (ds ++ '\'' :: rest).drop (strtolEnd ((ds ++ '\'' :: rest).take 2)) = '\'' :: rest ∧
      strtolEnd ((ds ++ '\'' :: rest).take 2) ≠ 0 ∧ radixValue 16 xDigitValue ds 0 < 256 := by
    have hcases : (∃ a, ds = [a]) ∨ ∃ a b, ds = [a, b] := by
      cases ds with
      | nil => exact absurd hne (by decide)
      | cons a ds =>
        cases ds with
        | nil => exact Or.inl ⟨a, rfl⟩
        | cons b ds =>
          obtain rfl : ds = [] := List.length_eq_zero_iff.1 (by simp only [List.length_cons] at hlen; omega)
          exact Or.inr ⟨a, b, rfl⟩
    rcases hcases with ⟨a, rfl⟩ | ⟨a, b, rfl⟩
    · have ha := hds a List.mem_cons_self
      have hread : strtolEnd [a, '\''] = 1 := by
        rw [strtolEnd_digits ha, List.dropWhile_cons_of_pos ha]
        rfl
      have hvalue : radixValue 16 xDigitValue [a] 0 = 0 * 16 + xDigitValue a := rfl
      have hlt := xDigitValue_lt a
      change (a :: '\'' :: rest).drop (strtolEnd [a, '\'']) = _ ∧ strtolEnd [a, '\''] ≠ 0 ∧ _
      rw [hread, hvalue]
      exact ⟨rfl, by decide, by omega⟩
    · have ha := hds a List.mem_cons_self
      have hb := hds b (List.mem_cons_of_mem _ List.mem_cons_self)
      have hread : strtolEnd [a, b] = 2 := by
        rw [strtolEnd_digits ha, List.dropWhile_cons_of_pos ha, List.dropWhile_cons_of_pos hb]
        rfl
      have hvalue : radixValue 16 xDigitValue [a, b] 0 = (0 * 16 + xDigitValue a) * 16 + xDigitValue b := rfl
      have hlt := xDigitValue_lt a
      have hlt' := xDigitValue_lt b
      change (a :: b :: '\'' :: rest).drop (strtolEnd [a, b]) = _ ∧ strtolEnd [a, b] ≠ 0 ∧ _
      rw [hread, hvalue]
      exact ⟨rfl, by decide, by omega⟩
  obtain ⟨hdrop, hread, hlt⟩ := hend
  have hch : getCh ('\\' :: 'x' :: (ds ++ '\'' :: rest)) = some (0, '\'' :: rest, []) := by
    change (if ds ++ '\'' :: rest = [] then none else some ((0 : Int),
      (ds ++ '\'' :: rest).drop (strtolEnd ((ds ++ '\'' :: rest).take 2)),
      if strtolEnd ((ds ++ '\'' :: rest).take 2) = 0 then [Msg.illegalHex] else [])) = _
    rw [if_neg (by simp), hdrop, if_neg hread]
  have htext : (Literal.hexEscape ds).text ++ rest = '\'' :: '\\' :: 'x' :: (ds ++ '\'' :: rest) := by
    change '\'' :: '\\' :: 'x' :: (ds ++ ['\''] ++ rest) = _
    rw [List.append_assoc]
    rfl
  have hlex : lexConst ((Literal.hexEscape ds).text ++ rest) = some (.of uint32 0, rest, []) := by
    rw [htext]
    exact lexConst_char (getLiteral_char hch) (by decide)
  have hvalue : (Literal.hexEscape ds).cValue = some (if radixValue 16 xDigitValue ds 0 < 128 then
      radixValue 16 xDigitValue ds 0 else radixValue 16 xDigitValue ds 0 - 256 : Int) := if_pos hlt
  constructor
  · rintro ⟨v, msgs, hlex', hkept⟩
    obtain ⟨rfl, hrest⟩ := Prod.mk.inj (Option.some.inj (hlex.symm.trans hlex'))
    obtain ⟨-, rfl⟩ := Prod.mk.inj hrest
    rcases hkept with ⟨x, hx, -, hval, -⟩ | ⟨-, hne⟩
    · rw [hvalue] at hx
      have hx := Option.some.inj hx
      have hzero : (Val.of uint32 0).value = 0 := rfl
      split at hx <;> omega
    · exact absurd rfl hne
  · intro hzero
    refine ⟨_, _, hlex, Or.inl ⟨0, ?_, inRange_int32.2 (by decide), rfl, rfl⟩⟩
    rw [hvalue, hzero]
    rfl

end

/-! ## All literals -/

theorem kept_iff {l : Literal} {rest : Text} (hwf : l.Wf) (hrest : l.Ends rest) : Kept l rest ↔ l.Read := by
  cases l with
  | dec ds suffix => exact dec_kept_iff hwf hrest
  | hex upper ds suffix => exact hex_kept_iff hwf hrest
  | plain c => exact plain_kept_iff hwf
  | simple e => exact iff_of_true (simple_kept e) trivial
  | octal ds => exact octal_kept_iff hwf
  | hexEscape ds => exact hexEscape_kept_iff hwf

/-- **Exactly which literals keep their value**: numbers with `0x` and with `u` before `l`, plain characters below
128, all simple escapes, octal escapes whose last eight bits are below 128, and the hexadecimal escape of 0. -/
theorem literal_kept_iff {l : Literal} {rest : Text} (hwf : l.Wf) (hrest : l.Ends rest) : Kept l rest ↔ l.Read :=
  kept_iff hwf hrest

/-- `0x7FffULL` before a semicolon. -/
def demoLiteral : Literal := .hex false ['7', 'F', 'f', 'f'] (.ul true ⟨true, true⟩)

theorem demoLiteral_wf : demoLiteral.Wf := by
  refine ⟨List.cons_ne_nil _ _, fun c hc => ?_⟩
  simp only [List.mem_cons, List.not_mem_nil, or_false] at hc
  rcases hc with rfl | rfl | rfl | rfl <;> rfl

theorem demoLiteral_ends : demoLiteral.Ends [';'] := by
  intro c hc
  obtain rfl := Option.some.inj hc
  exact ⟨rfl, by decide⟩

theorem literal_kept_iff_demo : Kept demoLiteral [';'] ↔ demoLiteral.Read :=
  literal_kept_iff demoLiteral_wf demoLiteral_ends

/-- **`'\x41'` is not `'A'`**: the value of a hexadecimal escape is not stored. -/
theorem hexEscape_lost : ¬∀ (l : Literal) (rest : Text), l.Wf → l.Ends rest → Kept l rest := by
  intro hall
  have hwf : (Literal.hexEscape ['4', '1']).Wf := by
    refine ⟨by decide, by decide, fun c hc => ?_⟩
    simp only [List.mem_cons, List.not_mem_nil, or_false] at hc
    rcases hc with rfl | rfl <;> rfl
  have hread : Literal.Read (.hexEscape ['4', '1']) := (kept_iff hwf trivial).1 (hall _ [] hwf trivial)
  have hvalue : radixValue 16 xDigitValue ['4', '1'] 0 = 65 := rfl
  exact absurd (hvalue.symm.trans hread) (by decide)

end OpenHT.Htfe.Literals
