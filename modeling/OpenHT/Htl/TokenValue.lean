import OpenHT.Htl.CLex

/-!
# The values of number tokens

`GetTokenValue` of the preprocessor and of `CDefineTable` has one body: it adds up the digits of the token in
an `unsigned int` and, before each digit, gives up if the number so far is not below `0xffffffff / radix`. The
guard keeps the sum from wrapping. It also turns away the largest numbers that fit: their last digit comes
after a number that is equal to the quotient.

* `Radix`, `NumToken`: a number token, the digits all of its radix.
* `ceiling`: the first number that the guard turns away.
* `reads_exactly_iff`: a token is read as C reads it unless its number lies between `ceiling` and 2^32.
-/

namespace OpenHT.Htl

/-- The radixes that `GetNextToken` knows. -/
inductive Radix
  | decimal
  | hexadecimal
deriving DecidableEq, Repr

namespace Radix

/-- What a digit counts more than the digit after it. -/
def base : Radix → ℕ
  | decimal => 10
  | hexadecimal => 16

def isDigit : Radix → Char → Bool
  | decimal => Char.isDigit
  | hexadecimal => isXDigit

def value : Radix → Char → ℕ
  | decimal => digitValue
  | hexadecimal => xDigitValue

/-- The first number that the guard turns away. -/
def ceiling (r : Radix) : ℕ := 0xffffffff / r.base * r.base

theorem ceiling_decimal : ceiling decimal = 4294967290 := rfl

theorem ceiling_hexadecimal : ceiling hexadecimal = 0xfffffff0 := rfl

theorem ceiling_lt (r : Radix) : r.ceiling < 2 ^ 32 := by
  cases r <;> decide

theorem base_pos (r : Radix) : 1 ≤ r.base := by
  cases r <;> decide

/-- `CDefineTable` and `CPreProcess` name the kinds `eTkNumInt` and `tk_num_int`, and so on. -/
def kind : Radix → EToken
  | decimal => .numInt
  | hexadecimal => .numHex

/-- `m_tkString` for some digits. -/
def text : Radix → Text → Text
  | decimal, ds => ds
  | hexadecimal, ds => '0' :: 'x' :: ds

end Radix

/-- The digits of a number token. -/
structure NumToken where
  radix : Radix
  digits : Text
  all_digits : digits.all radix.isDigit = true

namespace NumToken

/-- The number that the token stands for. -/
def number (t : NumToken) : ℕ := radixValue t.radix.base t.radix.value t.digits 0

/-- A lexer that has just read the token. -/
def lexer (t : NumToken) (lx : Lexer) : Lexer :=
  { lx with tk := t.radix.kind, tkString := t.radix.text t.digits }

end NumToken

/-! ## Digits -/

theorem digitValue_lt {c : Char} (h : c.isDigit = true) : digitValue c < 10 := by
  have h9 : '9'.val.toNat = 57 := rfl
  simp only [Char.isDigit, Bool.and_eq_true, decide_eq_true_eq, UInt32.le_iff_toNat_le, ge_iff_le] at h
  have hc : c.toNat = c.val.toNat := rfl
  have h0 : '0'.toNat = 48 := rfl
  unfold digitValue
  omega

theorem hexDigit_lt {c : Char} {v : ℕ} (h : hexDigit c = some v) : v < 16 := by
  have hc : c.toNat = c.val.toNat := rfl
  have hbounds : '0'.toNat = 48 ∧ 'A'.toNat = 65 ∧ 'a'.toNat = 97 := ⟨rfl, rfl, rfl⟩
  have htop : '9'.val.toNat = 57 ∧ 'F'.val.toNat = 70 ∧ 'f'.val.toNat = 102 := ⟨rfl, rfl, rfl⟩
  unfold hexDigit at h
  simp only [Char.le_def, UInt32.le_iff_toNat_le] at h
  split at h
  · obtain rfl := Option.some.inj h
    omega
  · split at h
    · obtain rfl := Option.some.inj h
      omega
    · split at h
      · obtain rfl := Option.some.inj h
        omega
      · cases h

theorem hexDigit_eq {c : Char} (h : isXDigit c = true) : hexDigit c = some (xDigitValue c) := by
  obtain ⟨v, hv⟩ := hexDigit_of_isXDigit h
  unfold xDigitValue
  rw [hv, Option.getD_some]

namespace Radix

variable {r : Radix} {c : Char}

theorem value_lt (h : r.isDigit c = true) : r.value c < r.base := by
  cases r with
  | decimal => exact digitValue_lt h
  | hexadecimal => exact hexDigit_lt (hexDigit_eq h)

/-- **The guard** lets a digit through just if the number with it is below the ceiling. -/
theorem guard_iff (v : ℕ) (h : r.isDigit c = true) :
    0xffffffff / r.base ≤ v ↔ r.ceiling ≤ v * r.base + r.value c := by
  have hlt := value_lt h
  cases r with
  | decimal =>
    simp only [base, ceiling] at hlt ⊢
    omega
  | hexadecimal =>
    simp only [base, ceiling] at hlt ⊢
    omega

end Radix

/-! ## The loop -/

/-- **The loops of `GetTokenValue`** find a number that is below the ceiling. -/
theorem numberValue_digits {r : Radix} {digit : Char → Option ℕ} {ds : Text}
    (hdigit : ∀ c ∈ ds, digit c = some (r.value c)) (hds : ds.all r.isDigit = true) {v : ℕ} (hv : v < r.ceiling) :
    numberValue r.base digit ds v =
      if radixValue r.base r.value ds v < r.ceiling then some (radixValue r.base r.value ds v) else none := by
  induction ds generalizing v with
  | nil => exact (if_pos hv).symm
  | cons c ds ih =>
    rw [List.all_cons, Bool.and_eq_true] at hds
    have hguard := Radix.guard_iff v hds.1
    have hstep : radixValue r.base r.value (c :: ds) v =
        radixValue r.base r.value ds (v * r.base + r.value c) := rfl
    rw [numberValue, hdigit c List.mem_cons_self, hstep]
    by_cases hstop : 0xffffffff / r.base ≤ v
    · -- the number only grows from here
      have hgrow := le_radixValue r.base_pos r.value ds (v * r.base + r.value c)
      have hge := hguard.1 hstop
      have hnot : ¬radixValue r.base r.value ds (v * r.base + r.value c) < r.ceiling := by omega
      rw [if_pos hstop, if_neg hnot]
    · have hlt : v * r.base + r.value c < r.ceiling := by
        have hnot := mt hguard.2 hstop
        omega
      rw [if_neg hstop]
      exact ih (fun c hc => hdigit c (List.mem_cons_of_mem _ hc)) hds.2 hlt

namespace NumToken

variable (t : NumToken) (lx : Lexer)

/-- **`GetTokenValue` on a number token.** -/
theorem getTokenValue_eq : getTokenValue (t.lexer lx) =
    if t.number < t.radix.ceiling then (toInt t.number, t.lexer lx)
    else (0, (t.lexer lx).parseMsg "integer too large") := by
  have hzero : 0 < t.radix.ceiling := by cases t.radix <;> decide
  obtain ⟨r, ds, hds⟩ := t
  have hloop : ∀ digit : Char → Option ℕ, (∀ c ∈ ds, digit c = some (r.value c)) →
      numberValue r.base digit ds 0 = if radixValue r.base r.value ds 0 < r.ceiling then
        some (radixValue r.base r.value ds 0) else none :=
    fun digit hdigit => numberValue_digits hdigit hds hzero
  have hvalue : (if (NumToken.lexer ⟨r, ds, hds⟩ lx).tk = .numInt
      then numberValue 10 (fun c => some (c.toNat - '0'.toNat)) (NumToken.lexer ⟨r, ds, hds⟩ lx).tkString 0
      else numberValue 16 hexDigit (NumToken.lexer ⟨r, ds, hds⟩ lx).tkString 0) =
        if radixValue r.base r.value ds 0 < r.ceiling then some (radixValue r.base r.value ds 0) else none := by
    cases r with
    | decimal => exact hloop _ (fun c _ => rfl)
    | hexadecimal =>
      have hskip : numberValue 16 hexDigit ('0' :: 'x' :: ds) 0 = numberValue 16 hexDigit ds 0 := rfl
      exact hskip.trans (hloop hexDigit fun c hc => hexDigit_eq (List.all_eq_true.1 hds c hc))
  change getTokenValue (NumToken.lexer ⟨r, ds, hds⟩ lx) =
    if radixValue r.base r.value ds 0 < r.ceiling then
      (toInt (radixValue r.base r.value ds 0), NumToken.lexer ⟨r, ds, hds⟩ lx)
    else (0, (NumToken.lexer ⟨r, ds, hds⟩ lx).parseMsg "integer too large")
  unfold getTokenValue
  simp only [hvalue]
  by_cases hlow : radixValue r.base r.value ds 0 < r.ceiling
  · rw [if_pos hlow, if_pos hlow]
  · rw [if_neg hlow, if_neg hlow]

/-- **Reading exactly**: a number that fits in 32 bits is returned modulo 2^32, without a message; for another
one there is an error, and 0. -/
def ReadsExactly : Prop :=
  if t.number < 2 ^ 32 then
    (getTokenValue (t.lexer lx)).1 = toInt (t.number % 2 ^ 32) ∧ (getTokenValue (t.lexer lx)).2 = t.lexer lx
  else getTokenValue (t.lexer lx) = (0, (t.lexer lx).parseMsg "integer too large")

/-- **Exactly the numbers between the ceiling and 2^32** are not read as they should be: 4294967290 to
4294967295 in decimal, 0xfffffff0 to 0xffffffff in hexadecimal. -/
theorem reads_exactly_iff :
    t.ReadsExactly lx ↔ ¬(t.radix.ceiling ≤ t.number ∧ t.number < 2 ^ 32) := by
  have hceil := t.radix.ceiling_lt
  have hmsg : (t.lexer lx).parseMsg "integer too large" ≠ t.lexer lx := by
    intro h
    have hlen := congrArg (fun lx : Lexer => lx.msgs.length) h
    simp only [Lexer.parseMsg, List.length_cons] at hlen
    omega
  unfold ReadsExactly
  rw [getTokenValue_eq]
  by_cases hlow : t.number < t.radix.ceiling
  · have hfits : t.number < 2 ^ 32 := by omega
    rw [if_pos hfits, if_pos hlow, Nat.mod_eq_of_lt hfits]
    exact iff_of_true ⟨rfl, rfl⟩ (fun h => by omega)
  · rw [if_neg hlow]
    by_cases hfits : t.number < 2 ^ 32
    · rw [if_pos hfits]
      exact iff_of_false (fun h => hmsg h.2) (fun h => h ⟨by omega, hfits⟩)
    · rw [if_neg hfits]
      exact iff_of_true rfl (fun h => hfits h.2)

/-- `0xffffffff` -/
def allOnes : NumToken := ⟨.hexadecimal, ['f', 'f', 'f', 'f', 'f', 'f', 'f', 'f'], rfl⟩

/-- The largest `unsigned int` is an error. -/
theorem allOnes_too_large : ¬allOnes.ReadsExactly Lexer.initial := by
  have hread : getTokenValue (allOnes.lexer Lexer.initial) =
    (0, (allOnes.lexer Lexer.initial).parseMsg "integer too large") := by decide
  have hfits : allOnes.number < 2 ^ 32 := by decide
  unfold ReadsExactly
  rw [if_pos hfits, hread]
  intro h
  exact absurd h.1 (by decide)

end NumToken

/-! ## `GetNextToken` -/

/-- **The number tokens that `GetNextToken` reads** are those of the theorem. -/
theorem wordToken_literal (d : Dialect) {c : Char} (hc : c.isDigit = true) (cs : Text) (lx : Lexer) :
    ∃ (t : NumToken) (lx' : Lexer), (wordToken d c cs lx).2.2 = t.lexer lx' ∧
      (wordToken d c cs lx).1 = t.radix.kind := by
  have htoken : ∀ (r : Radix) (ds rest : Text) (s : Bool), ds.all r.isDigit = true →
      ∃ (t : NumToken) (lx' : Lexer), (numberToken d r.kind (r.text ds) rest s lx).2.2 = t.lexer lx' ∧
        (numberToken d r.kind (r.text ds) rest s lx).1 = t.radix.kind := by
    intro r ds rest s hds
    cases d with
    | defineTable => exact ⟨⟨r, ds, hds⟩, { lx with isSigned := (skipTypeSuffix rest s).2 }, rfl, rfl⟩
    | preProcess => exact ⟨⟨r, ds, hds⟩, lx, rfl, rfl⟩
  unfold wordToken
  rw [if_neg (not_alpha_of_isDigit hc), if_pos hc]
  split
  · exact htoken .hexadecimal (cs.tail.takeWhile isXDigit) _ false List.all_takeWhile
  · exact htoken .decimal ((c :: cs).takeWhile Char.isDigit) _ true List.all_takeWhile

end OpenHT.Htl
