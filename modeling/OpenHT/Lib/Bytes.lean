import Mathlib.Data.Nat.Digits.Defs

/-!
# Little-endian bytes and bit fields

* `leBytes k n`: the low `k` bytes of `n`; `ofDigits_leBytes` reads them back.
* `fields`, `unfields`: a list of bit fields packed from the least significant bit up.
-/

namespace OpenHT.Bytes

/-- The low `k` bytes of `n`, least significant first. -/
def leBytes : ℕ → ℕ → List ℕ
  | 0, _ => []
  | k + 1, n => n % 256 :: leBytes k (n / 256)

@[simp] theorem length_leBytes (k n : ℕ) : (leBytes k n).length = k := by
  induction k generalizing n with
  | zero => rfl
  | succ k ih => rw [leBytes, List.length_cons, ih]

/-- **Bytes read back.** -/
theorem ofDigits_leBytes (k n : ℕ) : Nat.ofDigits 256 (leBytes k n) = n % 256 ^ k := by
  induction k generalizing n with
  | zero => simp [leBytes, Nat.mod_one]
  | succ k ih =>
    rw [leBytes, Nat.ofDigits_cons, ih, Nat.pow_succ', Nat.mod_mul]

theorem ofDigits_leBytes_of_lt {k n : ℕ} (h : n < 256 ^ k) : Nat.ofDigits 256 (leBytes k n) = n := by
  rw [ofDigits_leBytes, Nat.mod_eq_of_lt h]

/-- The fields `(width, value)`, the first in the least significant bits; `rest` fills what is above. -/
def fields : List (ℕ × ℕ) → ℕ → ℕ
  | [], rest => rest
  | (w, v) :: fs, rest => v % 2 ^ w + 2 ^ w * fields fs rest

/-- The values of fields of the given widths. -/
def unfields : List ℕ → ℕ → List ℕ
  | [], _ => []
  | w :: ws, n => n % 2 ^ w :: unfields ws (n / 2 ^ w)

/-- **Fields read back**, cut to their widths. -/
theorem unfields_fields (fs : List (ℕ × ℕ)) (rest : ℕ) :
    unfields (fs.map Prod.fst) (fields fs rest) = fs.map fun f => f.2 % 2 ^ f.1 := by
  induction fs with
  | nil => rfl
  | cons f fs ih =>
    obtain ⟨w, v⟩ := f
    have hpos : 0 < 2 ^ w := Nat.two_pow_pos w
    simp only [List.map_cons, fields, unfields]
    rw [Nat.add_mul_mod_self_left, Nat.mod_mod, Nat.add_mul_div_left _ _ hpos,
      Nat.div_eq_of_lt (Nat.mod_lt v hpos), Nat.zero_add, ih]

theorem fields_lt {fs : List (ℕ × ℕ)} {rest m : ℕ} (h : rest < 2 ^ m) :
    fields fs rest < 2 ^ ((fs.map Prod.fst).sum + m) := by
  induction fs with
  | nil => simpa [fields] using h
  | cons f fs ih =>
    obtain ⟨w, v⟩ := f
    have hpos : 0 < 2 ^ w := Nat.two_pow_pos w
    have hv := Nat.mod_lt v hpos
    simp only [List.map_cons, List.sum_cons, fields]
    calc v % 2 ^ w + 2 ^ w * fields fs rest
        < 2 ^ w + 2 ^ w * fields fs rest := by omega
      _ = 2 ^ w * (fields fs rest + 1) := by ring
      _ ≤ 2 ^ w * 2 ^ ((fs.map Prod.fst).sum + m) := Nat.mul_le_mul_left _ ih
      _ = 2 ^ (w + (fs.map Prod.fst).sum + m) := by rw [← Nat.pow_add, Nat.add_assoc]

end OpenHT.Bytes
