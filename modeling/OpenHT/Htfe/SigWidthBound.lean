import OpenHT.Htfe.SigWidth

/-!
# Values are below their significant width

* `under_factor`, `under_modulus`, `under_quotient`: what a constant operand does to a width.
* `rule_under`, `question_under`, `shiftLeft_under`, `shiftRight_under`: one step of `CheckWidthRules`.
* `Narrow`: the widths stay in the range of an `int`.
* `below_of_fits`: where the rules hold, every value of a known width is below two to the power of its significant width.
-/

namespace OpenHT.Htfe.SigWidth

open CInt CInt.IntType

/-! ## Widths of numbers -/

theorem Under.mono {v : ℕ} {w w' : Int} (h : Under v w) (hw : w ≤ w') : Under v w' :=
  Nat.lt_of_lt_of_le h (Nat.pow_le_pow_right Nat.two_pos (Int.toNat_le_toNat hw))

theorem Under.of_le {v v' : ℕ} {w : Int} (h : Under v w) (hv : v' ≤ v) : Under v' w := Nat.lt_of_le_of_lt hv h

theorem under_zero (w : Int) : Under 0 w := Nat.pow_pos Nat.two_pos

theorem Under.add {v v' : ℕ} {w : Int} (h : Under v w) (h' : Under v' w) (hw : 0 ≤ w) : Under (v + v') (w + 1) := by
  have hnat : (w + 1).toNat = w.toNat + 1 := by omega
  have hpow : Nat.pow 2 (w.toNat + 1) = Nat.pow 2 w.toNat * 2 := rfl
  unfold Under at h h' ⊢
  rw [hnat, hpow]
  omega

theorem Under.mul {v v' : ℕ} {w w' : Int} (h : Under v w) (h' : Under v' w') (hw : 0 ≤ w) (hw' : 0 ≤ w') :
    Under (v * v') (w + w') := by
  have hnat : (w + w').toNat = w.toNat + w'.toNat := by omega
  have hpow : Nat.pow 2 (w.toNat + w'.toNat) = Nat.pow 2 w.toNat * Nat.pow 2 w'.toNat := Nat.pow_add 2 _ _
  unfold Under at h h' ⊢
  rw [hnat, hpow]
  exact Nat.mul_lt_mul_of_lt_of_lt h h'

theorem Under.or {v v' : ℕ} {w : Int} (h : Under v w) (h' : Under v' w) : Under (v ||| v') w := Nat.or_lt_two_pow h h'

theorem Under.xor {v v' : ℕ} {w : Int} (h : Under v w) (h' : Under v' w) : Under (v ^^^ v') w := Nat.xor_lt_two_pow h h'

/-- A shift to the right takes bits away. -/
theorem Under.shiftRight {v k : ℕ} {w : Int} (h : Under v w) (hw : 0 ≤ w) : Under (v / Nat.pow 2 k) (w - k) := by
  have hpos : 0 < Nat.pow 2 k := Nat.pow_pos Nat.two_pos
  unfold Under at h ⊢
  by_cases hle : (k : Int) ≤ w
  · have hsum : w.toNat = (w - k).toNat + k := by omega
    rw [hsum] at h
    have hpow : Nat.pow 2 ((w - k).toNat + k) = Nat.pow 2 (w - k).toNat * Nat.pow 2 k := Nat.pow_add 2 _ _
    rw [hpow] at h
    exact (Nat.div_lt_iff_lt_mul hpos).2 h
  · have hmono : Nat.pow 2 w.toNat ≤ Nat.pow 2 k := Nat.pow_le_pow_right Nat.two_pos (by omega)
    rw [Nat.div_eq_of_lt (Nat.lt_of_lt_of_le h hmono)]
    exact Nat.pow_pos Nat.two_pos

/-! ## Constants -/

theorem UConst.value_eq (c : UConst) : c.val.value = (c.toNat : Int) := by
  have hrange := c.val.ok
  have hunsigned := c.unsigned
  unfold toNat
  cases htype : c.val.type with
  | uint32 =>
    rw [htype, inRange_uint32] at hrange
    omega
  | uint64 =>
    rw [htype, inRange_uint64] at hrange
    omega
  | int32 =>
    rw [htype] at hunsigned
    cases hunsigned
  | int64 =>
    rw [htype] at hunsigned
    cases hunsigned

theorem UConst.lt (c : UConst) : c.toNat < 18446744073709551616 := by
  have hrange := c.val.ok
  have hvalue := c.value_eq
  have hunsigned := c.unsigned
  cases htype : c.val.type with
  | uint32 =>
    rw [htype, inRange_uint32] at hrange
    omega
  | uint64 =>
    rw [htype, inRange_uint64] at hrange
    omega
  | int32 =>
    rw [htype] at hunsigned
    cases hunsigned
  | int64 =>
    rw [htype] at hunsigned
    cases hunsigned

theorem minWidth_eq {c : CConstValue} (hc : c.type.isSigned = false) (h0 : 0 ≤ c.value) :
    minWidth c = max 1 c.value.toNat.size := by
  have hneg : ¬ c.value < 0 := by omega
  rw [minWidth, CConstValue.getMinWidth_eq, hc, CConstValue.magnitude, if_neg hneg]
  rfl

theorem UConst.minWidth_eq (c : UConst) : minWidth c.val = max 1 c.toNat.size :=
  SigWidth.minWidth_eq c.unsigned (by rw [c.value_eq]; omega)

theorem UConst.minWidth_pos (c : UConst) : 1 ≤ minWidth c.val := by
  rw [c.minWidth_eq]
  exact Nat.le_max_left ..

theorem UConst.under (c : UConst) : Under c.toNat (minWidth c.val) := by
  have hsize : c.toNat < Nat.pow 2 c.toNat.size := Nat.lt_size_self _
  have hle : c.toNat.size ≤ (minWidth c.val : Int).toNat := by
    rw [c.minWidth_eq]
    omega
  exact Nat.lt_of_lt_of_le hsize (Nat.pow_le_pow_right Nat.two_pos hle)

/-- **The test for a power of two**, which zero passes. -/
theorem isPowerOfTwo_iff (v : BitVec 64) : isPowerOfTwo v = true ↔ v.toNat = 0 ∨ v.toNat.isPowerOfTwo := by
  rw [isPowerOfTwo, decide_eq_true_iff]
  by_cases hzero : v.toNat = 0
  · have hv : v = 0 := BitVec.eq_of_toNat_eq hzero
    rw [hv]
    exact iff_of_true (by decide) (.inl rfl)
  · have hsub : (v - 1).toNat = v.toNat - 1 := by
      have hlt := v.isLt
      rw [BitVec.toNat_sub]
      have hone : (1 : BitVec 64).toNat = 1 := rfl
      rw [hone]
      omega
    rw [← Nat.and_sub_one_eq_zero_iff_isPowerOfTwo hzero, Nat.and_comm, ← hsub, ← BitVec.toNat_and]
    constructor
    · intro h
      rw [h]
      exact .inr rfl
    · intro h
      exact BitVec.eq_of_toNat_eq (h.resolve_left hzero)

theorem sint64_toNat (c : UConst) : (sint64 c).toNat = c.toNat := by
  rw [sint64, BitVec.toNat_ofNat]
  exact Nat.mod_eq_of_lt c.lt

/-- A power of two has one bit more than its exponent. -/
theorem minWidth_of_isPowerOfTwo {c : UConst} (h : c.toNat.isPowerOfTwo) :
    ∃ j : ℕ, c.toNat = Nat.pow 2 j ∧ minWidth c.val = j + 1 := by
  obtain ⟨j, hj⟩ := h
  refine ⟨j, hj, ?_⟩
  rw [c.minWidth_eq, hj, Nat.size_pow]
  omega

/-- **A constant factor** adds its width. -/
theorem under_factor {c : UConst} {v : ℕ} {w : Int} (hc : ¬ NegatedPower c) (hv : Under v w) (hw : 0 ≤ w) :
    0 ≤ factorWidth c ∧ Under (c.toNat * v) (w + factorWidth c) := by
  have hpos := c.minWidth_pos
  unfold factorWidth
  dsimp only
  cases hpow : isPowerOfTwo (if (sint64 c).msb then -sint64 c else sint64 c) with
  | false =>
    rw [if_neg Bool.false_ne_true]
    refine ⟨by omega, ?_⟩
    have hmul := c.under.mul hv (by omega) hw
    rwa [Int.add_comm, ← Int.sub_zero (minWidth c.val : Int)] at hmul
  | true =>
    rw [if_pos rfl]
    refine ⟨by omega, ?_⟩
    -- a factor that passes the test is zero or a power of two
    have hcase : c.toNat = 0 ∨ c.toNat.isPowerOfTwo := by
      have hlt := c.lt
      rw [isPowerOfTwo_iff] at hpow
      cases hmsb : (sint64 c).msb with
      | false =>
        rwa [hmsb, if_neg Bool.false_ne_true, sint64_toNat] at hpow
      | true =>
        have hhigh : 9223372036854775808 ≤ c.toNat := by
          have hle := BitVec.msb_eq_true_iff_two_mul_ge.1 hmsb
          rw [sint64_toNat] at hle
          omega
        rw [hmsb, if_pos rfl, BitVec.toNat_neg, sint64_toNat] at hpow
        have hmod : (2 ^ 64 - c.toNat) % 2 ^ 64 = 18446744073709551616 - c.toNat := by omega
        rw [hmod] at hpow
        rcases hpow with hpow | hpow
        · omega
        · by_cases heq : c.toNat = 9223372036854775808
          · exact .inr ⟨63, heq⟩
          · exact absurd ⟨by omega, hpow⟩ hc
    rcases hcase with hzero | hpower
    · rw [hzero, Nat.zero_mul]
      exact under_zero _
    · obtain ⟨j, hj, hwidth⟩ := minWidth_of_isPowerOfTwo hpower
      rw [hj, hwidth]
      unfold Under at hv ⊢
      have hnat : (w + (((j + 1 : ℕ) : Int) - 1)).toNat = j + w.toNat := by omega
      have hadd : Nat.pow 2 (j + w.toNat) = Nat.pow 2 j * Nat.pow 2 w.toNat := Nat.pow_add 2 _ _
      rw [hnat, hadd]
      exact Nat.mul_lt_mul_of_pos_left hv (Nat.pow_pos Nat.two_pos)

/-- **A remainder** is below its modulus. -/
theorem under_modulus {c : UConst} (v : ℕ) (hc : c.toNat ≠ 0) :
    0 ≤ modulusWidth c ∧ Under (v % c.toNat) (modulusWidth c) := by
  have hpos := c.minWidth_pos
  have hlt : v % c.toNat < c.toNat := Nat.mod_lt _ (Nat.pos_of_ne_zero hc)
  unfold modulusWidth
  cases hpow : isPowerOfTwo (sint64 c) with
  | false =>
    rw [if_neg Bool.false_ne_true, Int.sub_zero]
    exact ⟨by omega, c.under.of_le (Nat.le_of_lt hlt)⟩
  | true =>
    rw [if_pos rfl]
    rw [isPowerOfTwo_iff, sint64_toNat] at hpow
    obtain ⟨j, hj, hwidth⟩ := minWidth_of_isPowerOfTwo (hpow.resolve_left hc)
    rw [hwidth]
    refine ⟨by omega, ?_⟩
    have hnat : (((j + 1 : ℕ) : Int) - 1).toNat = j := by omega
    unfold Under
    rw [hnat]
    exact hj ▸ hlt

/-- **A quotient** is no larger than that of the largest dividend. -/
theorem under_quotient {c : UConst} {v : ℕ} {w : Int} (hv : Under v w) (hw : 0 ≤ w) (h64 : w < 64) :
    1 ≤ quotientWidth w c ∧ Under (v / c.toNat) (quotientWidth w c) := by
  have hmod : w.toNat % 64 = w.toNat := Nat.mod_eq_of_lt (by omega)
  have hpow : Nat.pow 2 w.toNat ≤ Nat.pow 2 63 := Nat.pow_le_pow_right Nat.two_pos (by omega)
  have h63 : Nat.pow 2 63 = 9223372036854775808 := rfl
  unfold quotientWidth
  rw [hmod]
  have hbound : (Nat.pow 2 w.toNat - 1) / c.toNat < 18446744073709551616 := by
    have hle := Nat.div_le_self (Nat.pow 2 w.toNat - 1) c.toNat
    omega
  have hle : v / c.toNat ≤ (Nat.pow 2 w.toNat - 1) / c.toNat := by
    apply Nat.div_le_div_right
    unfold Under at hv
    omega
  generalize (Nat.pow 2 w.toNat - 1) / c.toNat = q at hbound hle
  have hrange : uint64.InRange (q : Int) := by
    rw [inRange_uint64]
    omega
  have hvalue := Val.of_value hrange
  have hwidth : minWidth (.of uint64 (q : Int)) = max 1 q.size := by
    rw [minWidth_eq rfl (by rw [hvalue]; omega), hvalue, Int.toNat_natCast]
  rw [hwidth]
  refine ⟨by omega, ?_⟩
  have hsize : q < Nat.pow 2 q.size := Nat.lt_size_self q
  refine Nat.lt_of_le_of_lt hle (Nat.lt_of_lt_of_le hsize (Nat.pow_le_pow_right Nat.two_pos ?_))
  omega

/-! ## The rules -/

/-- A node of a known width, and its value. -/
structure Valued (n : Node) (v : ℕ) : Prop where
  known : 1 ≤ n.getMinWidth
  under : Under v n.getSigWidth
  const : ∀ c, n.constValue = some c → v = c.toNat ∧ n.getMinWidth = minWidth c.val ∧ n.getSigWidth = minWidth c.val

theorem Valued.sig_pos {n : Node} {v : ℕ} (h : Valued n v) : 1 ≤ n.getSigWidth := by
  have hknown := h.known
  unfold Node.getSigWidth
  by_cases hs : n.sigWidth > 0
  · rw [if_pos hs]
    omega
  · rw [if_neg hs]
    exact hknown

/-- A significant width that is stored. -/
theorem under_stored {n : Node} {v : ℕ} (w : Int) (hn : n.sigWidth = w) (hw : 1 ≤ w) (hv : Under v w) :
    Under v n.getSigWidth := by
  have hpos : n.sigWidth > 0 := by omega
  rw [Node.getSigWidth, if_pos hpos, hn]
  exact hv

/-- One that is not stored, for a node without a constant. -/
theorem under_unstored {n : Node} {v : ℕ} (w : Int) (hs : n.sigWidth = 0) (hn : n.minWidth = w) (hw : 1 ≤ w)
    (hv : Under v w) : Under v n.getSigWidth := by
  have hzero : ¬ n.sigWidth > 0 := by omega
  have hpos : n.minWidth > 0 := by omega
  rw [Node.getSigWidth, if_neg hzero, Node.getMinWidth, if_pos hpos, hn]
  exact hv

theorem int_eq {x : Int} (hlo : -2147483648 ≤ x) (hhi : x < 2147483648) : int x = x :=
  wrap_of_inRange (inRange_int32.2 ⟨hlo, hhi⟩)

variable {node a b : Node} {v v' : ℕ}

theorem plus_under (ha : Valued a v) (hb : Valued b v') (hfits : BinOp.Fits .plus a b) :
    Under (v + v') (BinOp.plusRule node a b).getSigWidth := by
  have hsa := ha.sig_pos
  have hsb := hb.sig_pos
  have hsum : max a.getSigWidth b.getSigWidth + 1 < 2147483648 := hfits
  refine under_stored (max a.getSigWidth b.getSigWidth + 1) (int_eq (by omega) hsum) (by omega) ?_
  exact (ha.under.mono (Int.le_max_left ..)).add (hb.under.mono (Int.le_max_right ..)) (by omega)

theorem asterisk_under (ha : Valued a v) (hb : Valued b v') (hfits : BinOp.asteriskFits a b) :
    Under (v * v') (BinOp.asteriskRule node a b).getSigWidth := by
  have hsa := ha.sig_pos
  have hsb := hb.sig_pos
  unfold BinOp.asteriskFits at hfits
  unfold BinOp.asteriskRule
  cases hca : a.constValue with
  | some c =>
    rw [hca] at hfits
    obtain ⟨hneg, hsum⟩ := hfits
    obtain ⟨h0, hmul⟩ := under_factor hneg hb.under (by omega)
    rw [(ha.const c hca).1]
    exact under_stored (b.getSigWidth + factorWidth c) (int_eq (by omega) hsum) (by omega) hmul
  | none =>
    rw [hca] at hfits
    cases hcb : b.constValue with
    | some c =>
      rw [hcb] at hfits
      obtain ⟨hneg, hsum⟩ := hfits
      obtain ⟨h0, hmul⟩ := under_factor hneg ha.under (by omega)
      rw [(hb.const c hcb).1, Nat.mul_comm]
      exact under_stored (a.getSigWidth + factorWidth c) (int_eq (by omega) hsum) (by omega) hmul
    | none =>
      rw [hcb] at hfits
      have hsum : a.getSigWidth + b.getSigWidth < 2147483648 := hfits
      have hmul := ha.under.mul hb.under (by omega) (by omega)
      exact under_stored (a.getSigWidth + b.getSigWidth) (int_eq (by omega) hsum) (by omega) hmul

theorem slash_under (ha : Valued a v) (hb : Valued b v') (hfits : BinOp.Fits .slash a b) (hv' : v' ≠ 0) :
    Under (v / v') (BinOp.slashRule node a b).getSigWidth := by
  have hsa := ha.sig_pos
  unfold BinOp.slashRule
  cases hcb : b.constValue with
  | some c =>
    have h64 : a.getSigWidth < 64 := hfits (by rw [hcb]; rfl)
    obtain rfl := (hb.const c hcb).1
    obtain ⟨hpos, hquot⟩ := under_quotient (c := c) ha.under (by omega) h64
    dsimp only
    rw [if_neg hv']
    have hsign : quotientWidth a.getSigWidth c ≤ quotientWidth a.getSigWidth c + if a.bIsSigned then 1 else 0 := by
      split <;> omega
    exact under_stored (quotientWidth a.getSigWidth c + if a.bIsSigned then 1 else 0) rfl (by omega) (hquot.mono hsign)
  | none => exact under_stored a.getSigWidth rfl hsa (ha.under.of_le (Nat.div_le_self v v'))

theorem under_min {w w' : Int} {x : ℕ} (h : Under x w) (h' : Under x w') : Under x (min w w') := by
  rcases Int.le_total w w' with hle | hle
  · rwa [Int.min_eq_left hle]
  · rwa [Int.min_eq_right hle]

theorem percent_under (ha : Valued a v) (hb : Valued b v') (hv' : v' ≠ 0) :
    Under (v % v') (BinOp.percentRule node a b).getSigWidth := by
  have hsa := ha.sig_pos
  have hsb := hb.sig_pos
  have hleft : Under (v % v') a.getSigWidth := ha.under.of_le (Nat.mod_le v v')
  unfold BinOp.percentRule
  cases hcb : b.constValue with
  | some c =>
    obtain rfl := (hb.const c hcb).1
    obtain ⟨h0, hmod⟩ := under_modulus v hv'
    by_cases hpos : 1 ≤ modulusWidth c
    · exact under_stored (min a.getSigWidth (modulusWidth c)) rfl (by omega) (under_min hleft hmod)
    · -- a remainder of one, which is zero
      have hzero : modulusWidth c = 0 := by omega
      have hval : v % c.toNat = 0 := by
        rw [hzero] at hmod
        exact Nat.lt_one_iff.1 hmod
      rw [hval]
      exact under_zero _
  | none =>
    have hright : Under (v % v') b.getSigWidth :=
      hb.under.of_le (Nat.le_of_lt (Nat.mod_lt v (Nat.pos_of_ne_zero hv')))
    exact under_stored (min a.getSigWidth b.getSigWidth) rfl (by omega) (under_min hleft hright)

theorem mask_under (ha : Valued a v) (hb : Valued b v') : Under (v &&& v') (BinOp.maskRule node a b).getSigWidth := by
  have hsa := ha.sig_pos
  have hsb := hb.sig_pos
  have hright : Under (v &&& v') b.getSigWidth := hb.under.of_le Nat.and_le_right
  have hleft : Under (v &&& v') a.getSigWidth := ha.under.of_le Nat.and_le_left
  unfold BinOp.maskRule
  cases hca : a.constValue with
  | some c =>
    obtain ⟨-, -, hsig⟩ := ha.const c hca
    rw [hsig] at hsa hleft
    dsimp only
    cases (sint64 c).msb with
    | true =>
      rw [if_pos rfl]
      exact under_stored b.getSigWidth rfl hsb hright
    | false =>
      rw [if_neg Bool.false_ne_true]
      exact under_stored (min (minWidth c.val) b.getSigWidth) rfl (by omega) (under_min hleft hright)
  | none => exact under_stored (min a.getSigWidth b.getSigWidth) rfl (by omega) (under_min hleft hright)

theorem and_under (hnode : node.sigWidth = 0) (ha : Valued a v) (hb : Valued b v') :
    Under (v &&& v') (BinOp.andRule node a b).getSigWidth := by
  have hsa := ha.sig_pos
  have hsb := hb.sig_pos
  have hboth : Under (v &&& v') (min a.getSigWidth b.getSigWidth) :=
    under_min (ha.under.of_le Nat.and_le_left) (hb.under.of_le Nat.and_le_right)
  unfold BinOp.andRule
  cases hwa : a.isConstWidth with
  | true =>
    cases hwb : b.isConstWidth with
    | true => exact under_unstored (min a.getSigWidth b.getSigWidth) hnode rfl (by omega) hboth
    | false => exact mask_under ha hb
  | false =>
    cases hwb : b.isConstWidth with
    | true =>
      rw [Nat.and_comm]
      exact mask_under hb ha
    | false => exact under_stored (min a.getSigWidth b.getSigWidth) rfl (by omega) hboth

/-- The widths that `|` and `^` put together: a constant width counts as the minimal one. -/
theorem or_under {x : ℕ} (hnode : node.sigWidth = 0) (ha : Valued a v) (hb : Valued b v') (hfits : BinOp.orFits a b)
    (hx : ∀ {w : Int}, Under v w → Under v' w → Under x w) : Under x (BinOp.orRule node a b).getSigWidth := by
  have hsa := ha.sig_pos
  have hsb := hb.sig_pos
  have hma := ha.known
  have hmb := hb.known
  obtain ⟨hfa, hfb⟩ := hfits
  unfold BinOp.orRule
  cases hwa : a.isConstWidth with
  | true =>
    have hfa := hfa hwa
    cases hwb : b.isConstWidth with
    | true =>
      have hfb := hfb hwb
      rw [hwb, if_pos rfl] at hfa
      rw [hwa, if_pos rfl] at hfb
      have hub : Under v' (max a.getMinWidth b.getMinWidth) := hb.under.mono (by omega)
      have hboth := hx (ha.under.mono hfa) hub
      exact under_unstored (max a.getMinWidth b.getMinWidth) hnode rfl (by omega) hboth
    | false =>
      rw [hwb, if_neg Bool.false_ne_true] at hfa
      have hboth := hx (ha.under.mono hfa) (hb.under.mono (Int.le_max_right ..))
      exact under_stored (max a.getMinWidth b.getSigWidth) rfl (by omega) hboth
  | false =>
    cases hwb : b.isConstWidth with
    | true =>
      have hfb := hfb hwb
      rw [hwa, if_neg Bool.false_ne_true, Int.max_comm] at hfb
      have hboth := hx (ha.under.mono (Int.le_max_left ..)) (hb.under.mono hfb)
      exact under_stored (max a.getSigWidth b.getMinWidth) rfl (by omega) hboth
    | false =>
      have hboth := hx (ha.under.mono (Int.le_max_left ..)) (hb.under.mono (Int.le_max_right ..))
      exact under_stored (max a.getSigWidth b.getSigWidth) rfl (by omega) hboth

theorem question_under {c : Node} {x : ℕ} (ha : Valued a v) (hb : Valued b v') (hc : c.isUnknownWidth = false)
    (hua : a.isUnknownWidth = false) (hub : b.isUnknownWidth = false) (hx : x = v ∨ x = v') :
    Under x (questionRule node c a b).getSigWidth := by
  have hsa := ha.sig_pos
  unfold questionRule
  rw [hc, hua, hub, Bool.or_false, Bool.or_false, if_neg Bool.false_ne_true]
  have hboth : Under x (max a.getSigWidth b.getSigWidth) := by
    rcases hx with rfl | rfl
    · exact ha.under.mono (Int.le_max_left ..)
    · exact hb.under.mono (Int.le_max_right ..)
  exact under_stored (max a.getSigWidth b.getSigWidth) rfl (by omega) hboth

/-! ## Widths are `int`s -/

theorem int_lt (x : Int) : int x < 2147483648 := (inRange_int32.1 (wrap_inRange int32 x)).2

theorem UConst.minWidth_le (c : UConst) : minWidth c.val ≤ 64 := by
  have hsize : c.toNat.size ≤ 64 := Nat.size_le.2 c.lt
  rw [c.minWidth_eq]
  omega

theorem quotientWidth_le (w : Int) (c : UConst) : quotientWidth w c ≤ 64 := by
  have hle := UConst.minWidth_le ⟨.of uint64 (((Nat.pow 2 (w.toNat % 64) - 1) / c.toNat : ℕ) : Int), rfl⟩
  unfold quotientWidth
  exact Int.ofNat_le.2 hle

/-- The widths of a node are in the range of an `int`. -/
structure Narrow (n : Node) : Prop where
  min : n.minWidth < 2147483648
  sig : n.sigWidth < 2147483648

theorem Narrow.getMinWidth_lt {n : Node} (h : Narrow n) : n.getMinWidth < 2147483648 := by
  have hmin := h.min
  unfold Node.getMinWidth
  by_cases hpos : n.minWidth > 0
  · rw [if_pos hpos]
    exact hmin
  · rw [if_neg hpos]
    cases n.constValue with
    | none => decide
    | some c =>
      have hle := c.minWidth_le
      show (minWidth c.val : Int) < 2147483648
      omega

theorem Narrow.getSigWidth_lt {n : Node} (h : Narrow n) : n.getSigWidth < 2147483648 := by
  unfold Node.getSigWidth
  by_cases hpos : n.sigWidth > 0
  · rw [if_pos hpos]
    exact h.sig
  · rw [if_neg hpos]
    exact h.getMinWidth_lt

theorem narrow_ite {p : Prop} [Decidable p] {n n' : Node} (h : Narrow n) (h' : Narrow n') :
    Narrow (if p then n else n') := by
  by_cases hp : p
  · rwa [if_pos hp]
  · rwa [if_neg hp]

theorem maskRule_narrow (ha : Narrow a) (hb : Narrow b) : Narrow (BinOp.maskRule node a b) := by
  have hsa := ha.getSigWidth_lt
  have hmb := hb.getMinWidth_lt
  have hsb := hb.getSigWidth_lt
  unfold BinOp.maskRule
  cases a.constValue with
  | none => exact ⟨by dsimp only; omega, by dsimp only; omega⟩
  | some c => exact narrow_ite ⟨hmb, hsb⟩ ⟨by dsimp only; omega, by dsimp only; omega⟩

theorem orRule_narrow (hnode : Narrow node) (ha : Narrow a) (hb : Narrow b) : Narrow (BinOp.orRule node a b) := by
  have hma := ha.getMinWidth_lt
  have hsa := ha.getSigWidth_lt
  have hmb := hb.getMinWidth_lt
  have hsb := hb.getSigWidth_lt
  have hmin : max a.getMinWidth b.getMinWidth < 2147483648 := by omega
  unfold BinOp.orRule
  refine narrow_ite ⟨hmin, hnode.sig⟩ (narrow_ite ⟨hmin, ?_⟩ (narrow_ite ⟨hmin, ?_⟩ ⟨hmin, ?_⟩))
  all_goals
    dsimp only
    omega

theorem andRule_narrow (hnode : Narrow node) (ha : Narrow a) (hb : Narrow b) : Narrow (BinOp.andRule node a b) := by
  have hma := ha.getMinWidth_lt
  have hsa := ha.getSigWidth_lt
  have hmask : Narrow (BinOp.maskRule node a b) := maskRule_narrow ha hb
  have hmask' : Narrow (BinOp.maskRule node b a) := maskRule_narrow hb ha
  unfold BinOp.andRule
  refine narrow_ite ⟨?_, hnode.sig⟩ (narrow_ite hmask (narrow_ite hmask' ⟨?_, ?_⟩))
  all_goals
    dsimp only
    omega

theorem slashRule_narrow (hnode : Narrow node) (ha : Narrow a) : Narrow (BinOp.slashRule node a b) := by
  have hma := ha.getMinWidth_lt
  have hsa := ha.getSigWidth_lt
  unfold BinOp.slashRule
  cases b.constValue with
  | none => exact ⟨hma, hsa⟩
  | some c =>
    have hmin := quotientWidth_le a.getMinWidth c
    have hsig := quotientWidth_le a.getSigWidth c
    have hsign : (if a.bIsSigned then 1 else 0 : Int) ≤ 1 := by
      cases a.bIsSigned <;> decide
    refine narrow_ite hnode ⟨?_, ?_⟩
    all_goals
      dsimp only
      omega

theorem asteriskRule_narrow : Narrow (BinOp.asteriskRule node a b) := by
  unfold BinOp.asteriskRule
  cases a.constValue with
  | some c => exact ⟨int_lt _, int_lt _⟩
  | none =>
    cases b.constValue with
    | some c => exact ⟨int_lt _, int_lt _⟩
    | none => exact ⟨int_lt _, int_lt _⟩

theorem percentRule_narrow (ha : Narrow a) : Narrow (BinOp.percentRule node a b) := by
  have hma := ha.getMinWidth_lt
  have hsa := ha.getSigWidth_lt
  unfold BinOp.percentRule
  cases b.constValue with
  | some c => exact ⟨by dsimp only; omega, by dsimp only; omega⟩
  | none => exact ⟨by dsimp only; omega, by dsimp only; omega⟩

theorem rule_narrow (op : BinOp) (hnode : Narrow node) (ha : Narrow a) (hb : Narrow b) :
    Narrow (op.rule node a b) := by
  have hma := ha.getMinWidth_lt
  have hmb := hb.getMinWidth_lt
  refine narrow_ite hnode ?_
  cases op with
  | plus => exact ⟨by dsimp only [BinOp.plusRule]; omega, int_lt _⟩
  | asterisk => exact asteriskRule_narrow
  | slash => exact slashRule_narrow hnode ha
  | percent => exact percentRule_narrow ha
  | ampersand => exact andRule_narrow hnode ha hb
  | vbar | carot => exact orRule_narrow hnode ha hb

theorem checkWidthRules_narrow (e : Expr) : Narrow (checkWidthRules e) := by
  have hzero : (0 : Int) < 2147483648 := by decide
  have hstart (e : Expr) : Narrow (start e) := ⟨hzero, hzero⟩
  induction e with
  | var x =>
    have hle := x.width_le
    exact ⟨by dsimp only [checkWidthRules]; omega, hzero⟩
  | const c => exact ⟨hzero, hzero⟩
  | bin op a b iha ihb => exact rule_narrow op (hstart _) iha ihb
  | shift left a k iha => exact narrow_ite ⟨int_lt _, int_lt _⟩ ⟨int_lt _, int_lt _⟩
  | question c a b ihc iha ihb =>
    have hma := iha.getMinWidth_lt
    have hsa := iha.getSigWidth_lt
    have hmb := ihb.getMinWidth_lt
    have hsb := ihb.getSigWidth_lt
    refine narrow_ite (hstart _) ⟨?_, ?_⟩
    all_goals
      dsimp only
      omega

/-! ## Constants and known widths -/

theorem Node.getMinWidth_nonneg (n : Node) : 0 ≤ n.getMinWidth := by
  unfold Node.getMinWidth
  by_cases hpos : n.minWidth > 0
  · rw [if_pos hpos]
    omega
  · rw [if_neg hpos]
    cases n.constValue with
    | none => decide
    | some c => exact Int.natCast_nonneg _

theorem Node.getSigWidth_nonneg (n : Node) : 0 ≤ n.getSigWidth := by
  have hmin := n.getMinWidth_nonneg
  unfold Node.getSigWidth
  split <;> omega

theorem isUnknownWidth_eq_false (n : Node) : n.isUnknownWidth = false ↔ 1 ≤ n.getMinWidth := by
  rw [Node.isUnknownWidth, decide_eq_false_iff_not]
  omega

/-- A node without a constant whose minimal width is not set has no width. -/
theorem isUnknownWidth_of_nonpos {n : Node} (hc : n.constValue = none) (hmin : n.minWidth ≤ 0) :
    n.isUnknownWidth = true := by
  have hpos : ¬ n.minWidth > 0 := by omega
  rw [Node.isUnknownWidth, Node.getMinWidth, if_neg hpos, hc]
  rfl

theorem rule_constValue (op : BinOp) : (op.rule node a b).constValue = node.constValue := by
  have hmask (k n : Node) : (BinOp.maskRule node k n).constValue = node.constValue := by
    unfold BinOp.maskRule
    cases k.constValue with
    | none => rfl
    | some c => rw [apply_ite Node.constValue, ite_self]
  unfold BinOp.rule
  rw [apply_ite Node.constValue, ite_eq_left_iff]
  intro _
  cases op with
  | plus => rfl
  | asterisk =>
    show (BinOp.asteriskRule node a b).constValue = _
    unfold BinOp.asteriskRule
    cases a.constValue <;> cases b.constValue <;> rfl
  | slash =>
    show (BinOp.slashRule node a b).constValue = _
    unfold BinOp.slashRule
    cases b.constValue with
    | none => rfl
    | some c => rw [apply_ite Node.constValue, ite_self]
  | percent =>
    show (BinOp.percentRule node a b).constValue = _
    unfold BinOp.percentRule
    cases b.constValue <;> rfl
  | ampersand =>
    show (BinOp.andRule node a b).constValue = _
    simp only [BinOp.andRule, apply_ite Node.constValue, hmask, ite_self]
  | vbar | carot =>
    show (BinOp.orRule node a b).constValue = _
    simp only [BinOp.orRule, apply_ite Node.constValue, ite_self]

/-- Only a constant has a constant value: none is folded here. -/
theorem eq_const {e : Expr} {c : UConst} (h : (checkWidthRules e).constValue = some c) : e = .const c := by
  cases e with
  | var x => exact absurd h (by nofun)
  | const c' =>
    rw [Option.some.inj h]
  | bin op a b =>
    rw [checkWidthRules, rule_constValue] at h
    cases h
  | shift left a k =>
    rw [checkWidthRules, shiftRule, apply_ite Node.constValue, ite_self] at h
    cases h
  | question c a b =>
    rw [checkWidthRules, questionRule, apply_ite Node.constValue, ite_self] at h
    cases h

/-- An expression of a known width, and a value below its significant width. -/
theorem valued_of {e : Expr} {ρ : Valuation} (hknown : (checkWidthRules e).isUnknownWidth = false)
    (hunder : Under (eval ρ e) (checkWidthRules e).getSigWidth) : Valued (checkWidthRules e) (eval ρ e) where
  known := (isUnknownWidth_eq_false _).1 hknown
  under := hunder
  const c hc := by
    rw [eq_const hc]
    exact ⟨rfl, rfl, rfl⟩

theorem rule_known {op : BinOp} (hmin : node.minWidth = 0) (hc : node.constValue = none)
    (h : (op.rule node a b).isUnknownWidth = false) : a.isUnknownWidth = false ∧ b.isUnknownWidth = false := by
  have hnode := isUnknownWidth_of_nonpos hc (Int.le_of_eq hmin)
  unfold BinOp.rule at h
  cases ha : a.isUnknownWidth with
  | true =>
    rw [ha, Bool.true_or, if_pos rfl, hnode] at h
    cases h
  | false =>
    cases hb : b.isUnknownWidth with
    | true =>
      rw [hb, Bool.or_true, if_pos rfl, hnode] at h
      cases h
    | false => exact ⟨rfl, rfl⟩

theorem questionRule_known {c : Node} (hmin : node.minWidth = 0) (hc : node.constValue = none)
    (h : (questionRule node c a b).isUnknownWidth = false) :
    c.isUnknownWidth = false ∧ a.isUnknownWidth = false ∧ b.isUnknownWidth = false := by
  have hnode := isUnknownWidth_of_nonpos hc (Int.le_of_eq hmin)
  unfold questionRule at h
  cases hor : c.isUnknownWidth || a.isUnknownWidth || b.isUnknownWidth with
  | true =>
    rw [hor, if_pos rfl, hnode] at h
    cases h
  | false =>
    rw [Bool.or_eq_false_iff, Bool.or_eq_false_iff] at hor
    exact ⟨hor.1.1, hor.1.2, hor.2⟩

theorem rule_under {op : BinOp} (hs : node.sigWidth = 0) (hua : a.isUnknownWidth = false)
    (hub : b.isUnknownWidth = false) (ha : Valued a v) (hb : Valued b v') (hfits : op.Fits a b)
    (hdiv : op = .slash ∨ op = .percent → v' ≠ 0) : Under (op.apply v v') (op.rule node a b).getSigWidth := by
  unfold BinOp.rule
  rw [hua, hub, Bool.or_false, if_neg Bool.false_ne_true]
  cases op with
  | plus => exact plus_under ha hb hfits
  | asterisk => exact asterisk_under ha hb hfits
  | slash => exact slash_under ha hb hfits (hdiv (.inl rfl))
  | percent => exact percent_under ha hb (hdiv (.inr rfl))
  | ampersand => exact and_under hs ha hb
  | vbar => exact or_under hs ha hb hfits Under.or
  | carot => exact or_under hs ha hb hfits Under.xor

/-- A shift to the left of a value whose width is set. -/
theorem shiftLeft_under {k : ℕ} (hv : Under v a.getSigWidth)
    (hfits : a.getSigWidth + k < 2147483648) : Under (v * Nat.pow 2 k) (shiftRule true node a k).getSigWidth := by
  have h0 := a.getSigWidth_nonneg
  have hmul : Under (v * Nat.pow 2 k) (a.getSigWidth + k) := by
    have hnat : (a.getSigWidth + k).toNat = a.getSigWidth.toNat + k := by omega
    have hpow : Nat.pow 2 (a.getSigWidth.toNat + k) = Nat.pow 2 a.getSigWidth.toNat * Nat.pow 2 k := Nat.pow_add 2 _ _
    unfold Under at hv ⊢
    rw [hnat, hpow]
    exact Nat.mul_lt_mul_of_pos_right hv (Nat.pow_pos Nat.two_pos)
  by_cases hpos : 1 ≤ a.getSigWidth + k
  · exact under_stored (a.getSigWidth + k) (int_eq (by omega) hfits) hpos hmul
  · -- no width and no shift: the value is zero
    have hzero : a.getSigWidth + k = 0 := by omega
    rw [hzero] at hmul
    have hval : v * Nat.pow 2 k = 0 := Nat.lt_one_iff.1 hmul
    rw [hval]
    exact under_zero _

/-- A shift to the right: where nothing of the width is left, nothing of the value is. -/
theorem shiftRight_under {k : ℕ} (ha : Narrow a) (hv : Under v a.getSigWidth) :
    Under (v / Nat.pow 2 k) (shiftRule false node a k).getSigWidth := by
  have h0 := a.getSigWidth_nonneg
  have hlt := ha.getSigWidth_lt
  have hdiv := hv.shiftRight (k := k) h0
  by_cases hpos : 1 ≤ a.getSigWidth - k
  · exact under_stored (a.getSigWidth - k) (int_eq (by omega) (by omega)) hpos hdiv
  · have hnat : (a.getSigWidth - k).toNat = 0 := by omega
    unfold Under at hdiv
    rw [hnat] at hdiv
    have hval : v / Nat.pow 2 k = 0 := Nat.lt_one_iff.1 hdiv
    rw [hval]
    exact under_zero _

/-- A shift of a value without a width has none, if it does not make one. -/
theorem shiftRule_unknown {left : Bool} {k : ℕ} (hc : node.constValue = none) (ha : a.getMinWidth = 0)
    (hk : if left then k = 0 else k ≤ 2147483648) : (shiftRule left node a k).isUnknownWidth = true := by
  unfold shiftRule
  cases left with
  | true =>
    have hzero : k = 0 := hk
    refine isUnknownWidth_of_nonpos hc ?_
    show int (a.getMinWidth + k) ≤ 0
    rw [ha, hzero]
    exact Int.le_of_eq (int_eq (by decide) (by decide))
  | false =>
    have hle : k ≤ 2147483648 := hk
    refine isUnknownWidth_of_nonpos hc ?_
    show int (a.getMinWidth - k) ≤ 0
    rw [ha, int_eq (by omega) (by omega)]
    omega

/-- **A known width is a set one**, where the rules hold. -/
theorem isSet_of_known {e : Expr} (hfits : Fits e) (hknown : (checkWidthRules e).isUnknownWidth = false) : IsSet e := by
  induction e with
  | var x => trivial
  | const c => trivial
  | bin op a b _ _ => exact rule_known rfl rfl hknown
  | shift left a k ih =>
    obtain ⟨hfa, hset, -⟩ := hfits
    rcases hset with hset | hk
    · exact hset
    · apply ih hfa
      rw [isUnknownWidth_eq_false]
      -- an operand without a width would leave the shift without one
      have h0 := (checkWidthRules a).getMinWidth_nonneg
      rcases Int.lt_or_eq_of_le h0 with hpos | hzero
      · exact hpos
      · have hunknown : (checkWidthRules (.shift left a k)).isUnknownWidth = true :=
          shiftRule_unknown rfl hzero.symm hk
        rw [hunknown] at hknown
        cases hknown
  | question c a b _ _ _ => exact questionRule_known rfl rfl hknown

/-- **A value is below its width**, once that is set. -/
theorem under_of_isSet {e : Expr} {ρ : Valuation} (hdiv : NonzeroDivisors ρ e) (hfits : Fits e) (hset : IsSet e) :
    Under (eval ρ e) (checkWidthRules e).getSigWidth := by
  induction e with
  | var x =>
    have hpos : (x.width : Int) > 0 := Int.ofNat_lt.2 x.width_pos
    refine under_unstored x.width rfl rfl (by omega) ?_
    exact ρ.lt x
  | const c => exact c.under
  | bin op a b iha ihb =>
    obtain ⟨hua, hub⟩ := hset
    obtain ⟨hfa, hfb, hop⟩ := hfits
    obtain ⟨hda, hdb, hnz⟩ := hdiv
    have ha := valued_of hua (iha hda hfa (isSet_of_known hfa hua))
    have hb := valued_of hub (ihb hdb hfb (isSet_of_known hfb hub))
    exact rule_under rfl hua hub ha hb (hop hua hub) hnz
  | shift left a k ih =>
    obtain ⟨hfa, -, hsum⟩ := hfits
    have ha := ih hdiv hfa hset
    cases left with
    | true => exact shiftLeft_under ha (hsum rfl)
    | false => exact shiftRight_under (checkWidthRules_narrow a) ha
  | question c a b _ iha ihb =>
    obtain ⟨huc, hua, hub⟩ := hset
    obtain ⟨-, hfa, hfb⟩ := hfits
    obtain ⟨-, hda, hdb⟩ := hdiv
    have ha := valued_of hua (iha hda hfa (isSet_of_known hfa hua))
    have hb := valued_of hub (ihb hdb hfb (isSet_of_known hfb hub))
    refine question_under ha hb huc hua hub ?_
    rw [eval]
    by_cases hc : eval ρ c = 0
    · exact .inr (if_pos hc)
    · exact .inl (if_neg hc)

/-- The rules hold at each node of an expression. -/
theorem of_mem_subexprs {e x : Expr} {ρ : Valuation} (hx : x ∈ subexprs e) (hdiv : NonzeroDivisors ρ e)
    (hfits : Fits e) : NonzeroDivisors ρ x ∧ Fits x := by
  induction e with
  | var y =>
    obtain rfl := List.mem_singleton.1 hx
    exact ⟨hdiv, hfits⟩
  | const c =>
    obtain rfl := List.mem_singleton.1 hx
    exact ⟨hdiv, hfits⟩
  | bin op a b iha ihb =>
    rcases List.mem_cons.1 hx with rfl | hx
    · exact ⟨hdiv, hfits⟩
    · rcases List.mem_append.1 hx with hx | hx
      · exact iha hx hdiv.1 hfits.1
      · exact ihb hx hdiv.2.1 hfits.2.1
  | shift left a k ih =>
    rcases List.mem_cons.1 hx with rfl | hx
    · exact ⟨hdiv, hfits⟩
    · rcases List.mem_cons.1 hx with rfl | hx
      · exact ⟨trivial, trivial⟩
      · exact ih hx hdiv hfits.1
  | question c a b ihc iha ihb =>
    rcases List.mem_cons.1 hx with rfl | hx
    · exact ⟨hdiv, hfits⟩
    · rcases List.mem_append.1 hx with hx | hx
      · rcases List.mem_append.1 hx with hx | hx
        · exact ihc hx hdiv.1 hfits.1
        · exact iha hx hdiv.2.1 hfits.2.1
      · exact ihb hx hdiv.2.2 hfits.2.2

/-- **Values are below their widths** in an expression whose nodes the rules hold for. -/
theorem below_of_fits (e : Expr) (ρ : Valuation) (hdiv : NonzeroDivisors ρ e) (hfits : Fits e) :
    ∀ x ∈ subexprs e, (checkWidthRules x).isUnknownWidth = false →
      Under (eval ρ x) (checkWidthRules x).getSigWidth := by
  intro x hx hknown
  obtain ⟨hdx, hfx⟩ := of_mem_subexprs hx hdiv hfits
  exact under_of_isSet hdx hfx (isSet_of_known hfx hknown)

/-- An unsigned constant of 32 bits. -/
def uconst (v : Int) : UConst := ⟨.of uint32 v, rfl⟩

theorem flag_width : 0 < 1 ∧ 1 ≤ 64 := by decide

/-- A variable of one bit, which is promoted to an `int`. -/
def flag (name : String) : Expr := .var ⟨name, 1, 32, true, flag_width.1, flag_width.2⟩

/-- All variables are zero. -/
def zeros : Valuation := ⟨fun _ => 0, fun _ => Nat.pow_pos Nat.two_pos⟩

/-- All variables are one. -/
def ones : Valuation := ⟨fun _ => 1, fun x => Nat.one_lt_two_pow (Nat.ne_of_gt x.width_pos)⟩

/-- `(a + 3u) << 2u` -/
def shifted : Expr := .shift true (.bin .plus (flag "a") (.const (uconst 3))) (uconst 2)

theorem below_of_fits_shift : Under (eval ones shifted) (checkWidthRules shifted).getSigWidth :=
  below_of_fits shifted ones ⟨trivial, trivial, by decide⟩
    ⟨⟨trivial, trivial, fun _ _ => show (3 : Int) < 2147483648 by decide⟩, .inl ⟨by decide, by decide⟩,
      fun _ => by decide⟩
    shifted List.mem_cons_self (by decide)

/-- `((a ? 3u : 2u) + (b ? 3u : 2u)) | 1u`: two bits are enough for each operand of the sum, not for the sum. -/
def carried : Expr :=
  .bin .vbar
    (.bin .plus (.question (flag "a") (.const (uconst 3)) (.const (uconst 2)))
      (.question (flag "b") (.const (uconst 3)) (.const (uconst 2))))
    (.const (uconst 1))

/-- **The carry of a constant width is lost** where it is put together with another one. -/
theorem carried_above :
    ¬ ∀ (e : Expr) (ρ : Valuation), NonzeroDivisors ρ e → diagnostics e = [] →
      ∀ x ∈ subexprs e, (checkWidthRules x).isUnknownWidth = false →
        Under (eval ρ x) (checkWidthRules x).getSigWidth := by
  intro h
  have hdiv : NonzeroDivisors ones carried :=
    ⟨⟨⟨trivial, trivial, trivial⟩, ⟨trivial, trivial, trivial⟩, by decide⟩, trivial, by decide⟩
  have hbelow := h carried ones hdiv (by decide) carried (List.mem_cons_self ..) (by decide)
  have hsig : (checkWidthRules carried).getSigWidth = 2 := by decide
  have hval : eval ones carried = 7 := by decide
  rw [hsig, hval] at hbelow
  exact absurd (show 7 < 4 from hbelow) (by decide)

end OpenHT.Htfe.SigWidth
