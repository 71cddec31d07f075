import OpenHT.Htfe.RamWrite
import OpenHT.Lib.Tiling

/-!
# The ranges of a write enable

* `weWidths_spec`: they tile the word, and are cut where a call for more than one bit starts or ends.
* `sets_between`, `sets_single`: the bits that an assignment sets.
* `parts_spec`: the parts of an element.
-/

namespace OpenHT.Htfe.RamWrite

open Tiling

/-- The ranges tile the bits from `a` up to `z`. -/
abbrev TilesWe : ℕ → List WeWidth → ℕ → Prop := Tiles WeWidth.lowBit WeWidth.highBit

/-- A call for a sub-range of the word. -/
def WeWidth.Inside (c : WeWidth) (dataWidth : ℕ) : Prop := c.lowBit ≤ c.highBit ∧ c.highBit < dataWidth

/-- The calls cut the ranges at `b`: those for a single bit are taken for ones of the full width. -/
def CutBy (dataWidth : ℕ) (calls : List WeWidth) (b : ℕ) : Prop :=
  b = 0 ∨ b = dataWidth ∨ ∃ c ∈ calls, c.lowBit ≠ c.highBit ∧ (c.lowBit = b ∨ c.highBit + 1 = b)

variable {a z low high : ℕ} {l : List WeWidth}

attribute [local simp] splitLow

theorem tiles_splitLow (h : TilesWe a l z) : TilesWe a (splitLow low l) z := by
  induction l generalizing a with
  | nil => exact h
  | cons r l ih =>
    obtain ⟨hlo, hle, hl⟩ := h
    unfold splitLow
    split
    · exact ⟨hlo, hle, hl⟩
    · split
      · rename_i hin
        have hsucc : low - 1 + 1 = low := by omega
        refine ⟨hlo, ?_, ?_, ?_, hl⟩
        · show a ≤ low - 1
          omega
        · exact hsucc.symm
        · show low - 1 + 1 ≤ r.highBit
          omega
      · exact ⟨hlo, hle, ih hl⟩

/-- **A cut at the low bit**, and no others. -/
theorem cut_splitLow (h : TilesWe a l z) (ha : a ≤ low) (hz : low < z) (b : ℕ) :
    Cut WeWidth.lowBit (splitLow low l) z b ↔ Cut WeWidth.lowBit l z b ∨ low = b := by
  induction l generalizing a with
  | nil =>
    have : a = z := h
    omega
  | cons r l ih =>
    obtain ⟨hlo, hle, hl⟩ := h
    unfold splitLow
    split
    · rename_i heq
      have hstart : low = b → Cut WeWidth.lowBit (r :: l) z b := fun hb => cut_cons.2 (.inl (heq ▸ hb))
      exact ⟨.inl, fun hb => hb.elim id hstart⟩
    · split
      · rw [cut_cons, cut_cons, cut_cons, or_assoc, or_comm (a := Cut WeWidth.lowBit l z b)]
      · have hrest := ih hl (by omega)
        rw [cut_cons, cut_cons, hrest, or_assoc]

theorem tiles_splitHigh (h : TilesWe a l z) : TilesWe a (splitHigh high l) z := by
  induction l generalizing a with
  | nil => exact h
  | cons r l ih =>
    obtain ⟨hlo, hle, hl⟩ := h
    unfold splitHigh
    split
    · exact ⟨hlo, hle, hl⟩
    · split
      · rename_i hin
        refine ⟨hlo, ?_, rfl, ?_, hl⟩
        · show a ≤ high
          omega
        · show high + 1 ≤ r.highBit
          omega
      · exact ⟨hlo, hle, ih hl⟩

/-- **A cut behind the high bit**, and no others. -/
theorem cut_splitHigh (h : TilesWe a l z) (ha : a ≤ high) (hz : high < z) (b : ℕ) :
    Cut WeWidth.lowBit (splitHigh high l) z b ↔ Cut WeWidth.lowBit l z b ∨ high + 1 = b := by
  induction l generalizing a with
  | nil =>
    have : a = z := h
    omega
  | cons r l ih =>
    have hbehind : Cut WeWidth.lowBit (r :: l) z (r.highBit + 1) := h.cut_behind List.mem_cons_self
    obtain ⟨hlo, hle, hl⟩ := h
    unfold splitHigh
    split
    · rename_i heq
      have hend : high + 1 = b → Cut WeWidth.lowBit (r :: l) z b := fun hb => hb ▸ heq ▸ hbehind
      exact ⟨.inl, fun hb => hb.elim id hend⟩
    · split
      · rw [cut_cons, cut_cons, cut_cons, or_assoc, or_comm (a := Cut WeWidth.lowBit l z b)]
      · have hrest := ih hl (by omega)
        rw [cut_cons, cut_cons, hrest, or_assoc]

/-! ## All calls -/

/-- **One call** cuts the ranges at both ends of its bits, unless it is for one bit. -/
theorem setHtDistRamWeSubRange_spec {dataWidth : ℕ} {c : WeWidth} (h : TilesWe 0 l dataWidth) (hc : c.Inside dataWidth) :
    TilesWe 0 (setHtDistRamWeSubRange l c) dataWidth ∧
      ∀ b, Cut WeWidth.lowBit (setHtDistRamWeSubRange l c) dataWidth b ↔
        Cut WeWidth.lowBit l dataWidth b ∨ c.lowBit ≠ c.highBit ∧ (c.lowBit = b ∨ c.highBit + 1 = b) := by
  obtain ⟨hle, hlt⟩ := hc
  unfold setHtDistRamWeSubRange wrEnWidth
  by_cases hone : c.lowBit = c.highBit
  · rw [if_pos (by omega)]
    exact ⟨h, fun b => ⟨.inl, fun hb => hb.elim id fun hne => absurd hone hne.1⟩⟩
  · have hlow : TilesWe 0 (splitLow c.lowBit l) dataWidth := tiles_splitLow h
    rw [if_neg (by omega)]
    refine ⟨tiles_splitHigh hlow, fun b => ?_⟩
    rw [cut_splitHigh hlow (Nat.zero_le _) hlt, cut_splitLow h (Nat.zero_le _) (by omega), or_assoc]
    exact or_congr_right ⟨fun hb => ⟨hone, hb⟩, fun hb => hb.2⟩

theorem foldl_spec {dataWidth : ℕ} {calls : List WeWidth} (hcalls : ∀ c ∈ calls, c.Inside dataWidth)
    (h : TilesWe 0 l dataWidth) :
    TilesWe 0 (calls.foldl setHtDistRamWeSubRange l) dataWidth ∧
      ∀ b, Cut WeWidth.lowBit (calls.foldl setHtDistRamWeSubRange l) dataWidth b ↔
        Cut WeWidth.lowBit l dataWidth b ∨ ∃ c ∈ calls, c.lowBit ≠ c.highBit ∧ (c.lowBit = b ∨ c.highBit + 1 = b) := by
  induction calls generalizing l with
  | nil => exact ⟨h, fun b => ⟨.inl, fun hb => hb.elim id fun hc => (nomatch hc.choose_spec.1)⟩⟩
  | cons c calls ih =>
    obtain ⟨htiles, hcut⟩ := setHtDistRamWeSubRange_spec h (hcalls c List.mem_cons_self)
    obtain ⟨htiles', hcut'⟩ := ih (fun d hd => hcalls d (List.mem_cons_of_mem c hd)) htiles
    refine ⟨htiles', fun b => ?_⟩
    rw [List.foldl_cons, hcut', hcut, List.exists_mem_cons_iff, or_assoc]

/-- **The ranges** tile the word and are cut by the calls, at both ends of the word, and nowhere else. -/
theorem weWidths_spec {dataWidth : ℕ} (hw : 0 < dataWidth) {calls : List WeWidth}
    (hcalls : ∀ c ∈ calls, c.Inside dataWidth) :
    TilesWe 0 (weWidths dataWidth calls) dataWidth ∧
      ∀ b, Cut WeWidth.lowBit (weWidths dataWidth calls) dataWidth b ↔ CutBy dataWidth calls b := by
  have hlast : dataWidth - 1 + 1 = dataWidth := by omega
  have hstart : TilesWe 0 [⟨dataWidth - 1, 0⟩] dataWidth := ⟨rfl, Nat.zero_le _, hlast⟩
  obtain ⟨htiles, hcut⟩ := foldl_spec hcalls hstart
  refine ⟨htiles, fun b => ?_⟩
  have hends : Cut WeWidth.lowBit [⟨dataWidth - 1, 0⟩] dataWidth b ↔ b = 0 ∨ b = dataWidth := by
    rw [cut_cons]
    refine or_congr eq_comm ⟨?_, .inl⟩
    rintro (hb | ⟨c, hc, _⟩)
    · exact hb
    · cases hc
  unfold weWidths CutBy
  rw [hcut, hends, or_assoc]

/-! ## Assignments -/

section Sets

variable {dataWidth : ℕ} {c : WeWidth} {b : ℕ}

/-- An assignment sets bits of its range only, unless there is one range for the whole word. -/
theorem sets_inside (hlen : l.length ≠ 1) (h : synHtDistRamWe l (some c) b = true) : c.lowBit ≤ b ∧ b ≤ c.highBit := by
  unfold synHtDistRamWe at h
  obtain ⟨r, _, hr⟩ := List.any_eq_true.1 h
  simp only [Bool.and_eq_true, Bool.or_eq_true, beq_iff_eq, decide_eq_true_iff, Option.all_some] at hr
  obtain ⟨hr1 | hr1, hr2⟩ := hr
  · exact absurd hr1 hlen
  · omega

theorem sets_whole {range : Option WeWidth} (htiles : TilesWe 0 l dataWidth) (hlen : l.length = 1) :
    synHtDistRamWe l range b = true ↔ b < dataWidth := by
  obtain ⟨r, rfl, hlo, hhi⟩ := htiles.of_length_one hlen
  unfold synHtDistRamWe
  simp only [List.any_cons, List.any_nil, List.length_singleton, beq_self_eq_true, Bool.true_or, Bool.true_and,
    Bool.or_false, decide_eq_true_iff]
  omega

/-- **A range between two cuts** is set as a whole. -/
theorem sets_between (htiles : TilesWe 0 l dataWidth) (hlow : Cut WeWidth.lowBit l dataWidth c.lowBit)
    (hhigh : Cut WeWidth.lowBit l dataWidth (c.highBit + 1)) (hc : c.highBit < dataWidth) (h : c.lowBit ≤ b ∧ b ≤ c.highBit) :
    synHtDistRamWe l (some c) b = true := by
  obtain ⟨r, hr, h1, h2, h3, h4⟩ :=
    htiles.exists_within hlow hhigh (Nat.zero_le b) h.1 (Nat.lt_succ_of_le h.2) (by omega)
  unfold synHtDistRamWe
  refine List.any_eq_true.2 ⟨r, hr, ?_⟩
  simp only [Bool.and_eq_true, Bool.or_eq_true, beq_iff_eq, decide_eq_true_iff, Option.all_some]
  exact ⟨.inr ⟨h1, by omega⟩, h3, h4⟩

/-- A single bit is set exactly if it is cut off on both sides. -/
theorem sets_single (htiles : TilesWe 0 l dataWidth) (hlen : l.length ≠ 1) (hb : b < dataWidth) :
    synHtDistRamWe l (some ⟨b, b⟩) b = true ↔
      Cut WeWidth.lowBit l dataWidth b ∧ Cut WeWidth.lowBit l dataWidth (b + 1) := by
  rw [← htiles.mem_single (Nat.zero_le b) hb]
  unfold synHtDistRamWe
  simp only [List.any_eq_true, Bool.and_eq_true, Bool.or_eq_true, beq_iff_eq, decide_eq_true_iff, Option.all_some]
  constructor
  · rintro ⟨r, hr, hr1 | hr1, hr2⟩
    · exact absurd hr1 hlen
    · exact ⟨r, hr, by omega, by omega⟩
  · rintro ⟨r, hr, rfl, hhi⟩
    exact ⟨r, hr, .inr (by omega), by omega⟩

end Sets

/-! ## The parts of an element -/

/-- **The parts** are inside the element and cover it. Only the last one can be a single bit. -/
theorem parts_spec {n : ℕ} (hn : high + 1 - low ≤ n) :
    (∀ c ∈ parts n low high, low ≤ c.lowBit ∧ c.lowBit ≤ c.highBit ∧ c.highBit ≤ high) ∧
    (∀ b, low ≤ b → b ≤ high → ∃ c ∈ parts n low high, c.lowBit ≤ b ∧ b ≤ c.highBit) ∧
    (∀ c ∈ parts n low high, c.lowBit = c.highBit → c.lowBit = high ∧ (high + 1 - low) % 64 = 1) ∧
    (∀ c ∈ parts n low high, c.highBit = high → (high + 1 - low) % 64 = 1 → c.lowBit = high) := by
  induction n generalizing low with
  | zero =>
    refine ⟨fun _ hc => (nomatch hc), fun b h1 h2 => ?_, fun _ hc => (nomatch hc), fun _ hc => (nomatch hc)⟩
    omega
  | succ n ih =>
    unfold parts
    by_cases hle : low ≤ high
    · rw [if_pos hle]
      by_cases hbig : high - low + 1 > 64
      · -- A part of 64 bits, and the rest.
        obtain ⟨h1, h2, h3, h4⟩ := @ih (low + 64) (by omega)
        have hmod : (high + 1 - (low + 64)) % 64 = (high + 1 - low) % 64 := by omega
        simp only [if_pos hbig]
        refine ⟨?_, ?_, ?_, ?_⟩
        · intro c hc
          rcases List.mem_cons.1 hc with rfl | hc
          · dsimp only
            omega
          · have := h1 c hc
            omega
        · intro b hlb hbh
          by_cases hb : b ≤ low + 64 - 1
          · exact ⟨_, List.mem_cons_self, hlb, hb⟩
          · obtain ⟨c, hc, hcb⟩ := h2 b (by omega) hbh
            exact ⟨c, List.mem_cons_of_mem _ hc, hcb⟩
        · intro c hc hone
          rcases List.mem_cons.1 hc with rfl | hc
          · dsimp only at hone
            omega
          · rw [← hmod]
            exact h3 c hc hone
        · intro c hc hlast hone
          rcases List.mem_cons.1 hc with rfl | hc
          · dsimp only at hlast ⊢
            omega
          · exact h4 c hc hlast (hmod ▸ hone)
      · -- The last part.
        have hnil : parts n (low + (high - low + 1)) high = [] := by
          cases n with
          | zero => rfl
          | succ n =>
            unfold parts
            rw [if_neg (by omega)]
        simp only [if_neg hbig, hnil]
        have honly {c : WeWidth} (hc : c ∈ [(⟨low + (high - low + 1) - 1, low⟩ : WeWidth)]) :
            c.lowBit = low ∧ c.highBit = high := by
          obtain rfl := List.mem_singleton.1 hc
          exact ⟨rfl, by dsimp only; omega⟩
        refine ⟨?_, ?_, ?_, ?_⟩
        · intro c hc
          have := honly hc
          omega
        · intro b hlb hbh
          refine ⟨_, List.mem_cons_self, hlb, ?_⟩
          dsimp only
          omega
        · intro c hc hone
          have := honly hc
          omega
        · intro c hc _ hone
          have := honly hc
          omega
    · rw [if_neg hle]
      refine ⟨fun _ hc => (nomatch hc), fun b h1 h2 => ?_, fun _ hc => (nomatch hc), fun _ hc => (nomatch hc)⟩
      omega

end OpenHT.Htfe.RamWrite
