import OpenHT.Htfe.RamRanges

/-!
# The write-enable sections of a RAM

The ranges of a write enable with their members as the source has them, `short`, and what
HTV does with them.

* `Section`, `setSubRange`, `sections`: `CHtDistRamWeWidth` and `SetHtDistRamWeSubRange`.
* `driven`, `memories`: the enables that `SynHtDistRamWe` assigns for a range, and the memories that
  `SynHtDistRams` instantiates.
* `SectionsOk`, `Partitions`: the sections partition the word, after every request.
* `sections_eq`: up to 32768 bits the members are those of `weWidths`.
* `sections_iff`: when this is so.
-/

namespace OpenHT.Htfe.RamSections

open Tiling RamWrite

/-- The value that a `short` keeps. -/
def toShort (x : ℤ) : ℤ := (x + 32768) % 65536 - 32768

/-- `CHtDistRamWeWidth`. -/
structure Section where
  highBit : ℤ
  lowBit : ℤ
deriving DecidableEq, Repr

/-- Its constructor. -/
def Section.make (highBit lowBit : ℤ) : Section := ⟨toShort highBit, toShort lowBit⟩

/-- The first loop of `SetHtDistRamWeSubRange`. -/
def splitLow (lowBit : ℤ) : List Section → List Section
  | [] => []
  | r :: l =>
    if lowBit = r.lowBit then r :: l
    else if lowBit > r.lowBit ∧ lowBit ≤ r.highBit then
      .make (lowBit - 1) r.lowBit :: { r with lowBit := toShort lowBit } :: l
    else r :: splitLow lowBit l

/-- The second loop. -/
def splitHigh (highBit : ℤ) : List Section → List Section
  | [] => []
  | r :: l =>
    if highBit = r.highBit then r :: l
    else if highBit ≥ r.lowBit ∧ highBit < r.highBit then
      .make highBit r.lowBit :: { r with lowBit := toShort (highBit + 1) } :: l
    else r :: splitHigh highBit l

/-- `SetHtDistRamWeSubRange`; `GetWidth()` is the width of the write enable, which is a `bool`. -/
def setSubRange (l : List Section) (c : WeWidth) : List Section :=
  if (c.highBit : ℤ) - c.lowBit + 1 = wrEnWidth then l else splitHigh c.highBit (splitLow c.lowBit l)

/-- The sections of a RAM with words of `dataWidth` bits, after the requests. -/
def sections (dataWidth : ℕ) (reqs : List WeWidth) : List Section :=
  reqs.foldl setSubRange [.make ((dataWidth : ℤ) - 1) 0]

/-- `SynHtDistRamWe`: the sections whose enables are assigned. The range is the operand's `m_distRamWeWidth`, with
a negative low bit when none was set. -/
def driven (l : List Section) (expr : Section) : List Section :=
  if l.length = 1 then l
  else l.filter fun r => expr.lowBit < 0 ∨ expr.lowBit ≤ r.lowBit ∧ r.highBit ≤ expr.highBit

/-- `SynHtDistRams`: the data width and the bits of each memory; `width` is the width of the RAM. -/
def memories (width : ℕ) (l : List Section) : List (ℤ × Section) :=
  if l.length = 1 then l.map fun r => ((width : ℤ), r) else l.map fun r => (r.highBit - r.lowBit + 1, r)

/-- A section has a bit. -/
def Section.Has (r : Section) (b : ℤ) : Prop := r.lowBit ≤ b ∧ b ≤ r.highBit

/-- A bit is in a section of the list. -/
def Covers (l : List Section) (b : ℤ) : Prop := ∃ r ∈ l, r.Has b

/-- A bit of a requested range. -/
def Requested (c : WeWidth) (b : ℤ) : Prop := (c.lowBit : ℤ) ≤ b ∧ b ≤ c.highBit

/-- **The sections partition the word** and suit the requests so far. -/
structure SectionsOk (dataWidth : ℕ) (reqs : List WeWidth) (l : List Section) : Prop where
  ordered : l.Pairwise fun r s => r.highBit < s.lowBit
  nonempty : ∀ r ∈ l, r.lowBit ≤ r.highBit
  covers : ∀ b, Covers l b ↔ 0 ≤ b ∧ b < dataWidth
  union : ∀ c ∈ reqs, ∃ front mid rest, l = front ++ mid ++ rest ∧ ∀ b, Covers mid b ↔ Requested c b
  drives : ∀ c ∈ reqs, ∀ b, Covers (driven l (.make c.highBit c.lowBit)) b ↔ Requested c b
  memory : memories dataWidth l = l.map fun r => (r.highBit - r.lowBit + 1, r)

/-- They do so after every request. -/
def Partitions (dataWidth : ℕ) (reqs : List WeWidth) : Prop :=
  ∀ pre, pre <+: reqs → SectionsOk dataWidth pre (sections dataWidth pre)

/-- What that needs: bits that a `short` holds, and single bits that earlier requests have cut off on both sides. -/
def Suits (dataWidth : ℕ) (reqs : List WeWidth) : Prop :=
  dataWidth ≤ 32768 ∧ ∀ pre c, pre ++ [c] <+: reqs → c.lowBit = c.highBit →
    CutBy dataWidth pre c.lowBit ∧ CutBy dataWidth pre (c.lowBit + 1)

/-! ### Words that a `short` holds -/

/-- A range of natural numbers as a section. -/
def ofWe (c : WeWidth) : Section := ⟨c.highBit, c.lowBit⟩

theorem toShort_le (x : ℤ) : toShort x ≤ 32767 := by
  unfold toShort
  omega

theorem toShort_of_lt {x : ℤ} (h0 : 0 ≤ x) (h : x < 32768) : toShort x = x := by
  unfold toShort
  omega

theorem make_of_lt {high low : ℕ} (hh : high < 32768) (hl : low < 32768) :
    Section.make high low = ofWe ⟨high, low⟩ := by
  rw [Section.make, toShort_of_lt (by omega) (by omega), toShort_of_lt (by omega) (by omega)]
  rfl

variable {dataWidth low high : ℕ} {l : List WeWidth} {c : WeWidth} {reqs : List WeWidth} {a z : ℕ}

theorem splitLow_ofWe (hl : low < 32768) (h : ∀ r ∈ l, r.lowBit < 32768) :
    splitLow low (l.map ofWe) = (RamWrite.splitLow low l).map ofWe := by
  induction l with
  | nil => rfl
  | cons r l ih =>
    have hr : r.lowBit < 32768 := h r List.mem_cons_self
    have hrest := ih fun s hs => h s (List.mem_cons_of_mem r hs)
    rw [List.map_cons, splitLow, RamWrite.splitLow, hrest]
    by_cases heq : low = r.lowBit
    · rw [if_pos (by rw [heq]; rfl), if_pos heq]
      rfl
    · have hne : ¬(low : ℤ) = (ofWe r).lowBit := fun h => heq (Int.ofNat.inj h)
      rw [if_neg hne, if_neg heq]
      by_cases hin : r.lowBit < low ∧ low ≤ r.highBit
      · have hin' : (low : ℤ) > (ofWe r).lowBit ∧ (low : ℤ) ≤ (ofWe r).highBit := by
          simp only [ofWe]
          omega
        have hpred : (low : ℤ) - 1 = ((low - 1 : ℕ) : ℤ) := by omega
        rw [if_pos hin', if_pos hin, toShort_of_lt (by omega) (by omega), hpred]
        have hmake : Section.make ((low - 1 : ℕ) : ℤ) (ofWe r).lowBit = ofWe ⟨low - 1, r.lowBit⟩ :=
          make_of_lt (by omega) hr
        rw [hmake]
        rfl
      · have hout : ¬((low : ℤ) > (ofWe r).lowBit ∧ (low : ℤ) ≤ (ofWe r).highBit) := by
          simp only [ofWe]
          omega
        rw [if_neg hout, if_neg hin]
        rfl

theorem splitHigh_ofWe (hl : high < 32768) (h : ∀ r ∈ l, r.lowBit < 32768 ∧ r.highBit < 32768) :
    splitHigh high (l.map ofWe) = (RamWrite.splitHigh high l).map ofWe := by
  induction l with
  | nil => rfl
  | cons r l ih =>
    have hr := h r List.mem_cons_self
    have hrest := ih fun s hs => h s (List.mem_cons_of_mem r hs)
    rw [List.map_cons, splitHigh, RamWrite.splitHigh, hrest]
    by_cases heq : high = r.highBit
    · rw [if_pos (by rw [heq]; rfl), if_pos heq]
      rfl
    · have hne : ¬(high : ℤ) = (ofWe r).highBit := fun h => heq (Int.ofNat.inj h)
      rw [if_neg hne, if_neg heq]
      by_cases hin : r.lowBit ≤ high ∧ high < r.highBit
      · have hin' : (high : ℤ) ≥ (ofWe r).lowBit ∧ (high : ℤ) < (ofWe r).highBit := by
          simp only [ofWe]
          omega
        rw [if_pos hin', if_pos hin, toShort_of_lt (by omega) (by omega)]
        have hmake : Section.make (high : ℤ) (ofWe r).lowBit = ofWe ⟨high, r.lowBit⟩ := make_of_lt hl hr.1
        rw [hmake]
        rfl
      · have hout : ¬((high : ℤ) ≥ (ofWe r).lowBit ∧ (high : ℤ) < (ofWe r).highBit) := by
          simp only [ofWe]
          omega
        rw [if_neg hout, if_neg hin]
        rfl

/-- **One request**, in a word that a `short` holds. -/
theorem setSubRange_ofWe (hW : dataWidth ≤ 32768) (h : TilesWe 0 l dataWidth) (hc : c.Inside dataWidth) :
    setSubRange (l.map ofWe) c = (setHtDistRamWeSubRange l c).map ofWe := by
  obtain ⟨hle, hlt⟩ := hc
  unfold setSubRange setHtDistRamWeSubRange wrEnWidth
  by_cases hone : c.lowBit = c.highBit
  · rw [if_pos (by omega), if_pos (by omega)]
  · have hbound {l' : List WeWidth} (hl' : TilesWe 0 l' dataWidth) : ∀ r ∈ l', r.lowBit < 32768 ∧ r.highBit < 32768 := by
      intro r hr
      have := hl'.bounds hr
      omega
    rw [if_neg (by omega), if_neg (by omega), splitLow_ofWe (by omega) fun r hr => (hbound h r hr).1,
      splitHigh_ofWe (by omega) (hbound (tiles_splitLow h))]

/-- **Up to 32768 bits** the members are not cut. -/
theorem sections_eq (hw : 0 < dataWidth) (hW : dataWidth ≤ 32768) (hreqs : ∀ c ∈ reqs, c.Inside dataWidth) :
    sections dataWidth reqs = (weWidths dataWidth reqs).map ofWe := by
  have hrun : ∀ (l : List WeWidth), TilesWe 0 l dataWidth →
      reqs.foldl setSubRange (l.map ofWe) = (reqs.foldl setHtDistRamWeSubRange l).map ofWe := by
    induction reqs with
    | nil => exact fun l _ => rfl
    | cons c reqs ih =>
      intro l hl
      have hc := hreqs c List.mem_cons_self
      rw [List.foldl_cons, List.foldl_cons, setSubRange_ofWe hW hl hc]
      exact ih (fun d hd => hreqs d (List.mem_cons_of_mem c hd)) _ (setHtDistRamWeSubRange_spec hl hc).1
  have hlast : dataWidth - 1 + 1 = dataWidth := by omega
  have hstart : TilesWe 0 [⟨dataWidth - 1, 0⟩] dataWidth := ⟨rfl, Nat.zero_le _, hlast⟩
  have hmake : Section.make ((dataWidth : ℤ) - 1) 0 = ofWe ⟨dataWidth - 1, 0⟩ := by
    have hpred : (dataWidth : ℤ) - 1 = ((dataWidth - 1 : ℕ) : ℤ) := by omega
    have hlt : dataWidth - 1 < 32768 := by omega
    rw [hpred]
    exact make_of_lt hlt (show 0 < 32768 by omega)
  rw [sections, hmake]
  exact hrun _ hstart

/-! ### Tilings as sections -/

theorem has_ofWe {r : WeWidth} {b : ℤ} : (ofWe r).Has b ↔ (r.lowBit : ℤ) ≤ b ∧ b ≤ r.highBit := Iff.rfl

/-- What a tiling covers. -/
theorem covers_tiles (h : TilesWe a l z) (b : ℤ) : Covers (l.map ofWe) b ↔ (a : ℤ) ≤ b ∧ b < z := by
  constructor
  · rintro ⟨s, hs, hb⟩
    obtain ⟨r, hr, rfl⟩ := List.mem_map.1 hs
    obtain ⟨h1, h2⟩ := has_ofWe.1 hb
    have := h.bounds hr
    omega
  · rintro ⟨h1, h2⟩
    obtain ⟨n, rfl⟩ := Int.eq_ofNat_of_zero_le (show 0 ≤ b by omega)
    obtain ⟨r, hr, hlo, hhi⟩ := h.exists_mem (b := n) (by omega) (by omega)
    exact ⟨ofWe r, List.mem_map_of_mem hr, has_ofWe.2 ⟨by exact_mod_cast hlo, by exact_mod_cast hhi⟩⟩

/-- **A range between two cuts** is a union of sections that stand together. -/
theorem exists_union (h : TilesWe 0 l dataWidth) (hc : c.Inside dataWidth)
    (hlow : Cut WeWidth.lowBit l dataWidth c.lowBit) (hhigh : Cut WeWidth.lowBit l dataWidth (c.highBit + 1)) :
    ∃ front mid rest, l = front ++ mid ++ rest ∧ TilesWe c.lowBit mid (c.highBit + 1) := by
  obtain ⟨front, behind, heq, hfront, hbehind⟩ := h.split hlow
  have hle : c.lowBit ≤ c.highBit + 1 := hc.1.trans (Nat.le_succ _)
  rw [heq] at hhigh
  obtain ⟨mid, rest, hmid, hm, -⟩ := hbehind.split (cut_of_append hfront hle hhigh)
  exact ⟨front, mid, rest, by rw [heq, hmid, List.append_assoc], hm⟩

/-- **The assignments for a range between two cuts** drive its bits. -/
theorem driven_iff (hW : dataWidth ≤ 32768) (h : TilesWe 0 l dataWidth) (hc : c.Inside dataWidth)
    (hlow : Cut WeWidth.lowBit l dataWidth c.lowBit) (hhigh : Cut WeWidth.lowBit l dataWidth (c.highBit + 1)) (b : ℤ) :
    Covers (driven (l.map ofWe) (.make c.highBit c.lowBit)) b ↔ Requested c b := by
  obtain ⟨hle, hlt⟩ := hc
  have hmake : Section.make c.highBit c.lowBit = ofWe c := make_of_lt (by omega) (by omega)
  rw [driven, hmake, List.length_map]
  by_cases hone : l.length = 1
  · -- one section: the range has both ends of the word
    obtain ⟨r, rfl, hlo, hhi⟩ := h.of_length_one hone
    have hl0 : c.lowBit = 0 := by
      rcases cut_cons.1 hlow with heq | hend | ⟨d, hd, -⟩
      · omega
      · omega
      · cases hd
    have hh0 : c.highBit + 1 = dataWidth := by
      rcases cut_cons.1 hhigh with heq | hend | ⟨d, hd, -⟩
      · omega
      · exact hend
      · cases hd
    rw [if_pos hone, covers_tiles h, Requested]
    omega
  · rw [if_neg hone]
    constructor
    · rintro ⟨s, hs, hb1, hb2⟩
      obtain ⟨-, hin⟩ := List.mem_filter.1 hs
      have hin' := of_decide_eq_true hin
      simp only [ofWe] at hin'
      rw [Requested]
      omega
    · rintro ⟨h1, h2⟩
      obtain ⟨n, rfl⟩ := Int.eq_ofNat_of_zero_le (show 0 ≤ b by omega)
      obtain ⟨r, hr, hr1, hr2, hr3, hr4⟩ :=
        h.exists_within (b := n) hlow hhigh (Nat.zero_le n) (by omega) (by omega) (by omega)
      refine ⟨ofWe r, List.mem_filter.2 ⟨List.mem_map_of_mem hr, decide_eq_true ?_⟩, ?_⟩
      · simp only [ofWe]
        omega
      · rw [has_ofWe]
        omega

theorem memories_eq (h : TilesWe 0 l dataWidth) :
    memories dataWidth (l.map ofWe) = (l.map ofWe).map fun r => (r.highBit - r.lowBit + 1, r) := by
  unfold memories
  split
  · rename_i hlen
    rw [List.length_map] at hlen
    obtain ⟨r, rfl, hlo, hhi⟩ := h.of_length_one hlen
    have hwidth : (dataWidth : ℤ) = (ofWe r).highBit - (ofWe r).lowBit + 1 := by
      simp only [ofWe]
      omega
    simp only [List.map_cons, List.map_nil, hwidth]
  · rfl

/-- **Sections that are cut at both ends of every request** partition the word. -/
theorem sectionsOk_of_cuts (hW : dataWidth ≤ 32768) (h : TilesWe 0 l dataWidth) (hreqs : ∀ c ∈ reqs, c.Inside dataWidth)
    (hcuts : ∀ c ∈ reqs, Cut WeWidth.lowBit l dataWidth c.lowBit ∧ Cut WeWidth.lowBit l dataWidth (c.highBit + 1)) :
    SectionsOk dataWidth reqs (l.map ofWe) := by
  refine ⟨?_, ?_, ?_, ?_, ?_, memories_eq h⟩
  · rw [List.pairwise_map]
    refine h.pairwise.imp fun hlt => ?_
    simp only [ofWe]
    exact_mod_cast hlt
  · intro s hs
    obtain ⟨r, hr, rfl⟩ := List.mem_map.1 hs
    have := (h.bounds hr).2.1
    simp only [ofWe]
    exact_mod_cast this
  · intro b
    rw [covers_tiles h]
    exact Iff.rfl
  · intro c hc
    obtain ⟨front, mid, rest, heq, hmid⟩ := exists_union h (hreqs c hc) (hcuts c hc).1 (hcuts c hc).2
    refine ⟨front.map ofWe, mid.map ofWe, rest.map ofWe, by rw [heq, List.map_append, List.map_append], ?_⟩
    intro b
    rw [covers_tiles hmid, Requested]
    omega
  · intro c hc b
    exact driven_iff hW h (hreqs c hc) (hcuts c hc).1 (hcuts c hc).2 b

/-! ### When the word is partitioned -/

/-- The first section shows whether the members hold the width. -/
theorem width_le (h : SectionsOk dataWidth [] (sections dataWidth [])) (hw : 0 < dataWidth) : dataWidth ≤ 32768 := by
  obtain ⟨r, hr, hb⟩ := (h.covers (dataWidth - 1)).2 ⟨by omega, by omega⟩
  have hone : r = Section.make ((dataWidth : ℤ) - 1) 0 := List.mem_singleton.1 hr
  have hle := hb.2
  rw [hone] at hle
  have hshort := toShort_le ((dataWidth : ℤ) - 1)
  simp only [Section.make] at hle
  omega

theorem cutBy_append {extra : List WeWidth} {b : ℕ} (h : CutBy dataWidth reqs b) : CutBy dataWidth (reqs ++ extra) b := by
  rcases h with h | h | ⟨c, hc, hne, hb⟩
  · exact .inl h
  · exact .inr (.inl h)
  · exact .inr (.inr ⟨c, List.mem_append_left extra hc, hne, hb⟩)

/-- A request for a single bit cuts nothing. -/
theorem cutBy_single {b : ℕ} (hone : c.lowBit = c.highBit) (h : CutBy dataWidth (reqs ++ [c]) b) :
    CutBy dataWidth reqs b := by
  rcases h with h | h | ⟨d, hd, hne, hb⟩
  · exact .inl h
  · exact .inr (.inl h)
  · rcases List.mem_append.1 hd with hd | hd
    · exact .inr (.inr ⟨d, hd, hne, hb⟩)
    · rw [List.mem_singleton.1 hd] at hne
      exact absurd hone hne

/-- **A single bit that is a section** was cut off by earlier requests. -/
theorem cuts_of_single (hw : 0 < dataWidth) (hW : dataWidth ≤ 32768) (hreqs : ∀ d ∈ reqs ++ [c], d.Inside dataWidth)
    (hone : c.lowBit = c.highBit) (h : SectionsOk dataWidth (reqs ++ [c]) (sections dataWidth (reqs ++ [c]))) :
    CutBy dataWidth reqs c.lowBit ∧ CutBy dataWidth reqs (c.lowBit + 1) := by
  obtain ⟨htiles, hcut⟩ := weWidths_spec hw hreqs
  obtain ⟨front, mid, rest, heq, hmid⟩ := h.union c (List.mem_append_right _ (List.mem_singleton.2 rfl))
  obtain ⟨s, hs, hb⟩ := (hmid c.lowBit).2 ⟨Int.le_refl _, by omega⟩
  have hmem : s ∈ sections dataWidth (reqs ++ [c]) := by
    rw [heq]
    exact List.mem_append_left _ (List.mem_append_right _ hs)
  rw [sections_eq hw hW hreqs] at hmem
  obtain ⟨r, hr, rfl⟩ := List.mem_map.1 hmem
  have hbounds := htiles.bounds hr
  -- both ends of the section are in the range, which has one bit
  have hlo := (hmid (ofWe r).lowBit).1 ⟨ofWe r, hs, Int.le_refl _, by simp only [ofWe]; omega⟩
  have hhi := (hmid (ofWe r).highBit).1 ⟨ofWe r, hs, by simp only [ofWe]; omega, Int.le_refl _⟩
  simp only [Requested, ofWe] at hlo hhi
  have hlt := (hreqs c (List.mem_append_right _ (List.mem_singleton.2 rfl))).2
  obtain ⟨h1, h2⟩ := (htiles.mem_single (b := c.lowBit) (Nat.zero_le _) (by omega)).1 ⟨r, hr, by omega, by omega⟩
  exact ⟨cutBy_single hone ((hcut _).1 h1), cutBy_single hone ((hcut _).1 h2)⟩

/-- The requests of a sequence that suits the word are cut at both ends. -/
theorem cuts_of_suits (hw : 0 < dataWidth) {pre : List WeWidth} (hpre : ∀ d ∈ pre, d.Inside dataWidth)
    (hsuits : ∀ front c, front ++ [c] <+: pre → c.lowBit = c.highBit →
      CutBy dataWidth front c.lowBit ∧ CutBy dataWidth front (c.lowBit + 1)) (hc : c ∈ pre) :
    Cut WeWidth.lowBit (weWidths dataWidth pre) dataWidth c.lowBit ∧
      Cut WeWidth.lowBit (weWidths dataWidth pre) dataWidth (c.highBit + 1) := by
  obtain ⟨-, hcut⟩ := weWidths_spec hw hpre
  rw [hcut, hcut]
  by_cases hone : c.lowBit = c.highBit
  · obtain ⟨front, rest, rfl⟩ := List.append_of_mem hc
    have hpref : front ++ [c] <+: front ++ c :: rest := ⟨rest, by simp⟩
    obtain ⟨h1, h2⟩ := hsuits front c hpref hone
    rw [← hone]
    exact ⟨cutBy_append h1, cutBy_append h2⟩
  · exact ⟨.inr (.inr ⟨c, hc, hone, .inl rfl⟩), .inr (.inr ⟨c, hc, hone, .inr rfl⟩)⟩

/-- **The sections partition the word after every request** exactly if the width fits a `short` and every
request for a single bit finds it cut off on both sides. -/
theorem sections_iff (hw : 0 < dataWidth) (hreqs : ∀ c ∈ reqs, c.Inside dataWidth) :
    Partitions dataWidth reqs ↔ Suits dataWidth reqs := by
  constructor
  · intro h
    have hW : dataWidth ≤ 32768 := width_le (h [] List.nil_prefix) hw
    refine ⟨hW, ?_⟩
    intro pre c hpre hone
    exact cuts_of_single hw hW (fun d hd => hreqs d (hpre.subset hd)) hone (h _ hpre)
  · rintro ⟨hW, hsuits⟩ pre hpre
    have hin : ∀ d ∈ pre, d.Inside dataWidth := fun d hd => hreqs d (hpre.subset hd)
    rw [sections_eq hw hW hin]
    exact sectionsOk_of_cuts hW (weWidths_spec hw hin).1 hin
      fun c hc => cuts_of_suits hw hin (fun front c hfront => hsuits front c (hfront.trans hpre)) hc

theorem sections_iff_demo : Partitions 16 [⟨7, 4⟩, ⟨9, 2⟩] ↔ Suits 16 [⟨7, 4⟩, ⟨9, 2⟩] := by
  refine sections_iff (by decide) ?_
  intro c hc
  simp only [List.mem_cons, List.not_mem_nil, or_false] at hc
  rcases hc with rfl | rfl <;> exact ⟨by decide, by decide⟩

/-- **A single bit is not cut off**: the assignment for bit 0 drives all eight bits. -/
theorem single_bit_drives_all : WeWidth.Inside ⟨0, 0⟩ 8 ∧ ¬Partitions 8 [⟨0, 0⟩] := by
  refine ⟨⟨by decide, by decide⟩, ?_⟩
  intro h
  have hall := ((h [⟨0, 0⟩] (List.prefix_refl _)).drives ⟨0, 0⟩ (List.mem_singleton.2 rfl) 7).1
    ⟨⟨7, 0⟩, by decide, by decide, by decide⟩
  exact absurd hall.2 (by decide)

end OpenHT.Htfe.RamSections
