import OpenHT.Htfe.RamRanges
import OpenHT.Htfe.RamWalk

/-!
# What a partial write enables

* `writeMem_const`, `writeMem_var`: the assignments of a statement.
* `ExactWhen`: a last bit on its own is cut off, a bit index that is no constant is 0, and literals do no harm.
* `partial_write_exact`: the bits of the addressed element are enabled exactly then.
-/

namespace OpenHT.Htfe.RamWrite

open Tiling

variable {V : Type} {ρ : V} {path : List (CScSubField V)} {dataWidth : ℕ} {calls : List WeWidth}

/-- The condition under which a write enables exactly the bits of the addressed element. `calls` are the sub-ranges of
all writes. -/
structure ExactWhen (dataWidth : ℕ) (path : List (CScSubField V)) (calls : List WeWidth) (ρ : V) : Prop where
  /-- A last part of one bit is cut off on both sides. -/
  lastBit : lastWidth dataWidth path % 64 = 1 →
    CutBy dataWidth calls (addr ρ path + lastWidth dataWidth path - 1) ∧
      CutBy dataWidth calls (addr ρ path + lastWidth dataWidth path)
  /-- Words of one bit have constant indices. -/
  word : dataWidth = 1 → ∀ x ∈ slots path, x.1.evalConstantExpr ≠ none
  bitIndex : BitIndexZero ρ path
  harmless : (∃ x ∈ slots path, x.1.evalConstantExpr = none) → Harmless ρ ((slots path).map Prod.fst)

/-- All sub-ranges are in the word, and those of the statement are among them. -/
structure AllCalls (dataWidth : ℕ) (path : List (CScSubField V)) (calls : List WeWidth) : Prop where
  inside : ∀ c ∈ calls, c.Inside dataWidth
  own : ∀ n stmts, writeMem dataWidth path n = .ok stmts → ∀ s ∈ stmts, ∀ c ∈ s.range, c ∈ calls

theorem writeMem_const (hconst : ∀ x ∈ slots path, x.1.evalConstantExpr ≠ none) (n : ℕ) :
    writeMem dataWidth path n = .ok (if dataWidth = 1 then [⟨none, .constant 1⟩]
      else (partsOf (addr ρ path) (lastWidth dataWidth path)).map fun c => ⟨some c, .constant 1⟩) := by
  unfold writeMem
  rw [@getSubFieldRange_const V ρ path hconst 0 dataWidth true]
  dsimp only
  rw [Nat.zero_add, if_pos rfl]

/-- The dimensions of the indices that are no constants. -/
theorem dims_pos {width : ℕ} (hin : InBounds ρ width path) : ∀ x ∈ slots path, x.1.evalConstantExpr = none → 0 < x.2 := by
  induction path generalizing width with
  | nil => exact fun x hx => (nomatch hx)
  | cons f path ih =>
    intro x hx hnone
    rcases List.mem_append.1 hx with hx | hx
    · cases hm : f.pIdent with
      | none =>
        have hmem := List.mem_reverse.1 hx
        rw [hm] at hmem
        have hone : x.2 = 1 := List.mem_singleton.1 (List.of_mem_zip (a := x.1) (b := x.2) hmem).2
        omega
      | some m =>
        have hrange := hin.1
        rw [hm] at hrange
        have := f.lt_of_inRange hm hrange x hx
        omega
    · exact ih hin.2 x hx hnone

theorem mapM_ok {α β : Type} {f : α → Except Stop β} {g : α → β} {l : List α} (h : ∀ a ∈ l, f a = .ok (g a)) :
    l.mapM f = .ok (l.map g) := by
  induction l with
  | nil => rfl
  | cons a l ih =>
    rw [List.mapM_cons, h a List.mem_cons_self, ih fun b hb => h b (List.mem_cons_of_mem a hb)]
    rfl

/-- The condition of an assignment in a valuation: the indices have these values, and no literal does harm. -/
theorem condition_spec (hvar : ∃ x ∈ slots path, x.1.evalConstantExpr = none) {is : List ℕ}
    (h : Admissible (slots path) is) : ∃ cond, condition (slots path) is = .ok cond ∧
      (cond.eval ρ ≠ 0 ↔ Harmless ρ ((slots path).map Prod.fst) ∧ is = valuesOf ρ (slots path)) := by
  by_cases hharm : Harmless ρ ((slots path).map Prod.fst)
  · have hne : slots path ≠ [] := by
      intro hnil
      obtain ⟨x, hx, _⟩ := hvar
      rw [hnil] at hx
      cases hx
    obtain ⟨cond, hcond, heval⟩ := condition_harmless hne h.length hharm
    exact ⟨cond, hcond, heval.trans ⟨fun he => ⟨hharm, he⟩, And.right⟩⟩
  · obtain ⟨cond, hcond, heval⟩ := condition_broken h hharm
    exact ⟨cond, hcond, fun hne => absurd heval hne, fun hboth => absurd hboth.1 hharm⟩

/-- **The assignments with a condition**: one for every value of the indices and every part. -/
theorem writeMem_var (ρ : V) (hin : InBounds ρ dataWidth path) (hvar : ∃ x ∈ slots path, x.1.evalConstantExpr = none)
    (hw : dataWidth ≠ 1) :
    ∃ stmts, (∃ N, ∀ n, N ≤ n → writeMem dataWidth path n = .ok stmts) ∧
      (∀ s ∈ stmts, ∃ is c, Admissible (slots path) is ∧ c ∈ partsOf (lowBit path is) (lastWidth dataWidth path) ∧
        s.range = some c ∧
        (s.value.eval ρ ≠ 0 ↔ Harmless ρ ((slots path).map Prod.fst) ∧ is = valuesOf ρ (slots path))) ∧
      ∀ is c, Admissible (slots path) is → c ∈ partsOf (lowBit path is) (lastWidth dataWidth path) →
        ∃ s ∈ stmts, s.range = some c := by
  classical
  obtain ⟨N, hN⟩ := walk_of_fixed (fixed_first (slots path))
  have hmem {is : List ℕ} := @mem_walk V (slots path) is (dims_pos hin)
  have hcond (is : List ℕ) : ∃ cond, Admissible (slots path) is → condition (slots path) is = .ok cond ∧
      (cond.eval ρ ≠ 0 ↔ Harmless ρ ((slots path).map Prod.fst) ∧ is = valuesOf ρ (slots path)) := by
    by_cases h : Admissible (slots path) is
    · obtain ⟨cond, hc⟩ := condition_spec hvar h
      exact ⟨cond, fun _ => hc⟩
    · exact ⟨.constant 0, fun h' => absurd h' h⟩
  choose cond hspec using hcond
  let block (is : List ℕ) : List (WrEn V) :=
    (partsOf (lowBit path is) (lastWidth dataWidth path)).map fun c => ⟨some c, cond is⟩
  refine ⟨((firstIdx (slots path) :: behind (slots path) (firstIdx (slots path))).map block).flatten,
    ⟨N, fun n hn => ?_⟩, ?_, ?_⟩
  · have hfalse := getSubFieldRange_var hvar 0 dataWidth true
    let body (idxList : List ℕ) : Except Stop (List (WrEn V)) := do
      let cond ← condition (slots path) idxList
      return (partsOf (lowBit path idxList) (lastWidth dataWidth path)).map fun c => ⟨some c, cond⟩
    have hbody : ∀ is ∈ firstIdx (slots path) :: behind (slots path) (firstIdx (slots path)), body is = .ok (block is) := by
      intro is his
      show (condition (slots path) is >>= fun cond => _) = _
      rw [(hspec is (hmem.1 his)).1]
      rfl
    have hblocks := mapM_ok hbody
    unfold writeMem
    dsimp only
    rw [hfalse, if_neg Bool.false_ne_true, if_neg hw, hN n hn]
    show (List.mapM body _ >>= _) = _
    rw [hblocks]
    rfl
  · intro s hs
    obtain ⟨b, hb, hsb⟩ := List.mem_flatten.1 hs
    obtain ⟨is, his, rfl⟩ := List.mem_map.1 hb
    obtain ⟨c, hc, rfl⟩ := List.mem_map.1 hsb
    have hadm := hmem.1 his
    exact ⟨is, c, hadm, hc, rfl, (hspec is hadm).2⟩
  · intro is c hadm hc
    exact ⟨⟨some c, cond is⟩, List.mem_flatten.2 ⟨block is, List.mem_map_of_mem (hmem.2 hadm),
      List.mem_map.2 ⟨c, hc, rfl⟩⟩, rfl⟩

/-! ## The bits -/

theorem partsOf_spec {low width : ℕ} (hw : 0 < width) :
    (∀ c ∈ partsOf low width, low ≤ c.lowBit ∧ c.lowBit ≤ c.highBit ∧ c.highBit < low + width) ∧
    (∀ b, low ≤ b → b < low + width → ∃ c ∈ partsOf low width, c.lowBit ≤ b ∧ b ≤ c.highBit) ∧
    (∀ c ∈ partsOf low width, c.lowBit = c.highBit → c.lowBit = low + width - 1 ∧ width % 64 = 1) ∧
    (∀ c ∈ partsOf low width, c.highBit = low + width - 1 → width % 64 = 1 → c.lowBit = low + width - 1) := by
  have hwidth : low + width - 1 + 1 - low = width := by omega
  obtain ⟨h1, h2, h3, h4⟩ := @parts_spec low (low + width - 1) width (by omega)
  rw [hwidth] at h3 h4
  refine ⟨fun c hc => ?_, fun b hlb hbh => h2 b hlb (by omega), h3, h4⟩
  have := h1 c hc
  omega

/-- If all assignments that set a bit have one value, the bit has this value. -/
theorem enabled_iff {l : List WeWidth} {stmts : List (WrEn V)} {b : ℕ} {T : Prop}
    (h : ∀ s ∈ stmts, synHtDistRamWe l s.range b = true → (s.value.eval ρ ≠ 0 ↔ T)) :
    enabled l stmts ρ b = true ↔ (∃ s ∈ stmts, synHtDistRamWe l s.range b = true) ∧ T := by
  induction stmts with
  | nil => exact ⟨fun he => (nomatch he), fun he => (nomatch he.1.choose_spec.1)⟩
  | cons s stmts ih =>
    have hrest := ih fun t ht => h t (List.mem_cons_of_mem s ht)
    have hcons : enabled l (s :: stmts) ρ b =
        if synHtDistRamWe l s.range b then s.value.eval ρ != 0 else enabled l stmts ρ b := rfl
    rw [hcons]
    by_cases hset : synHtDistRamWe l s.range b = true
    · rw [if_pos hset, bne_iff_ne, h s List.mem_cons_self hset]
      exact ⟨fun hT => ⟨⟨s, List.mem_cons_self, hset⟩, hT⟩, And.right⟩
    · rw [if_neg hset, hrest, List.exists_mem_cons_iff]
      exact and_congr_left fun _ => ⟨.inr, fun he => he.elim (fun hs => absurd hs hset) id⟩

/-- Assignments that agree on two bits. -/
theorem enabled_congr {l : List WeWidth} {stmts : List (WrEn V)} {b b' : ℕ}
    (h : ∀ s ∈ stmts, synHtDistRamWe l s.range b = synHtDistRamWe l s.range b') :
    enabled l stmts ρ b = enabled l stmts ρ b' := by
  induction stmts with
  | nil => rfl
  | cons s stmts ih =>
    have hrest := ih fun t ht => h t (List.mem_cons_of_mem s ht)
    unfold enabled at hrest ⊢
    rw [List.foldr_cons, List.foldr_cons, hrest, h s List.mem_cons_self]

/-- There is one list of assignments. -/
theorem enablesExactly_iff {stmts : List (WrEn V)} (h : ∃ N, ∀ n, N ≤ n → writeMem dataWidth path n = .ok stmts) :
    EnablesExactly dataWidth path calls ρ ↔ ∀ bit, enabled (weWidths dataWidth calls) stmts ρ bit = true ↔
      addr ρ path ≤ bit ∧ bit < addr ρ path + lastWidth dataWidth path := by
  refine ⟨?_, fun hbits => ⟨stmts, h, hbits⟩⟩
  rintro ⟨stmts', ⟨N', hN'⟩, hbits⟩
  obtain ⟨N, hN⟩ := h
  have hboth := (hN (max N N') (Nat.le_max_left _ _)).symm.trans (hN' _ (Nat.le_max_right _ _))
  rwa [Except.ok.inj hboth]

/-- The assignments of a statement in a word of more than one bit: for every value of the indices those to the parts of
one element, and they hold at the values of the valuation only. -/
structure Assigns (ρ : V) (dataWidth : ℕ) (path : List (CScSubField V)) (stmts : List (WrEn V)) : Prop where
  returns : ∃ N, ∀ n, N ≤ n → writeMem dataWidth path n = .ok stmts
  value : ∀ s ∈ stmts, ∃ is c, Admissible (slots path) is ∧ c ∈ partsOf (lowBit path is) (lastWidth dataWidth path) ∧
    s.range = some c ∧ (s.value.eval ρ ≠ 0 ↔ is = valuesOf ρ (slots path) ∧
      ((∃ x ∈ slots path, x.1.evalConstantExpr = none) → Harmless ρ ((slots path).map Prod.fst)))
  every : ∀ is c, Admissible (slots path) is → c ∈ partsOf (lowBit path is) (lastWidth dataWidth path) →
    ∃ s ∈ stmts, s.range = some c

theorem exists_assigns (hin : InBounds ρ dataWidth path) (hw : dataWidth ≠ 1) :
    ∃ stmts, Assigns ρ dataWidth path stmts := by
  by_cases hvar : ∃ x ∈ slots path, x.1.evalConstantExpr = none
  · obtain ⟨stmts, hret, hvalue, hevery⟩ := writeMem_var ρ hin hvar hw
    refine ⟨stmts, hret, fun s hs => ?_, hevery⟩
    obtain ⟨is, c, hadm, hc, hrange, heval⟩ := hvalue s hs
    exact ⟨is, c, hadm, hc, hrange, heval.trans ⟨fun h => ⟨h.2, fun _ => h.1⟩, fun h => ⟨h.2 hvar, h.1⟩⟩⟩
  · have hconst : ∀ x ∈ slots path, x.1.evalConstantExpr ≠ none := fun x hx hnone => hvar ⟨x, hx, hnone⟩
    have hadm : Admissible (slots path) (valuesOf ρ (slots path)) := by
      rw [admissible_iff, valuesOf, List.forall₂_map_right_iff, List.forall₂_same]
      intro x hx
      unfold AdmissibleAt
      split
      · rename_i c hc
        exact x.1.sound c hc ρ
      · rename_i hc
        exact absurd hc (hconst x hx)
    have honly {is : List ℕ} (h : Admissible (slots path) is) : is = valuesOf ρ (slots path) := by
      refine List.ext_getElem (by rw [h.length, hadm.length]) fun t h1 h2 => ?_
      have hts : t < (slots path).length := by rwa [← h.length]
      obtain ⟨c, hc⟩ := Option.ne_none_iff_exists'.1 (hconst _ (List.getElem_mem hts))
      rw [h.constant hts h1 hc, hadm.constant hts h2 hc]
    have hret := @writeMem_const V ρ path dataWidth hconst
    simp only [if_neg hw] at hret
    refine ⟨_, ⟨0, fun n _ => hret n⟩, fun s hs => ?_, fun is c his hc => ?_⟩
    · obtain ⟨c, hc, rfl⟩ := List.mem_map.1 hs
      refine ⟨_, c, hadm, ?_, rfl, fun _ => ⟨rfl, fun h => absurd h hvar⟩, fun _ => Nat.one_ne_zero⟩
      rwa [lowBit_values]
    · rw [honly his, lowBit_values] at hc
      exact ⟨_, List.mem_map_of_mem hc, rfl⟩

/-! ## Exactly the addressed bits -/

theorem bitIndexZero_of_const (hconst : ∀ x ∈ slots path, x.1.evalConstantExpr ≠ none) : BitIndexZero ρ path := by
  intro f hf hnone e he hvar
  have hexprs : e ∈ f.slots.map Prod.fst := by
    rw [f.exprs_slots]
    exact List.mem_reverse.2 he
  obtain ⟨x, hx, rfl⟩ := List.mem_map.1 hexprs
  exact absurd hvar (hconst x (List.mem_flatMap.2 ⟨f, hf, hx⟩))

/-- The ranges of a word of one bit. -/
theorem one_range {l : List WeWidth} (h : TilesWe 0 l 1) : l.length = 1 := by
  cases l with
  | nil => cases h
  | cons r l =>
    obtain ⟨_, _, hl⟩ := h
    cases l with
    | nil => rfl
    | cons r' l =>
      obtain ⟨_, hle, hrest⟩ := hl
      have := hrest.le
      omega

section Bits

variable {stmts : List (WrEn V)} {b : ℕ}

/-- If there is one range, an element of more than one bit is the whole word, and has no last bit of its own. -/
theorem Assigns.whole (h : Assigns ρ dataWidth path stmts) (hf : Fits dataWidth path) (hin : InBounds ρ dataWidth path)
    (hcalls : AllCalls dataWidth path calls) (hlen : (weWidths dataWidth calls).length = 1)
    (hw : lastWidth dataWidth path ≠ 1) (hpos : 0 < dataWidth) {is : List ℕ} (hadm : Admissible (slots path) is) :
    lowBit path is = 0 ∧ dataWidth ≤ lastWidth dataWidth path ∧ lastWidth dataWidth path % 64 ≠ 1 := by
  obtain ⟨htiles, hcut⟩ := weWidths_spec hpos hcalls.inside
  obtain ⟨N, hN⟩ := h.returns
  have hlast := lastWidth_pos hf
  obtain ⟨hbounds, hcover, hsingle, hend⟩ := @partsOf_spec (lowBit path is) _ hlast
  obtain ⟨c, hc, hlow, hhigh⟩ := hcover (lowBit path is) (Nat.le_refl _) (by omega)
  obtain ⟨s, hs, hrange⟩ := h.every is c hadm hc
  have hmem : c ∈ calls := hcalls.own N stmts (hN N (Nat.le_refl N)) s hs c hrange
  have hinside := hcalls.inside c hmem
  have hfit := lowBit_within hf hin hadm
  have hb := hbounds c hc
  have hne : c.lowBit ≠ c.highBit := fun heq => by
    have := hsingle c hc heq
    omega
  obtain ⟨r, hr, hr1, hr2⟩ := htiles.of_length_one hlen
  have hends {x : ℕ} (hx : CutBy dataWidth calls x) : x = 0 ∨ x = dataWidth := by
    rcases (hcut x).2 hx with hx | ⟨d, hd, hx⟩
    · exact .inr hx
    · rw [hr] at hd
      obtain rfl := List.mem_singleton.1 hd
      exact .inl (hx.symm.trans hr1)
  have h1 := hends (.inr (.inr ⟨c, hmem, hne, .inl rfl⟩))
  have h2 := hends (.inr (.inr ⟨c, hmem, hne, .inr rfl⟩))
  obtain ⟨_, hlt⟩ := hinside
  refine ⟨by omega, by omega, fun hmod => ?_⟩
  have := hend c hc (by omega) hmod
  omega

/-- **An assignment sets bits of its element only.** -/
theorem Assigns.inside (h : Assigns ρ dataWidth path stmts) (hf : Fits dataWidth path) (hin : InBounds ρ dataWidth path)
    (hcalls : AllCalls dataWidth path calls)
    (hlen : ¬((weWidths dataWidth calls).length = 1 ∧ lastWidth dataWidth path = 1)) (hpos : 0 < dataWidth) {is : List ℕ}
    {c : WeWidth} (hadm : Admissible (slots path) is) (hc : c ∈ partsOf (lowBit path is) (lastWidth dataWidth path))
    (hset : synHtDistRamWe (weWidths dataWidth calls) (some c) b = true) :
    lowBit path is ≤ b ∧ b < lowBit path is + lastWidth dataWidth path := by
  by_cases hone : (weWidths dataWidth calls).length = 1
  · obtain ⟨htiles, _⟩ := weWidths_spec hpos hcalls.inside
    have hb := (sets_whole htiles hone).1 hset
    have hwhole := h.whole hf hin hcalls hone (fun hw => hlen ⟨hone, hw⟩) hpos hadm
    omega
  · have hb := sets_inside hone hset
    have hbounds := (partsOf_spec (lastWidth_pos hf)).1 c hc
    omega

/-- **The bits of the addressed element** are set, except for a last one on its own that is not cut off. -/
theorem Assigns.sets_iff (h : Assigns ρ dataWidth path stmts) (hf : Fits dataWidth path) (hin : InBounds ρ dataWidth path)
    (hcalls : AllCalls dataWidth path calls)
    (hlen : ¬((weWidths dataWidth calls).length = 1 ∧ lastWidth dataWidth path = 1)) (hpos : 0 < dataWidth)
    (hadm : Admissible (slots path) (valuesOf ρ (slots path))) :
    (∀ b, addr ρ path ≤ b → b < addr ρ path + lastWidth dataWidth path →
      ∃ s ∈ stmts, synHtDistRamWe (weWidths dataWidth calls) s.range b = true) ↔
      (lastWidth dataWidth path % 64 = 1 →
        CutBy dataWidth calls (addr ρ path + lastWidth dataWidth path - 1) ∧
          CutBy dataWidth calls (addr ρ path + lastWidth dataWidth path)) := by
  obtain ⟨htiles, hcut⟩ := weWidths_spec hpos hcalls.inside
  have hlast := lastWidth_pos hf
  have hfit := lowBit_within hf hin hadm
  rw [lowBit_values] at hfit
  obtain ⟨hbounds, hcover, hsingle, hend⟩ := @partsOf_spec (addr ρ path) _ hlast
  constructor
  · intro hall hmod
    have hone : (weWidths dataWidth calls).length ≠ 1 := fun hone =>
      (h.whole hf hin hcalls hone (fun hw => hlen ⟨hone, hw⟩) hpos hadm).2.2 hmod
    obtain ⟨s, hs, hset⟩ := hall (addr ρ path + lastWidth dataWidth path - 1) (by omega) (by omega)
    obtain ⟨is, c, his, hc, hrange, _⟩ := h.value s hs
    rw [hrange] at hset
    have hb := h.inside hf hin hcalls hlen hpos his hc hset
    -- the elements do not overlap, so it is an assignment to the addressed one
    have hsame : is = valuesOf ρ (slots path) := Classical.byContradiction fun hne => by
      have hapart := lowBit_apart hf hin his hadm hne
      rw [lowBit_values] at hapart
      omega
    rw [hsame, lowBit_values] at hc
    have hbit := sets_inside hone hset
    have hcb := hbounds c hc
    have hlow := hend c hc (by omega) hmod
    have hpart : c = ⟨addr ρ path + lastWidth dataWidth path - 1, addr ρ path + lastWidth dataWidth path - 1⟩ := by
      cases c
      dsimp only at hlow hcb hbit
      congr 1
      omega
    rw [hpart] at hset
    have hcuts := (sets_single htiles hone (by omega)).1 hset
    have hsucc : addr ρ path + lastWidth dataWidth path - 1 + 1 = addr ρ path + lastWidth dataWidth path := by omega
    rw [hcut, hcut, hsucc] at hcuts
    exact hcuts
  · intro hbit b hlb hbh
    obtain ⟨c, hc, hclow, hchigh⟩ := hcover b hlb hbh
    have hcb := hbounds c hc
    have hc' := hc
    rw [← lowBit_values] at hc'
    obtain ⟨s, hs, hrange⟩ := h.every _ c hadm hc'
    refine ⟨s, hs, ?_⟩
    rw [hrange]
    have hcuts : CutBy dataWidth calls c.lowBit ∧ CutBy dataWidth calls (c.highBit + 1) := by
      by_cases heq : c.lowBit = c.highBit
      · obtain ⟨hlow, hmod⟩ := hsingle c hc heq
        have hhigh : c.highBit + 1 = addr ρ path + lastWidth dataWidth path := by omega
        rw [hlow, hhigh]
        exact hbit hmod
      · obtain ⟨N, hN⟩ := h.returns
        have hmem : c ∈ calls := hcalls.own N stmts (hN N (Nat.le_refl N)) s hs c hrange
        exact ⟨.inr (.inr ⟨c, hmem, heq, .inl rfl⟩), .inr (.inr ⟨c, hmem, heq, .inr rfl⟩)⟩
    exact sets_between htiles ((hcut _).2 hcuts.1) ((hcut _).2 hcuts.2) (by omega) ⟨hclow, hchigh⟩

/-- **Exactness of the assignments** in a word of more than one bit. -/
theorem Assigns.exact_iff (h : Assigns ρ dataWidth path stmts) (hf : Fits dataWidth path) (hin : InBounds ρ dataWidth path)
    (hcalls : AllCalls dataWidth path calls)
    (hlen : ¬((weWidths dataWidth calls).length = 1 ∧ lastWidth dataWidth path = 1)) (hpos : 0 < dataWidth)
    (hw : dataWidth ≠ 1) : EnablesExactly dataWidth path calls ρ ↔ ExactWhen dataWidth path calls ρ := by
  have hlast := lastWidth_pos hf
  have hzero := @admissible_values V ρ path dataWidth hin
  let T (b : ℕ) : Prop := BitIndexZero ρ path ∧
    ((∃ x ∈ slots path, x.1.evalConstantExpr = none) → Harmless ρ ((slots path).map Prod.fst)) ∧
    addr ρ path ≤ b ∧ b < addr ρ path + lastWidth dataWidth path
  have hbit (b : ℕ) : enabled (weWidths dataWidth calls) stmts ρ b = true ↔
      (∃ s ∈ stmts, synHtDistRamWe (weWidths dataWidth calls) s.range b = true) ∧ T b := by
    refine enabled_iff fun s hs hset => ?_
    obtain ⟨is, c, his, hc, hrange, hval⟩ := h.value s hs
    rw [hrange] at hset
    have hinside := h.inside hf hin hcalls hlen hpos his hc hset
    rw [hval]
    constructor
    · rintro ⟨hsame, hharm⟩
      rw [hsame] at his
      rw [hsame, lowBit_values] at hinside
      exact ⟨hzero.1 his, hharm, hinside⟩
    · rintro ⟨hz, hharm, hrange⟩
      refine ⟨Classical.byContradiction fun hne => ?_, hharm⟩
      have hapart := lowBit_apart hf hin his (hzero.2 hz) hne
      rw [lowBit_values] at hapart
      omega
  rw [enablesExactly_iff h.returns]
  constructor
  · intro hexact
    obtain ⟨_, hz, hharm, _⟩ := (hbit _).1 ((hexact (addr ρ path)).2 ⟨Nat.le_refl _, by omega⟩)
    have hsets := h.sets_iff hf hin hcalls hlen hpos (hzero.2 hz)
    exact ⟨hsets.1 fun b hlb hbh => ((hbit b).1 ((hexact b).2 ⟨hlb, hbh⟩)).1, fun h1 => absurd h1 hw, hz, hharm⟩
  · rintro ⟨hcuts, _, hz, hharm⟩ b
    have hsets := h.sets_iff hf hin hcalls hlen hpos (hzero.2 hz)
    rw [hbit]
    exact ⟨fun hb => hb.2.2.2, fun hb => ⟨hsets.2 hcuts b hb.1 hb.2, hz, hharm, hb⟩⟩

/-- **A single bit, and one range**: all bits are set alike. -/
theorem Assigns.not_exact (h : Assigns ρ dataWidth path stmts) (hcalls : AllCalls dataWidth path calls)
    (hlen : (weWidths dataWidth calls).length = 1) (hlast : lastWidth dataWidth path = 1) (hpos : 0 < dataWidth)
    (hw : dataWidth ≠ 1) : ¬EnablesExactly dataWidth path calls ρ ∧ ¬ExactWhen dataWidth path calls ρ := by
  obtain ⟨htiles, hcut⟩ := weWidths_spec hpos hcalls.inside
  obtain ⟨r, hr, hr1, hr2⟩ := htiles.of_length_one hlen
  have hends {x : ℕ} (hx : CutBy dataWidth calls x) : x = 0 ∨ x = dataWidth := by
    rcases (hcut x).2 hx with hx | ⟨d, hd, hx⟩
    · exact .inr hx
    · rw [hr] at hd
      obtain rfl := List.mem_singleton.1 hd
      exact .inl (hx.symm.trans hr1)
  constructor
  · rw [enablesExactly_iff h.returns, hlast]
    intro hexact
    have hsets (s : WrEn V) (b : ℕ) := @sets_whole _ dataWidth b s.range htiles hlen
    have hmem : addr ρ path < dataWidth := by
      have hen := (hexact (addr ρ path)).2 ⟨Nat.le_refl _, Nat.lt_succ_self _⟩
      refine Classical.byContradiction fun hge => ?_
      have hnone : ∀ s ∈ stmts, synHtDistRamWe (weWidths dataWidth calls) s.range (addr ρ path) = true →
          (s.value.eval ρ ≠ 0 ↔ False) := fun s _ hset => absurd ((hsets s _).1 hset) hge
      exact ((enabled_iff hnone).1 hen).2
    -- another bit of the word
    obtain ⟨b, hb, hne⟩ : ∃ b, b < dataWidth ∧ b ≠ addr ρ path := by
      by_cases hzero : addr ρ path = 0
      · exact ⟨1, by omega, by omega⟩
      · exact ⟨0, hpos, fun heq => hzero heq.symm⟩
    have hsame : enabled (weWidths dataWidth calls) stmts ρ (addr ρ path) = enabled (weWidths dataWidth calls) stmts ρ b :=
      enabled_congr fun s _ => Bool.eq_iff_iff.2 ((hsets s _).trans ((iff_of_true hmem hb).trans (hsets s b).symm))
    have hen := (hexact (addr ρ path)).2 ⟨Nat.le_refl _, Nat.lt_succ_self _⟩
    have := (hexact b).1 (hsame.symm.trans hen)
    omega
  · intro hexact
    obtain ⟨hlow, hhigh⟩ := hexact.lastBit (by rw [hlast])
    rw [hlast] at hlow hhigh
    have := hends hlow
    have := hends hhigh
    omega

end Bits

/-- **Partial writes enable exactly the addressed bits** under the condition, and otherwise not. -/
theorem partial_write_exact (hf : Fits dataWidth path) (hin : InBounds ρ dataWidth path)
    (hcalls : AllCalls dataWidth path calls) :
    EnablesExactly dataWidth path calls ρ ↔ ExactWhen dataWidth path calls ρ := by
  have hfirst : Admissible (slots path) (firstIdx (slots path)) := (mem_walk (dims_pos hin)).1 List.mem_cons_self
  have hlast := lastWidth_pos hf
  have hwithin := lowBit_within hf hin hfirst
  have hpos : 0 < dataWidth := by omega
  by_cases hw : dataWidth = 1
  · subst hw
    by_cases hconst : ∀ x ∈ slots path, x.1.evalConstantExpr ≠ none
    · -- one bit, and one assignment without a condition
      obtain ⟨htiles, hcut⟩ := weWidths_spec hpos hcalls.inside
      have hlen : (weWidths 1 calls).length = 1 := one_range htiles
      have hadm := (admissible_values hin).2 (bitIndexZero_of_const hconst)
      have hfit := lowBit_within hf hin hadm
      rw [lowBit_values] at hfit
      refine iff_of_true ⟨[⟨none, .constant 1⟩], ⟨0, fun n _ => @writeMem_const V ρ path 1 hconst n⟩, fun b => ?_⟩ ?_
      · have hsets := @sets_whole _ 1 b none htiles hlen
        rw [@enabled_iff V ρ _ _ b True fun s hs _ => by
          obtain rfl := List.mem_singleton.1 hs
          exact iff_of_true Nat.one_ne_zero trivial]
        simp only [List.mem_singleton, exists_eq_left, hsets, and_true]
        omega
      · refine ⟨fun _ => ⟨.inl (by omega), .inr (.inl (by omega))⟩, fun _ => hconst, bitIndexZero_of_const hconst, ?_⟩
        rintro ⟨x, hx, hnone⟩
        exact absurd hnone (hconst x hx)
    · refine iff_of_false ?_ fun h => hconst (h.word rfl)
      rintro ⟨stmts, ⟨N, hN⟩, _⟩
      have hvar : ∃ x ∈ slots path, x.1.evalConstantExpr = none := by
        simpa only [not_forall, not_not, exists_prop] using hconst
      have hret := hN N (Nat.le_refl N)
      unfold writeMem at hret
      dsimp only at hret
      rw [getSubFieldRange_var hvar 0 1 true] at hret
      cases hret
  · obtain ⟨stmts, h⟩ := exists_assigns hin hw
    by_cases hlen : (weWidths dataWidth calls).length = 1 ∧ lastWidth dataWidth path = 1
    · obtain ⟨h1, h2⟩ := h.not_exact hcalls hlen.1 hlen.2 hpos hw
      exact iff_of_false h1 h2
    · exact h.exact_iff hf hin hcalls hlen hpos hw

/-- An array of two bytes, at an index that is no constant. -/
def byteAt : CScSubField ℕ := ⟨some ⟨0, [2]⟩, [⟨id, none, false, fun _ h => (nomatch h), fun h => (nomatch h)⟩], 8, rfl⟩

theorem partial_write_exact_bytes : EnablesExactly 16 [byteAt] [⟨7, 0⟩, ⟨15, 8⟩] 1 := by
  have hin : InBounds 1 16 [byteAt] := ⟨⟨Nat.one_lt_two, trivial⟩, trivial⟩
  have hfits : Fits 16 [byteAt] := by
    refine ⟨fun m hm => ?_, Nat.succ_pos 7⟩
    obtain rfl : ⟨0, [2]⟩ = m := Option.some.inj hm
    decide
  have hinside : ∀ c ∈ [(⟨7, 0⟩ : WeWidth), ⟨15, 8⟩], c.lowBit ≤ c.highBit ∧ c.highBit < 16 := by decide
  refine (partial_write_exact hfits hin ⟨hinside, ?_⟩).2 ⟨fun h => absurd h (by decide), fun h => absurd h (by decide),
    fun f hf hnone => ?_, fun _ k t hk ht hkt _ _ => ?_⟩
  · intro n stmts hret s hs c hc
    cases n with
    | zero => cases hret
    | succ n =>
      cases n with
      | zero => cases hret
      | succ n =>
        obtain rfl := Except.ok.inj hret
        rcases List.mem_cons.1 hs with rfl | hs
        · exact List.mem_cons.2 (.inl (Option.some.inj hc).symm)
        · obtain rfl := List.mem_singleton.1 hs
          exact List.mem_cons.2 (.inr (List.mem_singleton.2 (Option.some.inj hc).symm))
  · obtain rfl := List.mem_singleton.1 hf
    cases hnone
  · have hlt : t < 1 := ht
    omega

/-- A field of one bit at the start of a byte. -/
def flag : CScSubField Unit := ⟨some ⟨0, []⟩, [], 1, rfl⟩

/-- **A field of one bit**: its sub-range is taken for the whole word, and all bits are enabled. -/
theorem flag_enables_all : Fits 8 [flag] ∧ InBounds () 8 [flag] ∧ AllCalls 8 [flag] [⟨0, 0⟩] ∧
    ¬EnablesExactly 8 [flag] [⟨0, 0⟩] () := by
  refine ⟨⟨fun m hm => ?_, Nat.one_pos⟩, ⟨trivial, trivial⟩, ⟨?_, fun n stmts hret s hs c hc => ?_⟩, ?_⟩
  · obtain rfl : ⟨0, []⟩ = m := Option.some.inj hm
    decide
  · intro c hc
    obtain rfl := List.mem_singleton.1 hc
    exact ⟨Nat.le_refl 0, by decide⟩
  · obtain rfl := Except.ok.inj hret
    obtain rfl := List.mem_singleton.1 hs
    exact List.mem_singleton.2 (Option.some.inj hc).symm
  · rintro ⟨stmts, ⟨N, hN⟩, hbits⟩
    obtain rfl := Except.ok.inj (hN N (Nat.le_refl N))
    have hsecond := (hbits 1).1 rfl
    have hlt : 1 < 1 := hsecond.2
    omega

end OpenHT.Htfe.RamWrite
