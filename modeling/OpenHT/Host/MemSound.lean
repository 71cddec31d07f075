import OpenHT.Host.MemSets
import Mathlib.Data.List.Nodup

/-!
# When the layout is sound

* `Placed`: what `allocHifMem` computes, in terms of `Packing.place`.
* `Placed.small`: in a sound layout no position is cut to 56 bits; `Placed.fits` turns this into a bound.
* `queues_fit`: the control queues are apart and inside when their sizes fit in 32 bits; otherwise two
  units share a queue, or the region is empty.
* `layout_sound_iff`: both bounds together are what a sound layout needs.
-/

namespace OpenHT.Host

open Packing ExchangeSort

variable {P : HifParams} {m : UnitMap} {M : HifMem} {host : HostAlloc} {huge : Bool} {aeCnt auCnt unitSize : ℕ}

/-! ### The order -/

theorem memRegionList_size_lt {unitCnt : ℕ} :
    ∀ r ∈ memRegionList P m unitCnt unitSize, r.size < 72057594037927936 := by
  have hinit : ∀ size numaSet, (MemRegion.initRegion size numaSet).size < 72057594037927936 := by
    intro size numaSet
    exact Nat.mod_lt _ (by omega)
  intro r hr
  rcases List.mem_append.1 hr with hr | hr
  · rcases List.mem_append.1 hr with hr | hr
    · rcases List.mem_cons.1 hr with rfl | hr
      · exact hinit ..
      · rw [List.mem_singleton.1 hr]
        exact hinit ..
    · obtain ⟨ae, -, rfl⟩ := List.mem_map.1 hr
      exact hinit ..
  · obtain ⟨u, -, hr⟩ := List.mem_flatMap.1 hr
    simp only [unitRegions, List.mem_cons, List.not_mem_nil, or_false] at hr
    rcases hr with rfl | rfl | rfl | rfl <;> exact hinit ..

theorem getD_size_lt {R : List MemRegion} (h : ∀ r ∈ R, r.size < 72057594037927936) (i : ℕ) :
    (R.getD i noRegion).size < 72057594037927936 := by
  rw [List.getD_eq_getElem?_getD]
  cases hi : R[i]? with
  | none => decide
  | some r => exact h r (List.mem_of_getElem? hi)

/-- The key orders by NUMA set, and within a set by size. -/
theorem sortKey_le {r r' : MemRegion} (hr : r.size < 72057594037927936) (hr' : r'.size < 72057594037927936)
    (h : r'.sortKey ≤ r.sortKey) : r'.numaSet ≤ r.numaSet ∧ (r'.numaSet = r.numaSet → r'.size ≤ r.size) := by
  unfold MemRegion.sortKey at h
  omega

/-- **What is computed**: the regions, largest key first, at the positions of the packing in 56 bits. -/
structure Placed (grp size : ℕ → ℕ) (M : HifMem) : Prop where
  shape : ∀ i, (M.region i).size = size i ∧ (M.region i).numaSet = grp i
  perm : M.order.Perm (List.range M.regions.length)
  sets : M.order.Pairwise fun i j => grp j ≤ grp i
  bySize : M.order.Pairwise fun i j => grp j = grp i → size j ≤ size i
  offset : ∀ c ∈ place numaAlign grp size none 0 M.order, (M.region c.1).offset = c.2 % 72057594037927936
  memSize : M.htHifMemSize = up numaAlign (stop numaAlign grp size none 0 M.order)

/-- The sizes and the NUMA sets of a list of regions. -/
def sizeAt (R : List MemRegion) (i : ℕ) : ℕ := (R.getD i noRegion).size
def setAt (R : List MemRegion) (i : ℕ) : ℕ := (R.getD i noRegion).numaSet

theorem total_range (R : List MemRegion) (k : ℕ) :
    total (setAt R) (sizeAt R) (List.range R.length) k = total MemRegion.numaSet MemRegion.size R k := by
  have hmap : (List.range R.length).map (fun i => R.getD i noRegion) = R := by
    refine List.ext_getElem (by simp) fun i h1 h2 => ?_
    simp [List.getD_eq_getElem?_getD, List.getElem?_eq_getElem h2]
  have h : total MemRegion.numaSet MemRegion.size ((List.range R.length).map fun i => R.getD i noRegion) k =
      total (setAt R) (sizeAt R) (List.range R.length) k := total_map _ _
  rw [← h, hmap]

theorem order_perm (R : List MemRegion) : (memOrder R).Perm (List.range R.length) := exchangeSort_perm _ _

theorem order_sorted (R : List MemRegion) : (memOrder R).Pairwise fun i j =>
    (R.getD j noRegion).sortKey ≤ (R.getD i noRegion).sortKey :=
  exchangeSort_sorted _ _ (by simp)

theorem setMemOffsets_shape (R : List MemRegion) :
    (setMemOffsets R).Shape (setAt R) (sizeAt R) ∧ (setMemOffsets R).regions.length = R.length := by
  have hshape : Layout.Shape (setAt R) (sizeAt R) ⟨R, 0, 255⟩ := fun i => ⟨rfl, rfl⟩
  exact foldl_shape hshape fun i hi => List.mem_range.1 ((order_perm R).mem_iff.1 hi)

/-- The place of a region with a given index, in a list that has it. -/
theorem exists_setAt {R : List MemRegion} {r : MemRegion} (h : r ∈ R) :
    ∃ i < R.length, setAt R i = r.numaSet ∧ sizeAt R i = r.size := by
  obtain ⟨i, hi, rfl⟩ := List.getElem_of_mem h
  have hget : R.getD i noRegion = R[i] := by simp [List.getD_eq_getElem?_getD, List.getElem?_eq_getElem hi]
  exact ⟨i, hi, by rw [setAt, hget], by rw [sizeAt, hget]⟩

theorem mem_of_lt {R : List MemRegion} {i : ℕ} (h : i < R.length) : R.getD i noRegion ∈ R := by
  rw [List.getD_eq_getElem?_getD, List.getElem?_eq_getElem h]
  exact List.getElem_mem h

section Alloc

variable (hP : P.Admitted) (hS : Sizes P) (hm : m.Regular aeCnt auCnt P.numaSets.toNat) (hau : 0 < auCnt)
  (hae : 0 < aeCnt) (hM : allocHifMem host huge P m m.unitCnt unitSize = .ok M)

include hP hS hm hau in
/-- The packing of the regions ends, rounded up, behind all NUMA sets. -/
theorem up_stop_order (unitSize : ℕ) (hfit : P.CtlFits auCnt) :
    up numaAlign (stop numaAlign (setAt (memRegionList P m m.unitCnt unitSize))
      (sizeAt (memRegionList P m m.unitCnt unitSize)) none 0 (memOrder (memRegionList P m m.unitCnt unitSize))) =
      rounded numaAlign (P.setSize aeCnt auCnt unitSize) P.numaSets.toNat := by
  have hlt : ∀ r ∈ memRegionList P m m.unitCnt unitSize, r.size < 72057594037927936 := memRegionList_size_lt
  have hpos : ∀ r ∈ memRegionList P m m.unitCnt unitSize, r.numaSet < P.numaSets.toNat :=
    fun r hr => (regions_pos hP hS hm hau r hr).1
  have htot : ∀ k, total MemRegion.numaSet MemRegion.size (memRegionList P m m.unitCnt unitSize) k =
      P.setSize aeCnt auCnt unitSize k := fun k => total_setSize hP hS hm hau hfit
  revert hlt hpos htot
  generalize memRegionList P m m.unitCnt unitSize = R
  intro hlt hpos htot
  have hsets : (memOrder R).Pairwise fun i j => setAt R j ≤ setAt R i :=
    (order_sorted R).imp fun h => (sortKey_le (getD_size_lt hlt _) (getD_size_lt hlt _) h).1
  rw [up_stop (by decide) hsets (n := P.numaSets.toNat)]
  · refine rounded_congr fun k _ => ?_
    rw [total_perm (order_perm R), total_range, htot]
  · intro i hi
    exact hpos _ (mem_of_lt (List.mem_range.1 ((order_perm R).mem_iff.1 hi)))

include hP hS hm hau hae hM in
/-- **What `allocHifMem` computes.** -/
theorem placed (hfit : P.CtlFits auCnt) : Placed (setAt (memRegionList P m m.unitCnt unitSize))
    (sizeAt (memRegionList P m m.unitCnt unitSize)) M := by
  obtain ⟨-, hregs, horder, hmem, -, -⟩ := allocHifMem_ok hM
  have hstop := up_stop_order hP hS hm hau unitSize hfit
  have h64 : rounded numaAlign (P.setSize aeCnt auCnt unitSize) P.numaSets.toNat < 18446744073709551616 :=
    rounded_lt hP hS hm hau hae hfit
  have hlt : ∀ r ∈ memRegionList P m m.unitCnt unitSize, r.size < 72057594037927936 := memRegionList_size_lt
  have hnuma : ∀ r ∈ memRegionList P m m.unitCnt unitSize, r.numaSet < P.numaSets.toNat :=
    fun r hr => (regions_pos hP hS hm hau r hr).1
  have h4 := numaSets_bounds hP
  revert hregs horder hmem hstop hlt hnuma
  generalize memRegionList P m m.unitCnt unitSize = R
  intro hregs horder hmem hstop hlt hnuma
  obtain ⟨hshape, hlen⟩ := setMemOffsets_shape R
  have hrange : ∀ i ∈ memOrder R, i < R.length := fun i hi => List.mem_range.1 ((order_perm R).mem_iff.1 hi)
  have hsets : (memOrder R).Pairwise fun i j => setAt R j ≤ setAt R i :=
    (order_sorted R).imp fun h => (sortKey_le (getD_size_lt hlt _) (getD_size_lt hlt _) h).1
  have hsize : (memOrder R).Pairwise fun i j => setAt R j = setAt R i → sizeAt R j ≤ sizeAt R i :=
    (order_sorted R).imp fun h => (sortKey_le (getD_size_lt hlt _) (getD_size_lt hlt _) h).2
  have hinit : Layout.Shape (setAt R) (sizeAt R) ⟨R, 0, 255⟩ := fun i => ⟨rfl, rfl⟩
  have hnd : (memOrder R).Nodup := (order_perm R).nodup_iff.2 List.nodup_range
  -- no region has the NUMA set 255 that stands for none
  have hnone : ∀ i ∈ memOrder R, (255 = setAt R i ↔ (none : Option ℕ) = some (setAt R i)) := by
    intro i hi
    have hset : setAt R i < P.numaSets.toNat := hnuma _ (mem_of_lt (hrange i hi))
    exact ⟨fun h => by omega, fun h => absurd h (by simp)⟩
  obtain ⟨hoff, hplace⟩ := foldl_setOffset hinit hrange hnd hnone (by rw [hstop]; exact h64)
  refine ⟨fun i => ?_, ?_, ?_, ?_, ?_, ?_⟩
  · rw [HifMem.region, hregs]
    exact hshape i
  · rw [hregs, horder, hlen]
    exact order_perm R
  · rw [horder]
    exact hsets
  · rw [horder]
    exact hsize
  · rw [horder]
    intro c hc
    rw [HifMem.region, hregs]
    exact hplace c hc
  · have hend : (setMemOffsets R).offset = stop numaAlign (setAt R) (sizeAt R) none 0 (memOrder R) := hoff
    rw [hmem, horder, hend, Nat.mod_eq_of_lt (by rw [hstop]; exact h64)]

end Alloc

/-! ### Positions of 56 bits -/

section Positions

variable {grp size : ℕ → ℕ} (h : Placed grp size M)

include h in
theorem Placed.nodup : M.order.Nodup := h.perm.nodup_iff.2 List.nodup_range

include h in
theorem Placed.lt {i : ℕ} (hi : i ∈ M.order) : i < M.regions.length := List.mem_range.1 (h.perm.mem_iff.1 hi)

include h in
/-- The first region of a set is a largest one, and no set is empty. -/
theorem Placed.pos_of_first {k i j : ℕ} (hj : M.order[k]? = some j) (hi : M.order[k + 1]? = some i)
    (hne : grp j ≠ grp i) (hset : ∃ w ∈ M.order, grp w = grp i ∧ 0 < size w) : 0 < size i := by
  obtain ⟨w, hw, hwi, hpos⟩ := hset
  obtain ⟨n, hn⟩ := List.mem_iff_getElem?.1 hw
  have hsets := List.pairwise_iff_getElem.1 h.sets
  have hsize := List.pairwise_iff_getElem.1 h.bySize
  obtain ⟨hkl, hk⟩ := List.getElem?_eq_some_iff.1 hj
  obtain ⟨hk1l, hk1⟩ := List.getElem?_eq_some_iff.1 hi
  obtain ⟨hnl, hn⟩ := List.getElem?_eq_some_iff.1 hn
  have hji := hsets k (k + 1) hkl hk1l (by omega)
  rw [hk, hk1] at hji
  by_cases hlt : n < k + 1
  · -- a region of the set in front would put the region before `i` into the set
    have hwj : grp j ≤ grp w := by
      rcases Nat.lt_or_eq_of_le (Nat.le_of_lt_succ hlt) with hnk | rfl
      · have hle := hsets n k hnl hkl hnk
        rwa [hn, hk] at hle
      · rw [← hn, ← hk]
    omega
  · rcases Nat.lt_or_eq_of_le (not_lt.1 hlt) with hkn | rfl
    · have hle := hsize (k + 1) n hk1l hnl hkn
      rw [hk1, hn] at hle
      exact lt_of_lt_of_le hpos (hle hwi)
    · rw [← hk1, hn]
      exact hpos

omit h in
theorem order_get {k : ℕ} {c : ℕ × ℕ} (hc : (place numaAlign grp size none 0 M.order)[k]? = some c) :
    M.order[k]? = some c.1 := by
  have hmap : M.order[k]? = ((place numaAlign grp size none 0 M.order).map Prod.fst)[k]? := by rw [place_fst]
  rw [hmap, List.getElem?_map, hc]
  rfl

omit h in
theorem place_first {c : ℕ × ℕ} (hc : (place numaAlign grp size none 0 M.order)[0]? = some c) : c.2 = 0 := by
  cases ho : M.order with
  | nil =>
    rw [ho] at hc
    simp [place] at hc
  | cons i l =>
    rw [ho, place, List.getElem?_cons_zero] at hc
    rw [← Option.some.inj hc]
    simp [start, up_of_dvd (show 0 < numaAlign by decide) (dvd_zero _)]

include h in
/-- A set that starts at a position above 56 bits starts inside an earlier region. -/
theorem Placed.start_small {k : ℕ} {c : ℕ × ℕ} (hsound : LayoutSound P m M)
    (hc : (place numaAlign grp size none 0 M.order)[k]? = some c) (halign : numaAlign ∣ c.2) (hpos : 0 < size c.1)
    (ih : ∀ j < k, ∀ e : ℕ × ℕ, (place numaAlign grp size none 0 M.order)[j]? = some e →
      e.2 < 72057594037927936) : c.2 < 72057594037927936 := by
  by_contra hbig
  have hcget := order_get hc
  have hcoff := h.offset c (List.mem_of_getElem? hc)
  have hcut : numaAlign ∣ c.2 % 72057594037927936 := by
    refine (Nat.dvd_mod_iff ?_).2 halign
    exact ⟨34359738368, rfl⟩
  obtain ⟨j, hj, e, he, hlo, hhi⟩ := exists_cover (by decide) hcut (Nat.zero_le _) hc (by omega)
  have heget := order_get he
  have heoff := h.offset e (List.mem_of_getElem? he)
  rw [Nat.mod_eq_of_lt (ih j hj e he)] at heoff
  have hne : e.1 ≠ c.1 := by
    intro heq
    obtain ⟨hjl, hje⟩ := List.getElem?_eq_some_iff.1 heget
    obtain ⟨hkl, hkc⟩ := List.getElem?_eq_some_iff.1 hcget
    have hidx : j = k := (List.Nodup.getElem_inj_iff h.nodup).1 (by rw [hje, hkc, heq])
    omega
  have hdis := hsound.disjoint e.1 (h.lt (List.mem_of_getElem? heget)) c.1 (h.lt (List.mem_of_getElem? hcget)) hne
  have hin : c.2 % 72057594037927936 ∈ M.span e.1 := by
    rw [HifMem.span, heoff, (h.shape _).1]
    exact ⟨hlo, hhi⟩
  have hin' : c.2 % 72057594037927936 ∈ M.span c.1 := by
    rw [HifMem.span, hcoff, (h.shape _).1]
    exact ⟨Nat.le_refl _, by omega⟩
  exact Set.disjoint_left.1 hdis hin hin'

include h in
/-- **In a sound layout no position is cut.** -/
theorem Placed.small (hsound : LayoutSound P m M)
    (hset : ∀ i ∈ M.order, ∃ w ∈ M.order, grp w = grp i ∧ 0 < size w) : ∀ (k : ℕ) (c : ℕ × ℕ),
      (place numaAlign grp size none 0 M.order)[k]? = some c → c.2 < 72057594037927936 := by
  intro k
  induction k using Nat.strong_induction_on with
  | _ k ih =>
    intro c hc
    have hcget := order_get hc
    cases k with
    | zero =>
      have hzero := place_first hc
      omega
    | succ k =>
      obtain ⟨hkl, hk1⟩ := List.getElem?_eq_some_iff.1 hc
      have hd : (place numaAlign grp size none 0 M.order)[k]? =
          some ((place numaAlign grp size none 0 M.order)[k]) := List.getElem?_eq_getElem (by omega)
      generalize (place numaAlign grp size none 0 M.order)[k] = d at hd
      have hdget := order_get hd
      have hdoff := h.offset d (List.mem_of_getElem? hd)
      rw [Nat.mod_eq_of_lt (ih k (by omega) d hd)] at hdoff
      have hjoin : Packing.Joined numaAlign grp size d c := by
        have hchain := List.isChain_iff_getElem.1
          (place_chain (a := numaAlign) (l := M.order) : (place numaAlign grp size none 0 M.order).IsChain _) k hkl
        rw [hk1] at hchain
        rwa [(List.getElem?_eq_some_iff.1 hd).2] at hchain
      have hsjoin := List.isChain_iff_getElem.1 hsound.joined k (List.getElem?_eq_some_iff.1 hcget).1
      rw [(List.getElem?_eq_some_iff.1 hcget).2, (List.getElem?_eq_some_iff.1 hdget).2, (h.shape _).2,
        (h.shape _).2, (h.shape _).1] at hsjoin
      unfold Packing.Joined at hjoin
      by_cases hsame : grp d.1 = grp c.1
      · -- within a set the region is where the one in front ends
        have hcoff := h.offset c (List.mem_of_getElem? hc)
        rw [if_pos hsame] at hjoin hsjoin
        omega
      · rw [if_neg hsame] at hjoin
        have hcpos := h.pos_of_first hdget hcget hsame (hset _ (List.mem_of_getElem? hcget))
        exact h.start_small hsound hc hjoin hcpos ih

include h in
/-- When no position is cut, the layout is sound but for the queues. -/
theorem Placed.regions_sound (hsmall : ∀ c ∈ place numaAlign grp size none 0 M.order, c.2 < 72057594037927936) :
    (∀ i < M.regions.length, ∀ j < M.regions.length, i ≠ j → Disjoint (M.span i) (M.span j)) ∧
    (∀ i < M.regions.length, (M.region i).offset + (M.region i).size ≤ M.htHifMemSize) ∧
    (M.order.IsChain fun i j => if (M.region i).numaSet = (M.region j).numaSet then
      (M.region j).offset = (M.region i).offset + (M.region i).size else numaAlign ∣ (M.region j).offset) ∧
    ∀ i ∈ M.order.head?, numaAlign ∣ (M.region i).offset := by
  have hpos : 0 < numaAlign := by decide
  have hoff : ∀ c ∈ place numaAlign grp size none 0 M.order, (M.region c.1).offset = c.2 := by
    intro c hc
    rw [h.offset c hc, Nat.mod_eq_of_lt (hsmall c hc)]
  have hget : ∀ i < M.regions.length, ∃ (k : ℕ) (c : ℕ × ℕ), (place numaAlign grp size none 0 M.order)[k]? = some c ∧ c.1 = i := by
    intro i hi
    have hmem : i ∈ (place numaAlign grp size none 0 M.order).map Prod.fst := by
      rw [place_fst]
      exact h.perm.mem_iff.2 (List.mem_range.2 hi)
    obtain ⟨c, hc, hci⟩ := List.mem_map.1 hmem
    obtain ⟨k, hk⟩ := List.mem_iff_getElem?.1 hc
    exact ⟨k, c, hk, hci⟩
  refine ⟨?_, ?_, ?_, ?_⟩
  · intro i hi j hj hij
    obtain ⟨k, c, hc, rfl⟩ := hget i hi
    obtain ⟨n, d, hd, rfl⟩ := hget j hj
    have hpair := List.pairwise_iff_getElem.1
      (place_pairwise hpos : (place numaAlign grp size none 0 M.order).Pairwise fun c d => c.2 + size c.1 ≤ d.2)
    obtain ⟨hkl, hk⟩ := List.getElem?_eq_some_iff.1 hc
    obtain ⟨hnl, hn⟩ := List.getElem?_eq_some_iff.1 hd
    have hco := hoff c (List.mem_of_getElem? hc)
    have hdo := hoff d (List.mem_of_getElem? hd)
    rw [Set.disjoint_left]
    intro x hx hx'
    rw [HifMem.span, hco, (h.shape _).1] at hx
    rw [HifMem.span, hdo, (h.shape _).1] at hx'
    obtain ⟨hx1, hx2⟩ := hx
    obtain ⟨hx3, hx4⟩ := hx'
    rcases lt_trichotomy k n with hkn | rfl | hkn
    · have hle := hpair k n hkl hnl hkn
      rw [hk, hn] at hle
      omega
    · exact hij (by rw [← hk, ← hn])
    · have hle := hpair n k hnl hkl hkn
      rw [hk, hn] at hle
      omega
  · intro i hi
    obtain ⟨k, c, hc, rfl⟩ := hget i hi
    have hend := place_stop hpos (List.mem_of_getElem? hc)
    have hup := le_up (n := stop numaAlign grp size none 0 M.order) hpos
    rw [hoff c (List.mem_of_getElem? hc), (h.shape _).1, h.memSize]
    omega
  · have hmap : M.order = (place numaAlign grp size none 0 M.order).map Prod.fst := place_fst.symm
    rw [hmap, List.isChain_map]
    refine List.IsChain.imp_of_mem_imp (fun c d hc hd hcd => ?_) place_chain
    rw [(h.shape _).2, (h.shape _).2, (h.shape _).1, hoff c hc, hoff d hd]
    exact hcd
  · intro i hi
    cases ho : M.order with
    | nil =>
      rw [ho] at hi
      simp at hi
    | cons j l =>
      have hij : j = i := by
        rw [ho] at hi
        simpa using hi
      have hmem : (j, 0) ∈ place numaAlign grp size none 0 M.order := by
        rw [ho, place]
        have hstart : start numaAlign grp none 0 j = 0 := by
          rw [start, if_neg (by simp), up_of_dvd hpos (dvd_zero _)]
        rw [hstart]
        exact List.mem_cons_self
      have hzero := hoff _ hmem
      rw [← hij, hzero]
      exact dvd_zero _

end Positions

/-! ### The control queues -/

section Queues

variable (hP : P.Admitted) (hm : m.Regular aeCnt auCnt P.numaSets.toNat) (hau : 0 < auCnt) (hae : 0 < aeCnt)
  (hM : allocHifMem host huge P m m.unitCnt unitSize = .ok M)

include hM in
/-- No offset changes a size. -/
theorem region_shape (i : ℕ) : (M.region i).size = sizeAt (memRegionList P m m.unitCnt unitSize) i ∧
    (M.region i).numaSet = setAt (memRegionList P m m.unitCnt unitSize) i := by
  obtain ⟨-, hregs, -⟩ := allocHifMem_ok hM
  rw [HifMem.region, hregs]
  exact (setMemOffsets_shape (memRegionList P m m.unitCnt unitSize)).1 i

include hM in
theorem regions_length : M.regions.length = (memRegionList P m m.unitCnt unitSize).length := by
  obtain ⟨-, hregs, -⟩ := allocHifMem_ok hM
  rw [hregs]
  exact (setMemOffsets_shape _).2

include hP hm hau hM in
/-- The control region of an AE has its size in 32 bits. -/
theorem ctlRegion_size {ae : ℕ} (hlt : ae < aeCnt) : (M.region (2 + ae)).size = P.ctlBytes * auCnt % 4294967296 := by
  have hget : (memRegionList P m m.unitCnt unitSize).getD (2 + ae) noRegion = ctlRegion P m ae := by
    have hlen : ae < ((List.range m.aeCnt).map (ctlRegion P m)).length := by simpa [hm.aeCnt_eq] using hlt
    rw [memRegionList, List.getD_eq_getElem?_getD, List.append_assoc, List.getElem?_append_right (by simp),
      List.getElem?_append_left (by simpa using hlen)]
    simp [hm.aeCnt_eq, hlt]
  rw [(region_shape hM _).1, sizeAt, hget, (ctlRegion_eq hP hm hau hlt).1]

/-- The two queues of a unit, from the start of its AE's region. -/
def queOffset (P : HifParams) (p : Party) (au : ℕ) : ℕ :=
  match p with
  | .host => P.ctlBytes * au % 4294967296
  | .model => (P.ctlBytes * au + P.ctlInQueMemSize) % 4294967296

include hP hM in
theorem hostRing_base (p : Party) (u : ℕ) :
    (hostRing P m M p u).base = M.memBase (2 + (m.findAeAu u).1) + queOffset P p (m.findAeAu u).2 := by
  obtain ⟨-, -, -, -, hin, hque⟩ := allocHifMem_ok hM
  have hbytes := ctlQueMemSize_eq hP
  cases p with
  | host => simp only [hostRing, hostInCtlQue, HifMem.getCtlInQueMemBase, hque, hbytes, queOffset]
  | model => simp only [hostRing, hostOutCtlQue, HifMem.getCtlOutQueMemBase, hque, hbytes, hin, queOffset]

include hP hm hau hM in
/-- **Queues that fit in 32 bits** are apart and inside the region of their AE, when the regions are apart. -/
theorem queues_fit (hfit : P.CtlFits auCnt)
    (hdis : ∀ i < M.regions.length, ∀ j < M.regions.length, i ≠ j → Disjoint (M.span i) (M.span j)) :
    (∀ u < m.unitCnt, ∀ p, M.queue P m p u ⊆ M.ctlSpan (m.findAeAu u).1) ∧
      ∀ u < m.unitCnt, ∀ v < m.unitCnt, ∀ p q, (u, p) ≠ (v, q) → Disjoint (M.queue P m p u) (M.queue P m q v) := by
  have hhalf : P.ctlBytes = 2 * (8 * 1 <<< P.ctlQueW) := by
    rw [HifParams.ctlBytes]
    omega
  have hin : P.ctlInQueMemSize = 8 * 1 <<< P.ctlQueW := ctlInQueMemSize_eq hP
  have hoffset : ∀ p, ∀ au < auCnt, queOffset P p au = P.ctlBytes * au + (if p = .host then 0 else 8 * 1 <<< P.ctlQueW) ∧
      queOffset P p au + 8 * 1 <<< P.ctlQueW ≤ P.ctlBytes * (au + 1) ∧ P.ctlBytes * (au + 1) ≤ P.ctlBytes * auCnt := by
    intro p au hlt
    have hle : P.ctlBytes * (au + 1) ≤ P.ctlBytes * auCnt := Nat.mul_le_mul_left _ hlt
    have hsucc : P.ctlBytes * (au + 1) = P.ctlBytes * au + P.ctlBytes := Nat.mul_succ ..
    unfold HifParams.CtlFits at hfit
    have hpos := shiftLeft_pos P.ctlQueW
    cases p with
    | host =>
      rw [queOffset, Nat.mod_eq_of_lt (by omega)]
      exact ⟨rfl, by omega, hle⟩
    | model =>
      rw [queOffset, hin, Nat.mod_eq_of_lt (by omega)]
      exact ⟨rfl, by omega, hle⟩
  have hunit : ∀ u < m.unitCnt, (m.findAeAu u).1 < aeCnt ∧ (m.findAeAu u).2 < auCnt := by
    intro u hu
    obtain ⟨heq, hlt, hae⟩ := hm.findAeAu hu
    rw [heq]
    exact ⟨hae, hlt⟩
  have hinside : ∀ u < m.unitCnt, ∀ p, M.queue P m p u ⊆ M.ctlSpan (m.findAeAu u).1 := by
    intro u hu p x hx
    obtain ⟨hae, hlt⟩ := hunit u hu
    obtain ⟨-, hend, hle⟩ := hoffset p _ hlt
    rw [HifMem.queue, hostRing_base hP hM, ctrlMsgSize] at hx
    rw [HifMem.ctlSpan, ctlRegion_size hP hm hau hM hae, Nat.mod_eq_of_lt hfit]
    obtain ⟨hx1, hx2⟩ := hx
    exact ⟨by omega, by omega⟩
  refine ⟨hinside, ?_⟩
  intro u hu v hv p q hne
  obtain ⟨haeu, hltu⟩ := hunit u hu
  obtain ⟨haev, hltv⟩ := hunit v hv
  rw [Set.disjoint_left]
  intro x hx hx'
  have hxu := hinside u hu p hx
  have hxv := hinside v hv q hx'
  by_cases hae : (m.findAeAu u).1 = (m.findAeAu v).1
  · -- on one AE the queues are at multiples of their size
    obtain ⟨hou, heu, -⟩ := hoffset p _ hltu
    obtain ⟨hov, hev, -⟩ := hoffset q _ hltv
    rw [HifMem.queue, hostRing_base hP hM, ctrlMsgSize] at hx hx'
    rw [hae] at hx
    obtain ⟨hx1, hx2⟩ := hx
    obtain ⟨hx3, hx4⟩ := hx'
    rcases lt_trichotomy (m.findAeAu u).2 (m.findAeAu v).2 with hlt | heq | hlt
    · have hle : P.ctlBytes * ((m.findAeAu u).2 + 1) ≤ P.ctlBytes * (m.findAeAu v).2 := Nat.mul_le_mul_left _ hlt
      omega
    · have huv : u = v := by
        obtain ⟨hu', -, -⟩ := hm.findAeAu hu
        obtain ⟨hv', -, -⟩ := hm.findAeAu hv
        rw [hu', hv'] at hae heq
        rw [← Nat.div_add_mod u aeCnt, ← Nat.div_add_mod v aeCnt]
        rw [show u % aeCnt = v % aeCnt from hae, show u / aeCnt = v / aeCnt from heq]
      rw [heq] at hou hx1 hx2
      rw [huv] at hne
      cases p with
      | host =>
        cases q with
        | host => exact hne rfl
        | model =>
          simp only [if_true, reduceCtorEq, if_false] at hou hov
          omega
      | model =>
        cases q with
        | host =>
          simp only [if_true, reduceCtorEq, if_false] at hou hov
          omega
        | model => exact hne rfl
    · have hle : P.ctlBytes * ((m.findAeAu v).2 + 1) ≤ P.ctlBytes * (m.findAeAu u).2 := Nat.mul_le_mul_left _ hlt
      omega
  · -- on two AEs the queues are in two regions
    have hlen : ∀ ae < aeCnt, 2 + ae < M.regions.length := by
      intro ae hlt
      rw [regions_length hM, memRegionList]
      simp [hm.aeCnt_eq]
      omega
    have hd := hdis _ (hlen _ haeu) _ (hlen _ haev) (by omega)
    rw [HifMem.ctlSpan, HifMem.memBase] at hxu hxv
    obtain ⟨hx1, hx2⟩ := hxu
    obtain ⟨hx3, hx4⟩ := hxv
    have hmemu : x - M.base ∈ M.span (2 + (m.findAeAu u).1) := ⟨by omega, by omega⟩
    have hmemv : x - M.base ∈ M.span (2 + (m.findAeAu v).1) := ⟨by omega, by omega⟩
    exact Set.disjoint_left.1 hd hmemu hmemv

include hP hm hau hae hM in
/-- **Queues that do not fit**: the region is empty, or a later unit has the queue of the first one. -/
theorem ctlFits_of_sound (hsound : LayoutSound P m M) : P.CtlFits auCnt := by
  by_contra hno
  obtain ⟨-, ⟨-, hW⟩, -⟩ := HifParams.admitted_iff.1 hP
  have hunits : m.unitCnt = aeCnt * auCnt := hm.unitCnt
  have hpos : 0 < m.unitCnt := hunits ▸ Nat.mul_pos hae hau
  have hzero : m.findAeAu 0 = (0, 0) := by rw [(hm.findAeAu hpos).1, Nat.zero_mod, Nat.zero_div]
  have hwidth := shiftLeft_pos P.ctlQueW
  -- so many units fill 32 bits
  have hwrap : P.ctlBytes * 1 <<< (28 - P.ctlQueW) = 4294967296 := by
    rw [HifParams.ctlBytes, Nat.one_shiftLeft, Nat.one_shiftLeft, Nat.mul_assoc, ← Nat.pow_add,
      show P.ctlQueW + (28 - P.ctlQueW) = 28 by omega]
  have hfirst : (hostRing P m M .host 0).base ∈ M.queue P m .host 0 := ⟨Nat.le_refl _, by
    rw [ctrlMsgSize]
    omega⟩
  have hbase := hostRing_base hP hM .host 0
  rw [hzero, queOffset, Nat.mul_zero, Nat.zero_mod, Nat.add_zero] at hbase
  rcases lt_trichotomy auCnt (1 <<< (28 - P.ctlQueW)) with hlt | heq | hlt
  · refine hno ?_
    have hmul : P.ctlBytes * auCnt < P.ctlBytes * 1 <<< (28 - P.ctlQueW) := by
      refine Nat.mul_lt_mul_of_pos_left hlt ?_
      rw [HifParams.ctlBytes]
      omega
    unfold HifParams.CtlFits
    omega
  · have hin := hsound.queues 0 hpos .host hfirst
    rw [HifMem.ctlSpan, hzero, ctlRegion_size hP hm hau hM hae, heq, hwrap, hbase] at hin
    obtain ⟨-, hend⟩ := hin
    simp at hend
  · have hu : aeCnt * 1 <<< (28 - P.ctlQueW) < m.unitCnt := by
      rw [hunits]
      exact Nat.mul_lt_mul_of_pos_left hlt hae
    have hfind : m.findAeAu (aeCnt * 1 <<< (28 - P.ctlQueW)) = (0, 1 <<< (28 - P.ctlQueW)) := by
      rw [(hm.findAeAu hu).1, Nat.mul_mod_right, Nat.mul_div_cancel_left _ hae]
    have hbase' := hostRing_base hP hM .host (aeCnt * 1 <<< (28 - P.ctlQueW))
    rw [hfind, queOffset, hwrap, Nat.mod_self, Nat.add_zero, ← hbase] at hbase'
    have hne : ((0 : ℕ), Party.host) ≠ (aeCnt * 1 <<< (28 - P.ctlQueW), .host) := by
      have hcnt := Nat.mul_pos hae (shiftLeft_pos (28 - P.ctlQueW))
      intro h
      have h0 := congrArg Prod.fst h
      simp only at h0
      omega
    have hdis := hsound.apart 0 hpos _ hu .host .host hne
    refine Set.disjoint_left.1 hdis hfirst ?_
    rw [HifMem.queue, hbase']
    exact ⟨Nat.le_refl _, by
      rw [ctrlMsgSize]
      omega⟩

end Queues

/-! ### When the layout is sound -/

section Sound

variable (hP : P.Admitted) (hm : m.Regular aeCnt auCnt P.numaSets.toNat) (hau : 0 < auCnt) (hae : 0 < aeCnt)
  (hS : Sizes P) (hM : allocHifMem host huge P m m.unitCnt unitSize = .ok M)

include hP hm hau hS hM in
/-- Every set has a region with something in it. -/
theorem set_nonempty (h : Placed (setAt (memRegionList P m m.unitCnt unitSize))
    (sizeAt (memRegionList P m m.unitCnt unitSize)) M) : ∀ i ∈ M.order, ∃ w ∈ M.order,
      setAt (memRegionList P m m.unitCnt unitSize) w = setAt (memRegionList P m m.unitCnt unitSize) i ∧
      0 < sizeAt (memRegionList P m m.unitCnt unitSize) w := by
  intro i hi
  have hlen := regions_length hM
  have hlt := h.lt hi
  rw [hlen] at hlt
  obtain ⟨-, r, hr, hset, hpos⟩ := regions_pos hP hS hm hau _ (mem_of_lt hlt)
  obtain ⟨w, hw, hws, hwz⟩ := exists_setAt hr
  exact ⟨w, h.perm.mem_iff.2 (List.mem_range.2 (hlen ▸ hw)), hws.trans hset, hwz ▸ hpos⟩

include hP hm hau hae hS hM in
/-- The end of the packing is not a page boundary: the flush lines are in the first set. -/
theorem stop_mod (hfit : P.CtlFits auCnt) : stop numaAlign (setAt (memRegionList P m m.unitCnt unitSize))
    (sizeAt (memRegionList P m m.unitCnt unitSize)) none 0 M.order % 4096 = 512 := by
  have h := placed hP hS hm hau hae hM hfit
  have hlen := regions_length hM
  have hflush : ∃ i ∈ M.order, setAt (memRegionList P m m.unitCnt unitSize) i = 0 := by
    refine ⟨1, h.perm.mem_iff.2 (List.mem_range.2 ?_), ?_⟩
    · rw [hlen, memRegionList]
      simp
    · rw [setAt, memRegionList_eq hP hS hm hau]
      rfl
  obtain ⟨b, ⟨c, hc⟩, hstop⟩ : ∃ b, numaAlign ∣ b ∧ stop numaAlign (setAt (memRegionList P m m.unitCnt unitSize))
      (sizeAt (memRegionList P m m.unitCnt unitSize)) none 0 M.order = b +
        total (setAt (memRegionList P m m.unitCnt unitSize)) (sizeAt (memRegionList P m m.unitCnt unitSize)) M.order 0 :=
    stop_last none (by simp) h.sets (fun i _ => Nat.zero_le _) hflush
  obtain ⟨-, ⟨hlo, -⟩, -⟩ := HifParams.admitted_iff.1 hP
  have htot : P.setSize aeCnt auCnt unitSize 0 % 4096 = 512 := setSize_mod hS hlo
  rw [hstop, total_perm h.perm, hlen, total_range, total_setSize hP hS hm hau hfit, hc,
    show numaAlign = 2097152 from rfl]
  omega

include hP hm hau hS hM in
/-- The last region in the order is not larger than the flush lines. -/
theorem last_size_le (h : Placed (setAt (memRegionList P m m.unitCnt unitSize))
    (sizeAt (memRegionList P m m.unitCnt unitSize)) M) (hne : M.order ≠ []) :
    sizeAt (memRegionList P m m.unitCnt unitSize) (M.order.getLast hne) ≤ 512 := by
  have hlen := regions_length hM
  have hflush : 1 ∈ M.order := by
    refine h.perm.mem_iff.2 (List.mem_range.2 ?_)
    rw [hlen, memRegionList]
    simp
  have hone : setAt (memRegionList P m m.unitCnt unitSize) 1 = 0 ∧
      sizeAt (memRegionList P m m.unitCnt unitSize) 1 = 512 := by
    rw [setAt, sizeAt, memRegionList_eq hP hS hm hau]
    exact ⟨rfl, rfl⟩
  have hsplit : M.order = M.order.dropLast ++ [M.order.getLast hne] := (List.dropLast_append_getLast hne).symm
  have hsets := h.sets
  have hsize := h.bySize
  rw [hsplit, List.pairwise_append] at hsets hsize
  rw [hsplit, List.mem_append, List.mem_singleton] at hflush
  rcases hflush with hin | heq
  · have hset := hsets.2.2 1 hin _ (List.mem_singleton.2 rfl)
    have hle := hsize.2.2 1 hin _ (List.mem_singleton.2 rfl)
    rw [hone.1] at hset hle
    rw [hone.2] at hle
    exact hle (Nat.le_zero.1 hset)
  · rw [← heq, hone.2]

include hP hm hau hae hS hM in
/-- **All positions have 56 bits** exactly when the sets together do. -/
theorem small_iff_memFits (hfit : P.CtlFits auCnt) :
    (∀ c ∈ place numaAlign (setAt (memRegionList P m m.unitCnt unitSize))
      (sizeAt (memRegionList P m m.unitCnt unitSize)) none 0 M.order, c.2 < 72057594037927936) ↔
      P.MemFits aeCnt auCnt unitSize := by
  have h := placed hP hS hm hau hae hM hfit
  have hpos : 0 < numaAlign := by decide
  have hmod := stop_mod hP hm hau hae hS hM hfit
  have hup := up_stop_order hP hS hm hau unitSize hfit
  have horder : M.order = memOrder (memRegionList P m m.unitCnt unitSize) := by
    obtain ⟨-, -, horder, -⟩ := allocHifMem_ok hM
    exact horder
  rw [← horder] at hup
  rw [HifParams.MemFits, ← hup]
  have hle := le_up (n := stop numaAlign (setAt (memRegionList P m m.unitCnt unitSize))
    (sizeAt (memRegionList P m m.unitCnt unitSize)) none 0 M.order) hpos
  constructor
  · intro hsmall
    by_cases hne : M.order = []
    · rw [hne] at hmod
      simp [stop] at hmod
    · obtain ⟨c, hc, hlast, hstop⟩ : ∃ c ∈ place numaAlign (setAt (memRegionList P m m.unitCnt unitSize))
          (sizeAt (memRegionList P m m.unitCnt unitSize)) none 0 M.order, c.1 = M.order.getLast hne ∧
          c.2 + sizeAt (memRegionList P m m.unitCnt unitSize) c.1 =
            stop numaAlign (setAt (memRegionList P m m.unitCnt unitSize))
              (sizeAt (memRegionList P m m.unitCnt unitSize)) none 0 M.order := exists_last hne
      have hc' := hsmall c hc
      have hsize := last_size_le hP hm hau hS hM h hne
      rw [hlast] at hstop
      refine up_le hpos (m := 72057594037927936) (by omega) ⟨34359738368, rfl⟩
  · intro hfits c hc
    have hend := place_stop hpos hc
    omega

end Sound

/-- **The layout is sound exactly when** the control queues of an AE have a size of 32 bits, and the NUMA
sets have addresses of 56 bits. -/
theorem layout_sound_iff (hP : P.Admitted) (hpers : P.appPersMemSize < 1 <<< 55)
    (hunit : P.appUnitMemSize < 1 <<< 55) (hae : 0 < aeCnt) (hau : 0 < auCnt)
    (hm : UnitMap.build aeCnt auCnt P.numaSets.toNat = .ok m)
    (hM : allocHifMem host huge P m m.unitCnt unitSize = .ok M) :
    LayoutSound P m M ↔ P.CtlFits auCnt ∧ P.MemFits aeCnt auCnt unitSize := by
  have hreg := UnitMap.build_regular hm
  have hS := sizes hP hpers hunit
  constructor
  · intro hsound
    have hfit := ctlFits_of_sound hP hreg hau hae hM hsound
    have h := placed hP hS hreg hau hae hM hfit
    refine ⟨hfit, (small_iff_memFits hP hreg hau hae hS hM hfit).1 ?_⟩
    intro c hc
    obtain ⟨k, hk⟩ := List.mem_iff_getElem?.1 hc
    exact h.small hsound (set_nonempty hP hreg hau hS hM h) k c hk
  · rintro ⟨hfit, hmem⟩
    have h := placed hP hS hreg hau hae hM hfit
    obtain ⟨hdis, hin, hjoined, hfirst⟩ :=
      h.regions_sound ((small_iff_memFits hP hreg hau hae hS hM hfit).2 hmem)
    obtain ⟨hqueues, hapart⟩ := queues_fit hP hreg hau hM hfit hdis
    refine ⟨hdis, hin, h.perm, ?_, hjoined, hfirst, hqueues, hapart⟩
    refine h.sets.imp ?_
    intro i j hij
    rw [(h.shape _).2, (h.shape _).2]
    exact hij

theorem layout_sound_iff_demo : ∃ m M, UnitMap.build 1 1 1 = .ok m ∧
    allocHifMem someHost false {} m m.unitCnt 1000 = .ok M ∧
    (LayoutSound {} m M ↔ HifParams.CtlFits {} 1 ∧ HifParams.MemFits {} 1 1 1000) := by
  have hm : UnitMap.build 1 1 (HifParams.numaSets {}).toNat = .ok oneUnit := build_oneUnit
  cases hM : allocHifMem someHost false {} oneUnit oneUnit.unitCnt 1000 with
  | error e => simp [allocHifMem, HostAlloc.alloc, someHost] at hM
  | ok M =>
    exact ⟨oneUnit, M, build_oneUnit, hM,
      layout_sound_iff (by decide) (by decide) (by decide) (by decide) (by decide) hm hM⟩

/-- Eight units on one AE. -/
theorem exists_eight : ∃ m, UnitMap.build 1 8 1 = .ok m := ⟨_, rfl⟩

/-- **The widest queues for eight units**: their sizes add up to 2^32, and the region is empty. -/
theorem widest_queues_unsound : ∃ P m M, HifParams.Admitted P ∧ P.appPersMemSize < 1 <<< 55 ∧
    P.appUnitMemSize < 1 <<< 55 ∧ UnitMap.build 1 8 P.numaSets.toNat = .ok m ∧
    allocHifMem someHost false P m m.unitCnt 1000 = .ok M ∧ ¬LayoutSound P m M := by
  let P : HifParams := { ctlQueW := 25 }
  obtain ⟨m, hm⟩ := exists_eight
  cases hM : allocHifMem someHost false P m m.unitCnt 1000 with
  | error e => simp [allocHifMem, HostAlloc.alloc, someHost] at hM
  | ok M =>
    refine ⟨P, m, M, by decide, by decide, by decide, hm, hM, ?_⟩
    intro hsound
    have hfit : P.CtlFits 8 :=
      ctlFits_of_sound (by decide) (UnitMap.build_regular hm) (by decide) (by decide) hM hsound
    exact absurd hfit (by decide)

end OpenHT.Host
