import OpenHT.Host.MemLayout

/-!
# The memory of a NUMA set

* `setSize`: the sizes of the regions of a NUMA set, from the parameters.
* `CtlFits`, `MemFits`: the control queues of an AE have a size of 32 bits, and all sets together have
  offsets of 56 bits.
* `total_setSize`: the region list has these sizes, when the control queues fit.
* `regions_dvd`, `regions_pos`: sizes are whole pages but for the flush lines, and no set is empty.
-/

namespace OpenHT.Host

open Packing

namespace HifParams

variable (P : HifParams) (aeCnt auCnt unitSize : ℕ)

/-- The blocks and the memory of a unit. -/
def unitBytes : ℕ := P.inBlkMemSize + P.outBlkMemSize + P.appUnitMemSizeUp + unitMemSize unitSize

/-- Both control queues of a unit. -/
def ctlBytes : ℕ := 16 * 1 <<< P.ctlQueW

/-- The AEs of a NUMA set. -/
def aesOf (k : ℕ) : ℕ := ((List.range aeCnt).filter fun ae => ae % P.numaSets.toNat = k).length

/-- The memory of a NUMA set; the application memory and the flush lines are in the first one. -/
def setSize (k : ℕ) : ℕ := P.aesOf aeCnt k * (auCnt * (P.ctlBytes + P.unitBytes unitSize)) +
  if k = 0 then P.appPersMemSizeUp + flushLinesMemSize else 0

/-- The control queues of an AE have a size of 32 bits. -/
def CtlFits : Prop := P.ctlBytes * auCnt < 4294967296

/-- The NUMA sets, each rounded up to 2 MB, have addresses of 56 bits. -/
def MemFits : Prop := rounded numaAlign (P.setSize aeCnt auCnt unitSize) P.numaSets.toNat ≤ 72057594037927936

instance : Decidable (P.CtlFits auCnt) := inferInstanceAs (Decidable (_ < _))

instance : Decidable (P.MemFits aeCnt auCnt unitSize) := inferInstanceAs (Decidable (_ ≤ _))

end HifParams

variable {P : HifParams} {m : UnitMap} {aeCnt auCnt unitSize k : ℕ}

/-! ### Sizes -/

theorem shiftLeft_le {w n : ℕ} (h : w ≤ n) : 1 <<< w ≤ 1 <<< n := by
  rw [Nat.one_shiftLeft, Nat.one_shiftLeft]
  exact Nat.pow_le_pow_right (by omega) h

theorem shiftLeft_pos (w : ℕ) : 0 < 1 <<< w := by
  rw [Nat.one_shiftLeft]
  exact Nat.two_pow_pos w

theorem dvd_shiftLeft {w n : ℕ} (h : n ≤ w) : 1 <<< n ∣ 1 <<< w := by
  rw [Nat.one_shiftLeft, Nat.one_shiftLeft]
  exact Nat.pow_dvd_pow 2 h

theorem ctlInQueMemSize_eq (hP : P.Admitted) : P.ctlInQueMemSize = 8 * 1 <<< P.ctlQueW := by
  obtain ⟨-, ⟨-, hW⟩, -⟩ := HifParams.admitted_iff.1 hP
  have hle : 1 <<< P.ctlQueW ≤ 33554432 := shiftLeft_le hW
  rw [HifParams.ctlInQueMemSize, ctrlMsgSize, Nat.mod_eq_of_lt (by omega), Nat.mul_comm]

theorem ctlQueMemSize_eq (hP : P.Admitted) : P.ctlQueMemSize = P.ctlBytes := by
  obtain ⟨-, ⟨-, hW⟩, -⟩ := HifParams.admitted_iff.1 hP
  have hle : 1 <<< P.ctlQueW ≤ 33554432 := shiftLeft_le hW
  have hout : P.ctlOutQueMemSize = P.ctlInQueMemSize := rfl
  rw [HifParams.ctlQueMemSize, hout, ctlInQueMemSize_eq hP, HifParams.ctlBytes]
  omega

/-- A block region: between 1 MB and 2 GB. -/
theorem blkMemSize_bounds {sizeW cntW : ℕ} (hs : 16 ≤ sizeW ∧ sizeW ≤ 25) (hc : 4 ≤ cntW ∧ cntW ≤ 6) :
    0 < (1 <<< sizeW) * (1 <<< cntW) ∧ (1 <<< sizeW) * (1 <<< cntW) ≤ 2147483648 ∧
      4096 ∣ (1 <<< sizeW) * (1 <<< cntW) := by
  have hs1 : 1 <<< sizeW ≤ 33554432 := shiftLeft_le hs.2
  have hc1 : 1 <<< cntW ≤ 64 := shiftLeft_le hc.2
  have hdvd : 4096 ∣ 1 <<< sizeW := dvd_shiftLeft (n := 12) (by omega)
  refine ⟨Nat.mul_pos (shiftLeft_pos _) (shiftLeft_pos _), ?_, Nat.dvd_trans hdvd (Nat.dvd_mul_right ..)⟩
  calc (1 <<< sizeW) * (1 <<< cntW) ≤ 33554432 * 64 := Nat.mul_le_mul hs1 hc1
    _ = 2147483648 := rfl

/-- What the sizes of the region list are. -/
structure Sizes (P : HifParams) : Prop where
  inBlk : 0 < P.inBlkMemSize ∧ P.inBlkMemSize ≤ 2147483648 ∧ 4096 ∣ P.inBlkMemSize
  outBlk : 0 < P.outBlkMemSize ∧ P.outBlkMemSize ≤ 2147483648 ∧ 4096 ∣ P.outBlkMemSize
  appUnit : P.appUnitMemSizeUp < 36028797018968064 ∧ 4096 ∣ P.appUnitMemSizeUp
  appPers : P.appPersMemSizeUp < 36028797018968064 ∧ 4096 ∣ P.appPersMemSizeUp

theorem sizes (hP : P.Admitted) (hpers : P.appPersMemSize < 1 <<< 55) (hunit : P.appUnitMemSize < 1 <<< 55) :
    Sizes P := by
  obtain ⟨-, -, hi1, hi2, ho1, ho2⟩ := HifParams.admitted_iff.1 hP
  have hup : ∀ x < 1 <<< 55, up 4096 x < 36028797018968064 := by
    intro x hx
    have hlt := up_lt (n := x) (show 0 < 4096 by omega)
    have h55 : 1 <<< 55 = 36028797018963968 := rfl
    omega
  exact ⟨blkMemSize_bounds hi1 hi2, blkMemSize_bounds ho1 ho2, ⟨hup _ hunit, dvd_up⟩, ⟨hup _ hpers, dvd_up⟩⟩

theorem unitMemSize_bounds (unitSize : ℕ) :
    HifParams.unitMemSize unitSize < 4294967296 ∧ 4096 ∣ HifParams.unitMemSize unitSize := by
  refine ⟨Nat.mod_lt _ (by omega), ?_⟩
  exact (Nat.dvd_mod_iff (by decide)).2 dvd_up

theorem initRegion_eq {size numaSet : ℕ} (hs : size < 72057594037927936) (hn : numaSet < 256) :
    MemRegion.initRegion size numaSet = ⟨size, numaSet, 0⟩ := by
  rw [MemRegion.initRegion, Nat.mod_eq_of_lt hs, Nat.mod_eq_of_lt hn]

/-! ### The regions -/

section Regions

variable (hP : P.Admitted) (hS : Sizes P) (hm : m.Regular aeCnt auCnt P.numaSets.toNat)

/-- The number of NUMA sets that are in use. -/
theorem numaSets_bounds (hP : P.Admitted) : 0 < P.numaSets.toNat ∧ P.numaSets.toNat ≤ 4 := by
  obtain ⟨hn, -⟩ := HifParams.admitted_iff.1 hP
  omega

include hP hm in
theorem numaSet_lt {u : ℕ} (hu : u < m.unitCnt) : m.numaSet u < P.numaSets.toNat := by
  rw [hm.unitCnt] at hu
  rw [hm.numaSet u hu]
  exact Nat.mod_lt _ (numaSets_bounds hP).1

include hP hS hm in
/-- The regions of a unit. -/
theorem unitRegions_eq {u : ℕ} (hu : u < m.unitCnt) : unitRegions P m unitSize u =
    [⟨P.inBlkMemSize, m.numaSet u, 0⟩, ⟨P.outBlkMemSize, m.numaSet u, 0⟩, ⟨P.appUnitMemSizeUp, m.numaSet u, 0⟩,
      ⟨HifParams.unitMemSize unitSize, m.numaSet u, 0⟩] := by
  have hn := numaSet_lt hP hm hu
  have h4 := (numaSets_bounds hP).2
  have hi := hS.inBlk
  have ho := hS.outBlk
  have ha := hS.appUnit
  have hu := unitMemSize_bounds unitSize
  simp only [unitRegions]
  rw [initRegion_eq (by omega) (by omega), initRegion_eq (by omega) (by omega), initRegion_eq (by omega) (by omega),
    initRegion_eq (by omega) (by omega)]

include hP hm in
/-- The control region of an AE. -/
theorem ctlRegion_eq (hau : 0 < auCnt) {ae : ℕ} (hae : ae < aeCnt) :
    ctlRegion P m ae = ⟨P.ctlBytes * auCnt % 4294967296, ae % P.numaSets.toNat, 0⟩ ∧
      m.numaSet ae = ae % P.numaSets.toNat ∧ ae < m.unitCnt := by
  have hlt : ae < aeCnt * auCnt := lt_of_lt_of_le hae (Nat.le_mul_of_pos_right _ hau)
  have hfind : m.findUnitId ae 0 = ae := by
    have hmap := hm.unitMap ae 0 hae (by omega)
    rw [UnitMap.findUnitId, hmap]
    omega
  have hset : m.numaSet ae = ae % P.numaSets.toNat := by rw [hm.numaSet ae hlt, Nat.mod_eq_of_lt hae]
  have h4 := numaSets_bounds hP
  have hn : ae % P.numaSets.toNat < P.numaSets.toNat := Nat.mod_lt _ h4.1
  refine ⟨?_, hset, hm.unitCnt ▸ hlt⟩
  rw [ctlRegion, hfind, hset, hm.auCnt_eq ae hae, HifParams.ctlRegionSize, ctlQueMemSize_eq hP]
  refine initRegion_eq ?_ (by omega)
  have hmod := Nat.mod_lt (P.ctlBytes * auCnt) (show 0 < 4294967296 by omega)
  omega

include hS in
theorem firstRegions_eq : [MemRegion.initRegion P.appPersMemSizeUp 0, .initRegion HifParams.flushLinesMemSize 0] =
    [⟨P.appPersMemSizeUp, 0, 0⟩, ⟨512, 0, 0⟩] := by
  have hp := hS.appPers
  rw [initRegion_eq (by omega) (by omega)]
  rfl

include hP hS hm in
/-- **The region list.** -/
theorem memRegionList_eq (hau : 0 < auCnt) : memRegionList P m m.unitCnt unitSize =
    [⟨P.appPersMemSizeUp, 0, 0⟩, ⟨512, 0, 0⟩] ++
      (List.range aeCnt).map (fun ae => ⟨P.ctlBytes * auCnt % 4294967296, ae % P.numaSets.toNat, 0⟩) ++
      (List.range m.unitCnt).flatMap fun u =>
        [⟨P.inBlkMemSize, m.numaSet u, 0⟩, ⟨P.outBlkMemSize, m.numaSet u, 0⟩, ⟨P.appUnitMemSizeUp, m.numaSet u, 0⟩,
          ⟨HifParams.unitMemSize unitSize, m.numaSet u, 0⟩] := by
  have hctl : (List.range aeCnt).map (ctlRegion P m) = (List.range aeCnt).map
      (fun ae => ⟨P.ctlBytes * auCnt % 4294967296, ae % P.numaSets.toNat, 0⟩) :=
    List.map_congr_left fun ae hae => (ctlRegion_eq hP hm hau (List.mem_range.1 hae)).1
  have hunit : (List.range m.unitCnt).map (unitRegions P m unitSize) = (List.range m.unitCnt).map fun u =>
      [⟨P.inBlkMemSize, m.numaSet u, 0⟩, ⟨P.outBlkMemSize, m.numaSet u, 0⟩, ⟨P.appUnitMemSizeUp, m.numaSet u, 0⟩,
        ⟨HifParams.unitMemSize unitSize, m.numaSet u, 0⟩] :=
    List.map_congr_left fun u hu => unitRegions_eq hP hS hm (List.mem_range.1 hu)
  rw [memRegionList, firstRegions_eq hS, hm.aeCnt_eq, hctl, List.flatMap_def, hunit, ← List.flatMap_def]

/-- The units of a NUMA set, AU by AU. -/
theorem total_units (n c : ℕ) : total (fun u => u % aeCnt % P.numaSets.toNat) (fun _ => c)
    (List.range (aeCnt * n)) k = P.aesOf aeCnt k * (n * c) := by
  induction n with
  | zero => simp [total]
  | succ n ih =>
    have hlast : total (fun u => u % aeCnt % P.numaSets.toNat) (fun _ => c)
        ((List.range aeCnt).map fun x => aeCnt * n + x) k = P.aesOf aeCnt k * c := by
      rw [total_map, HifParams.aesOf, ← total_const]
      refine total_congr fun ae hae => ⟨?_, rfl⟩
      rw [Nat.mul_add_mod, Nat.mod_eq_of_lt (List.mem_range.1 hae)]
    rw [Nat.mul_succ, List.range_add, total_append, ih, hlast]
    ring

/-- The regions of units, one list a unit. -/
theorem total_flatMap (f : ℕ → ℕ) (a b c d : ℕ) (us : List ℕ) :
    total MemRegion.numaSet MemRegion.size
      (us.flatMap fun u => [⟨a, f u, 0⟩, ⟨b, f u, 0⟩, ⟨c, f u, 0⟩, ⟨d, f u, 0⟩]) k =
      total f (fun _ => a + b + c + d) us k := by
  induction us with
  | nil => rfl
  | cons u us ih =>
    rw [List.flatMap_cons, total_append, ih, total_cons]
    by_cases h : f u = k <;> simp [total, h]
    omega

include hP hS hm in
/-- **The memory of a NUMA set.** -/
theorem total_setSize (hau : 0 < auCnt) (hfit : P.CtlFits auCnt) :
    total MemRegion.numaSet MemRegion.size (memRegionList P m m.unitCnt unitSize) k =
      P.setSize aeCnt auCnt unitSize k := by
  have hctl : total MemRegion.numaSet MemRegion.size ((List.range aeCnt).map
      fun ae => (⟨P.ctlBytes * auCnt % 4294967296, ae % P.numaSets.toNat, 0⟩ : MemRegion)) k =
        P.aesOf aeCnt k * (P.ctlBytes * auCnt) := by
    rw [total_map, Nat.mod_eq_of_lt hfit, HifParams.aesOf, ← total_const]
  have hunits : total m.numaSet (fun _ => P.unitBytes unitSize) (List.range m.unitCnt) k =
      P.aesOf aeCnt k * (auCnt * P.unitBytes unitSize) := by
    rw [hm.unitCnt, ← total_units]
    exact total_congr fun u hu => ⟨hm.numaSet u (List.mem_range.1 hu), rfl⟩
  have hfirst : total MemRegion.numaSet MemRegion.size [⟨P.appPersMemSizeUp, 0, 0⟩, ⟨512, 0, 0⟩] k =
      if k = 0 then P.appPersMemSizeUp + HifParams.flushLinesMemSize else 0 := by
    by_cases h : k = 0 <;> simp [total, h, HifParams.flushLinesMemSize, eq_comm]
  rw [memRegionList_eq hP hS hm hau, total_append, total_append, total_flatMap, hctl, hfirst, HifParams.setSize]
  rw [HifParams.unitBytes] at hunits ⊢
  rw [hunits]
  ring

include hP hS hm in
/-- Every region is of a NUMA set that is in use, and that set has a region with something in it. -/
theorem regions_pos (hau : 0 < auCnt) : ∀ r ∈ memRegionList P m m.unitCnt unitSize, r.numaSet < P.numaSets.toNat ∧
    ∃ r' ∈ memRegionList P m m.unitCnt unitSize, r'.numaSet = r.numaSet ∧ 0 < r'.size := by
  rw [memRegionList_eq hP hS hm hau]
  intro r hr
  have hblk : ∀ u < m.unitCnt, ∃ r' ∈ [⟨P.appPersMemSizeUp, 0, 0⟩, ⟨512, 0, 0⟩] ++
      (List.range aeCnt).map (fun ae => (⟨P.ctlBytes * auCnt % 4294967296, ae % P.numaSets.toNat, 0⟩ : MemRegion)) ++
      (List.range m.unitCnt).flatMap (fun u =>
        [⟨P.inBlkMemSize, m.numaSet u, 0⟩, ⟨P.outBlkMemSize, m.numaSet u, 0⟩, ⟨P.appUnitMemSizeUp, m.numaSet u, 0⟩,
          ⟨HifParams.unitMemSize unitSize, m.numaSet u, 0⟩]), r'.numaSet = m.numaSet u ∧ 0 < r'.size := by
    intro u hu
    refine ⟨⟨P.inBlkMemSize, m.numaSet u, 0⟩, ?_, rfl, hS.inBlk.1⟩
    refine List.mem_append_right _ (List.mem_flatMap.2 ⟨u, List.mem_range.2 hu, ?_⟩)
    exact List.mem_cons_self
  rcases List.mem_append.1 hr with hr | hr
  · rcases List.mem_append.1 hr with hr | hr
    · have hset : r.numaSet = 0 := by
        rcases List.mem_cons.1 hr with rfl | hr
        · rfl
        · rw [List.mem_singleton.1 hr]
      exact ⟨hset ▸ (numaSets_bounds hP).1, ⟨512, 0, 0⟩, by simp, hset.symm, by decide⟩
    · obtain ⟨ae, hae, rfl⟩ := List.mem_map.1 hr
      obtain ⟨-, hset, hlt⟩ := ctlRegion_eq hP hm hau (List.mem_range.1 hae)
      obtain ⟨r', hr', heq, hpos⟩ := hblk ae hlt
      exact ⟨Nat.mod_lt _ (numaSets_bounds hP).1, r', hr', heq.trans hset, hpos⟩
  · obtain ⟨u, hu, hr⟩ := List.mem_flatMap.1 hr
    have hset : r.numaSet = m.numaSet u := by
      simp only [List.mem_cons, List.not_mem_nil, or_false] at hr
      rcases hr with rfl | rfl | rfl | rfl <;> rfl
    rw [hset]
    exact ⟨numaSet_lt hP hm (List.mem_range.1 hu), hblk u (List.mem_range.1 hu)⟩

/-- The first set is whole pages and the flush lines. -/
theorem setSize_mod (hS : Sizes P) (hW : 9 ≤ P.ctlQueW) : P.setSize aeCnt auCnt unitSize 0 % 4096 = 512 := by
  have hctl : 4096 ∣ P.ctlBytes := by
    have h512 : 512 ∣ 1 <<< P.ctlQueW := dvd_shiftLeft (n := 9) hW
    obtain ⟨c, hc⟩ := h512
    exact ⟨2 * c, by rw [HifParams.ctlBytes, hc]; ring⟩
  have hunit : 4096 ∣ P.unitBytes unitSize :=
    Nat.dvd_add (Nat.dvd_add (Nat.dvd_add hS.inBlk.2.2 hS.outBlk.2.2) hS.appUnit.2) (unitMemSize_bounds unitSize).2
  have hset : 4096 ∣ P.aesOf aeCnt 0 * (auCnt * (P.ctlBytes + P.unitBytes unitSize)) :=
    Nat.dvd_mul_left_of_dvd (Nat.dvd_mul_left_of_dvd (Nat.dvd_add hctl hunit) _) _
  have hpers := hS.appPers.2
  rw [HifParams.setSize, if_pos rfl, HifParams.flushLinesMemSize]
  omega

include hS hm in
theorem up_setSize_le (hau : 0 < auCnt) (hae : 0 < aeCnt) (hfit : P.CtlFits auCnt) :
    up numaAlign (P.setSize aeCnt auCnt unitSize k) ≤ 4611686018427387903 := by
  have haes : P.aesOf aeCnt k ≤ 4 := by
    have hle : P.aesOf aeCnt k ≤ (List.range aeCnt).length := List.length_filter_le ..
    rw [List.length_range] at hle
    exact hle.trans hm.aeCnt_le
  have hctl : P.ctlBytes < 4294967296 := lt_of_le_of_lt (Nat.le_mul_of_pos_right _ hau) hfit
  have hbytes : P.ctlBytes + P.unitBytes unitSize ≤ 36028810000000000 := by
    have hunit := unitMemSize_bounds unitSize
    have hi := hS.inBlk
    have ho := hS.outBlk
    have ha := hS.appUnit
    unfold HifParams.unitBytes
    omega
  have hmul : P.aesOf aeCnt k * (auCnt * (P.ctlBytes + P.unitBytes unitSize)) ≤ 4 * (16 * 36028810000000000) :=
    Nat.mul_le_mul haes (Nat.mul_le_mul (hm.auCnt_le hae) hbytes)
  have hif : (if k = 0 then P.appPersMemSizeUp + HifParams.flushLinesMemSize else 0) ≤ 36028797018968576 := by
    have hp := hS.appPers
    have h512 : HifParams.flushLinesMemSize = 512 := rfl
    split <;> omega
  have hup := up_lt (n := P.setSize aeCnt auCnt unitSize k) (show 0 < numaAlign by decide)
  have halign : numaAlign = 2097152 := rfl
  have hset : P.setSize aeCnt auCnt unitSize k ≤ 4 * (16 * 36028810000000000) + 36028797018968576 :=
    Nat.add_le_add hmul hif
  omega

include hP hS hm in
/-- All sets together have sizes of 64 bits. -/
theorem rounded_lt (hau : 0 < auCnt) (hae : 0 < aeCnt) (hfit : P.CtlFits auCnt) :
    rounded numaAlign (P.setSize aeCnt auCnt unitSize) P.numaSets.toNat < 18446744073709551616 := by
  have hsum : ∀ n, rounded numaAlign (P.setSize aeCnt auCnt unitSize) n ≤ n * 4611686018427387903 := by
    intro n
    induction n with
    | zero => simp [rounded]
    | succ n ih =>
      have hk : up numaAlign (P.setSize aeCnt auCnt unitSize n) ≤ 4611686018427387903 :=
        up_setSize_le hS hm hau hae hfit
      rw [rounded_succ]
      omega
  have hle := hsum P.numaSets.toNat
  have hn := (numaSets_bounds hP).2
  omega

end Regions

end OpenHT.Host
