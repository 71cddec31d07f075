import OpenHT.Host.HifMem

/-!
# Both sides of a control ring

The host takes the place and the size of a ring from `m_ctlQueW`, the model unit from a
constant.

* `hostRing`, `modelRing`: the rings of a unit, by the party that writes them.
* `RingsAgree`: every message index names one slot on both sides, and no slot is in two rings of an AE.
* `rings_agree_iff`: this is so for the default width only.
* `wide_rings_differ`: with `m_ctlQueW = 10` message 512 is at two addresses.
-/

namespace OpenHT.Host

section Rings

variable (P : HifParams) (m : UnitMap) (M : HifMem)

/-- The ring of a unit that `p` writes, as the host sees it. -/
def hostRing (p : Party) (unitId : ℕ) : CtlRing :=
  match p with
  | .host => hostInCtlQue P m M unitId
  | .model => hostOutCtlQue P m M unitId

/-- The ring of a unit that `p` writes, as the model unit sees it. -/
def modelRing (p : Party) (unitId : ℕ) : CtlRing :=
  match p with
  | .host => modelInCtlQue m M unitId
  | .model => modelOutCtlQue m M unitId

/-- **Ring address agreement.** -/
structure RingsAgree : Prop where
  same : ∀ u < m.unitCnt, ∀ p n, (hostRing P m M p u).slot n = (modelRing m M p u).slot n
  apart : ∀ u < m.unitCnt, ∀ v < m.unitCnt, (m.findAeAu u).1 = (m.findAeAu v).1 → ∀ p q, (u, p) ≠ (v, q) →
    ∀ n k, (hostRing P m M p u).slot n ≠ (hostRing P m M q v).slot k

end Rings

variable {P : HifParams} {m : UnitMap} {M : HifMem} {host : HostAlloc} {huge : Bool}
  {aeCnt auCnt unitSize : ℕ}

theorem allocHifMem_ok {unitCnt : ℕ} (h : allocHifMem host huge P m unitCnt unitSize = .ok M) :
    M.aeCnt = m.aeCnt ∧ M.regions = (setMemOffsets (memRegionList P m unitCnt unitSize)).regions ∧
      M.order = memOrder (memRegionList P m unitCnt unitSize) ∧
      M.htHifMemSize = Packing.up numaAlign (setMemOffsets (memRegionList P m unitCnt unitSize)).offset %
        18446744073709551616 ∧
      M.ctlInQueMemSize = P.ctlInQueMemSize ∧ M.ctlQueMemSize = P.ctlQueMemSize := by
  simp only [allocHifMem] at h
  split at h
  · cases h
  · split at h
    · cases h
    · have heq := (Except.ok.inj h).symm
      rw [heq]
      exact ⟨rfl, rfl, rfl, rfl, rfl, rfl⟩

/-- The offset of a ring from the control region, in messages of the default width. -/
def ringIndex (p : Party) (au : ℕ) : ℕ :=
  match p with
  | .host => au * 1024
  | .model => au * 1024 + 512

theorem modelRing_slot (p : Party) (u n : ℕ) : (modelRing m M p u).slot n =
    M.memBase (2 + (m.findAeAu u).1) + 8 * (ringIndex p (m.findAeAu u).2 + n % 512) := by
  have hmask : n &&& (512 - 1) = n % 512 := Nat.and_two_pow_sub_one_eq_mod n 9
  have hcnt : modelHifCtlQueCnt = 512 := rfl
  cases p with
  | host =>
    simp only [modelRing, modelInCtlQue, CtlRing.slot, HifMem.getCtlQueMemBase, ctrlMsgSize, ringIndex, hcnt, hmask]
    omega
  | model =>
    simp only [modelRing, modelOutCtlQue, CtlRing.slot, HifMem.getCtlQueMemBase, ctrlMsgSize, ringIndex, hcnt, hmask]
    omega

/-- With the default width the host computes the same address. -/
theorem hostRing_slot (h9 : P.ctlQueW = 9) (hin : M.ctlInQueMemSize = P.ctlInQueMemSize)
    (hque : M.ctlQueMemSize = P.ctlQueMemSize) (p : Party) {u : ℕ} (hau : (m.findAeAu u).2 < 16) (n : ℕ) :
    (hostRing P m M p u).slot n =
      M.memBase (2 + (m.findAeAu u).1) + 8 * (ringIndex p (m.findAeAu u).2 + n % 512) := by
  have hmask : n &&& (1 <<< P.ctlQueW - 1) = n % 512 := by
    rw [h9]
    exact Nat.and_two_pow_sub_one_eq_mod n 9
  have hin' : M.ctlInQueMemSize = 4096 := by rw [hin, HifParams.ctlInQueMemSize, h9]; rfl
  have hque' : M.ctlQueMemSize = 8192 := by
    rw [hque, HifParams.ctlQueMemSize, HifParams.ctlInQueMemSize, HifParams.ctlOutQueMemSize, h9]
    rfl
  cases p with
  | host =>
    simp only [hostRing, hostInCtlQue, CtlRing.slot, HifMem.getCtlInQueMemBase, ctrlMsgSize, ringIndex, hmask, hque']
    omega
  | model =>
    simp only [hostRing, hostOutCtlQue, CtlRing.slot, HifMem.getCtlOutQueMemBase, ctrlMsgSize, ringIndex, hmask,
      hque', hin']
    omega

theorem UnitMap.Regular.findAeAu {numaSetCnt u : ℕ} (h : m.Regular aeCnt auCnt numaSetCnt) (hu : u < m.unitCnt) :
    m.findAeAu u = (u % aeCnt, u / aeCnt) ∧ u / aeCnt < auCnt ∧ u % aeCnt < aeCnt := by
  rw [h.unitCnt] at hu
  have hpos : 0 < aeCnt := by
    by_contra h0
    rw [Nat.eq_zero_of_not_pos h0, Nat.zero_mul] at hu
    omega
  exact ⟨h.aeAuMap u hu, Nat.div_lt_of_lt_mul hu, Nat.mod_lt u hpos⟩

/-- **Message 512** tells a wider ring from the model's. -/
theorem host_slot_wide (hW : 10 ≤ P.ctlQueW) {u : ℕ} (hu : m.findAeAu u = (0, 0)) :
    (hostRing P m M .host u).slot 512 = M.memBase 2 + 4096 := by
  have hand : 512 &&& (1 <<< P.ctlQueW - 1) = 512 := by
    rw [Nat.one_shiftLeft, Nat.and_two_pow_sub_one_eq_mod]
    refine Nat.mod_eq_of_lt ?_
    calc 512 < Nat.pow 2 10 := by decide
      _ ≤ 2 ^ P.ctlQueW := Nat.pow_le_pow_right (by omega) hW
  simp only [hostRing, hostInCtlQue, CtlRing.slot, HifMem.getCtlInQueMemBase, hu, hand, ctrlMsgSize, Nat.add_zero,
    Nat.mul_zero, Nat.zero_mod]

/-- **The two sides agree exactly for the default width.** -/
theorem rings_agree_iff (hP : P.Admitted) (hm : UnitMap.build aeCnt auCnt P.numaSets.toNat = .ok m)
    (hM : allocHifMem host huge P m m.unitCnt unitSize = .ok M) :
    RingsAgree P m M ↔ P.ctlQueW = 9 ∨ m.unitCnt = 0 := by
  have hreg := UnitMap.build_regular hm
  obtain ⟨-, -, -, -, hin, hque⟩ := allocHifMem_ok hM
  obtain ⟨-, ⟨hlo, -⟩, -⟩ := HifParams.admitted_iff.1 hP
  constructor
  · intro h
    by_contra hno
    rw [not_or] at hno
    have hzero : m.findAeAu 0 = (0, 0) := by
      rw [(hreg.findAeAu (Nat.pos_of_ne_zero hno.2)).1, Nat.zero_mod, Nat.zero_div]
    have hsame := h.same 0 (Nat.pos_of_ne_zero hno.2) .host 512
    rw [host_slot_wide (by omega) hzero, modelRing_slot, hzero] at hsame
    simp [ringIndex] at hsame
  · rintro (h9 | h0)
    · have hau : ∀ u < m.unitCnt, (m.findAeAu u).2 < 16 := by
        intro u hu
        obtain ⟨heq, hlt, hae⟩ := hreg.findAeAu hu
        rw [heq]
        exact lt_of_lt_of_le hlt (hreg.auCnt_le (by omega))
      refine ⟨?_, ?_⟩
      · intro u hu p n
        rw [hostRing_slot h9 hin hque p (hau u hu), modelRing_slot]
      · intro u hu v hv hae p q hne n k heq
        rw [hostRing_slot h9 hin hque p (hau u hu), hostRing_slot h9 hin hque q (hau v hv), hae] at heq
        obtain ⟨hu', -, -⟩ := hreg.findAeAu hu
        obtain ⟨hv', -, -⟩ := hreg.findAeAu hv
        have hindex : ringIndex p (m.findAeAu u).2 + n % 512 = ringIndex q (m.findAeAu v).2 + k % 512 := by omega
        -- the place in the region gives the AU and the ring
        have hpq : p = q ∧ (m.findAeAu u).2 = (m.findAeAu v).2 := by
          cases p <;> cases q <;> simp only [ringIndex] at hindex <;> simp <;> omega
        have huv : u = v := by
          have hmod : u % aeCnt = v % aeCnt := by rw [hu', hv'] at hae; exact hae
          have hdiv : u / aeCnt = v / aeCnt := by rw [hu', hv'] at hpq; exact hpq.2
          rw [← Nat.div_add_mod u aeCnt, ← Nat.div_add_mod v aeCnt, hmod, hdiv]
        exact hne (by rw [huv, hpq.1])
    · exact ⟨fun u hu => by omega, fun u hu => by omega⟩

/-- An allocator that always finds the same place. -/
def someHost : HostAlloc := ⟨some 1073741824, fun _ _ => some 4194304⟩

/-- One unit on one AE. -/
def oneUnit : UnitMap where
  aeCnt := 1
  unitCnt := 1
  auCnt := Function.update (fun _ => 0) 0 1
  aeAuMap := Function.update (fun _ => (0, 0)) 0 (0, 0)
  unitMap := Function.update (fun _ _ => 0) 0 (Function.update (fun _ => 0) 0 0)
  numaSet := Function.update (fun _ => 0) 0 0

theorem build_oneUnit : UnitMap.build 1 1 1 = .ok oneUnit := rfl

theorem rings_agree_iff_demo : ∃ m M, UnitMap.build 1 1 1 = .ok m ∧
    allocHifMem someHost false {} m m.unitCnt 1000 = .ok M ∧ (RingsAgree {} m M ↔ (9 = 9 ∨ m.unitCnt = 0)) := by
  have hm : UnitMap.build 1 1 (HifParams.numaSets {}).toNat = .ok oneUnit := build_oneUnit
  cases hM : allocHifMem someHost false {} oneUnit oneUnit.unitCnt 1000 with
  | error e => simp [allocHifMem, HostAlloc.alloc, someHost] at hM
  | ok M => exact ⟨oneUnit, M, build_oneUnit, hM, rings_agree_iff (by decide) hm hM⟩

/-- **A wider ring**: the 513th message of the host is where the model unit does not look. -/
theorem wide_rings_differ : ∃ P m M, HifParams.Admitted P ∧ UnitMap.build 1 1 P.numaSets.toNat = .ok m ∧
    allocHifMem someHost false P m m.unitCnt 1000 = .ok M ∧ ¬RingsAgree P m M := by
  let P : HifParams := { ctlQueW := 10 }
  cases hM : allocHifMem someHost false P oneUnit oneUnit.unitCnt 1000 with
  | error e => simp [allocHifMem, HostAlloc.alloc, someHost] at hM
  | ok M =>
    refine ⟨P, oneUnit, M, by decide, build_oneUnit, hM, ?_⟩
    intro h
    have hsame := h.same 0 (by decide) .host 512
    rw [host_slot_wide (by decide) rfl, modelRing_slot] at hsame
    have hzero : oneUnit.findAeAu 0 = (0, 0) := rfl
    rw [hzero] at hsame
    simp [ringIndex] at hsame

end OpenHT.Host
