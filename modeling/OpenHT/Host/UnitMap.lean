import OpenHT.Host.Params
import Mathlib.Logic.Function.Basic
import Mathlib.Tactic.Linarith

/-!
# The unit map

`CHtHifUnitMap` (`HtHifLib.h`), and the loop of the `CHtHifLib` constructor that fills it.

* `UnitMap`, `insert`, `setAeCnt`, `setAuCnt`, `build`: the source, with its assertions.
* `Filled`: what holds when `n` units have been inserted; `insert_filled` is one step.
* `build_regular`: a map that was built numbers the units AU by AU.
-/

namespace OpenHT.Host

def htHifAeCntMax : ℕ := 4
def htHifAuCntMax : ℕ := 16
def htHifUnitCntMax : ℕ := 64

/-- `assert`. -/
def assertThat (c : Prop) [Decidable c] (text : String) : Except String Unit :=
  if c then .ok () else .error text

theorem assertThat_ok {c : Prop} [Decidable c] {text : String} {u : Unit} (h : assertThat c text = .ok u) : c := by
  unfold assertThat at h
  split at h
  · assumption
  · cases h

/-- `CHtHifUnitMap`; its constructor clears everything. -/
structure UnitMap where
  aeCnt : ℕ := 0
  unitCnt : ℕ := 0
  maxUnitId : ℕ := 0
  auCnt : ℕ → ℕ := fun _ => 0
  aeAuMap : ℕ → ℕ × ℕ := fun _ => (0, 0)
  unitMap : ℕ → ℕ → ℕ := fun _ _ => 0
  numaSet : ℕ → ℕ := fun _ => 0

namespace UnitMap

def setAeCnt (m : UnitMap) (aeCnt : ℕ) : Except String UnitMap := do
  assertThat (aeCnt ≤ htHifAeCntMax) "aeCnt <= HT_HIF_AE_CNT_MAX"
  pure { m with aeCnt := aeCnt }

def setAuCnt (m : UnitMap) (aeId auCnt : ℕ) : Except String UnitMap := do
  assertThat (aeId < m.aeCnt) "aeId < m_aeCnt"
  assertThat (auCnt ≤ htHifAuCntMax) "auCnt <= HT_HIF_AU_CNT_MAX"
  pure { m with auCnt := Function.update m.auCnt aeId auCnt }

def insert (m : UnitMap) (unitId aeId auId numaSet : ℕ) : Except String UnitMap := do
  assertThat (unitId < htHifUnitCntMax) "unitId < HT_HIF_UNIT_CNT_MAX"
  assertThat (aeId < htHifAeCntMax) "aeId < HT_HIF_AE_CNT_MAX"
  assertThat (auId < htHifAuCntMax) "auId < HT_HIF_AU_CNT_MAX"
  pure { m with
    unitCnt := m.unitCnt + 1
    maxUnitId := max m.maxUnitId unitId
    unitMap := Function.update m.unitMap aeId (Function.update (m.unitMap aeId) auId unitId)
    aeAuMap := Function.update m.aeAuMap unitId (aeId, auId)
    numaSet := Function.update m.numaSet unitId numaSet }

/-- `FindAeAu`. -/
def findAeAu (m : UnitMap) (unitId : ℕ) : ℕ × ℕ := m.aeAuMap unitId

/-- `FindUnitId`. -/
def findUnitId (m : UnitMap) (ae au : ℕ) : ℕ := m.unitMap ae au

/-- The body of the constructor's inner loop, with `unitId`. -/
def insertAe (numaSetCnt auId : ℕ) (s : ℕ × UnitMap) (aeId : ℕ) : Except String (ℕ × UnitMap) := do
  let m ← s.2.insert s.1 aeId auId (aeId % numaSetCnt)
  pure (s.1 + 1, m)

def insertAu (aeCnt numaSetCnt : ℕ) (s : ℕ × UnitMap) (auId : ℕ) : Except String (ℕ × UnitMap) :=
  (List.range aeCnt).foldlM (insertAe numaSetCnt auId) s

/-- The constructor fills the map: `m_auCnt` units on each of `m_aeCnt` AEs. -/
def build (aeCnt auCnt numaSetCnt : ℕ) : Except String UnitMap := do
  assertThat (aeCnt ≤ htHifAeCntMax) "m_aeCnt <= HT_HIF_AE_CNT_MAX"
  let s ← (List.range auCnt).foldlM (insertAu aeCnt numaSetCnt) (0, {})
  let m ← s.2.setAeCnt aeCnt
  (List.range aeCnt).foldlM (fun m aeId => m.setAuCnt aeId auCnt) m

end UnitMap

/-- **A counting loop that may fail** keeps what each turn keeps. -/
theorem foldlM_range {σ : Type} {f : σ → ℕ → Except String σ} {I : ℕ → σ → Prop} {n : ℕ} {s s' : σ} (h0 : I 0 s)
    (hstep : ∀ i < n, ∀ s s', I i s → f s i = .ok s' → I (i + 1) s')
    (h : (List.range n).foldlM f s = .ok s') : I n s' := by
  induction n generalizing s' with
  | zero =>
    cases h
    exact h0
  | succ n ih =>
    rw [List.range_succ, List.foldlM_append] at h
    cases h1 : (List.range n).foldlM f s with
    | error e =>
      rw [h1] at h
      cases h
    | ok s1 =>
      rw [h1] at h
      have hI : I n s1 := ih (fun i hi => hstep i (by omega)) h1
      cases h2 : f s1 n with
      | error e => simp [bind, Except.bind, h2] at h
      | ok s2 =>
        have heq : s2 = s' := by simpa [bind, Except.bind, h2, pure, Except.pure] using h
        rw [← heq]
        exact hstep n (by omega) s1 s2 hI h2

namespace UnitMap

variable {aeCnt auCnt numaSetCnt n : ℕ} {m m' : UnitMap}

/-- The first `n` units are inserted. -/
structure Filled (aeCnt numaSetCnt n : ℕ) (m : UnitMap) : Prop where
  unitCnt : m.unitCnt = n
  aeAuMap : ∀ u < n, m.aeAuMap u = (u % aeCnt, u / aeCnt)
  numaSet : ∀ u < n, m.numaSet u = u % aeCnt % numaSetCnt
  unitMap : ∀ ae au, ae < aeCnt → au * aeCnt + ae < n → m.unitMap ae au = au * aeCnt + ae

theorem insert_ok {unitId aeId auId numaSet : ℕ} (h : m.insert unitId aeId auId numaSet = .ok m') :
    m' = { m with
      unitCnt := m.unitCnt + 1
      maxUnitId := max m.maxUnitId unitId
      unitMap := Function.update m.unitMap aeId (Function.update (m.unitMap aeId) auId unitId)
      aeAuMap := Function.update m.aeAuMap unitId (aeId, auId)
      numaSet := Function.update m.numaSet unitId numaSet } := by
  simp only [insert, assertThat, bind, Except.bind] at h
  split at h <;> [cases h; skip]
  split at h <;> [cases h; skip]
  split at h <;> [cases h; skip]
  exact (Except.ok.inj h).symm

/-- **One unit more.** -/
theorem insert_filled {ae au : ℕ} (hae : ae < aeCnt) (hf : m.Filled aeCnt numaSetCnt (au * aeCnt + ae))
    (h : m.insert (au * aeCnt + ae) ae au (ae % numaSetCnt) = .ok m') :
    m'.Filled aeCnt numaSetCnt (au * aeCnt + ae + 1) := by
  have hmod : (au * aeCnt + ae) % aeCnt = ae := by
    rw [Nat.mul_comm, Nat.mul_add_mod, Nat.mod_eq_of_lt hae]
  have hdiv : (au * aeCnt + ae) / aeCnt = au := by
    rw [Nat.mul_comm, Nat.mul_add_div (by omega), Nat.div_eq_of_lt hae, Nat.add_zero]
  rw [insert_ok h]
  refine ⟨by simp [hf.unitCnt], ?_, ?_, ?_⟩
  · intro u hu
    by_cases heq : u = au * aeCnt + ae
    · rw [heq, hmod, hdiv]
      exact Function.update_self ..
    · rw [← hf.aeAuMap u (by omega)]
      exact Function.update_of_ne heq ..
  · intro u hu
    by_cases heq : u = au * aeCnt + ae
    · rw [heq, hmod]
      exact Function.update_self ..
    · rw [← hf.numaSet u (by omega)]
      exact Function.update_of_ne heq ..
  · intro x y hx hxy
    have hsame : y * aeCnt + x = au * aeCnt + ae → x = ae ∧ y = au := by
      intro heq
      have hy : y = au := by
        rw [← hdiv, ← heq, Nat.mul_comm, Nat.mul_add_div (by omega), Nat.div_eq_of_lt hx, Nat.add_zero]
      refine ⟨?_, hy⟩
      rw [hy] at heq
      omega
    by_cases heq : x = ae
    · subst heq
      by_cases hy : y = au
      · subst hy
        simp
      · have hlt : y * aeCnt + x < au * aeCnt + x := by
          have hne : y * aeCnt + x ≠ au * aeCnt + x := fun h => hy (hsame h).2
          omega
        simp only [Function.update_self]
        rw [Function.update_of_ne hy]
        exact hf.unitMap x y hx hlt
    · have hlt : y * aeCnt + x < au * aeCnt + ae := by
        have hne : y * aeCnt + x ≠ au * aeCnt + ae := fun h => heq (hsame h).1
        omega
      simp only
      rw [Function.update_of_ne heq]
      exact hf.unitMap x y hx hlt

/-- A map that has `auCnt` units on each AE, numbered AU by AU. -/
structure Regular (aeCnt auCnt numaSetCnt : ℕ) (m : UnitMap) : Prop extends
    Filled aeCnt numaSetCnt (aeCnt * auCnt) m where
  aeCnt_eq : m.aeCnt = aeCnt
  auCnt_eq : ∀ ae < aeCnt, m.auCnt ae = auCnt
  aeCnt_le : aeCnt ≤ 4
  auCnt_le : 0 < aeCnt → auCnt ≤ 16

theorem insertAu_filled {au : ℕ} {s s' : ℕ × UnitMap} (hk : s.1 = au * aeCnt)
    (hf : s.2.Filled aeCnt numaSetCnt s.1) (h : insertAu aeCnt numaSetCnt s au = .ok s') :
    s'.1 = (au + 1) * aeCnt ∧ s'.2.Filled aeCnt numaSetCnt s'.1 := by
  have hstep : ∀ ae < aeCnt, ∀ s s' : ℕ × UnitMap, (s.1 = au * aeCnt + ae ∧ s.2.Filled aeCnt numaSetCnt s.1) →
      insertAe numaSetCnt au s ae = .ok s' → s'.1 = au * aeCnt + (ae + 1) ∧ s'.2.Filled aeCnt numaSetCnt s'.1 := by
    intro ae hae s s' hI hs
    obtain ⟨hn, hI⟩ := hI
    rw [insertAe, hn] at hs
    rw [hn] at hI
    cases hm : s.2.insert (au * aeCnt + ae) ae au (ae % numaSetCnt) with
    | error e =>
      rw [hm] at hs
      cases hs
    | ok m =>
      rw [hm] at hs
      have heq : s' = (au * aeCnt + ae + 1, m) := (Except.ok.inj hs).symm
      rw [heq]
      exact ⟨rfl, insert_filled hae hI hm⟩
  obtain ⟨hn, hfill⟩ := foldlM_range (I := fun ae s => s.1 = au * aeCnt + ae ∧ s.2.Filled aeCnt numaSetCnt s.1)
    ⟨hk, hf⟩ hstep h
  refine ⟨?_, hfill⟩
  rw [hn]
  exact (Nat.succ_mul au aeCnt).symm

theorem setAuCnt_ok {ae : ℕ} (h : m.setAuCnt ae auCnt = .ok m') :
    auCnt ≤ 16 ∧ m' = { m with auCnt := Function.update m.auCnt ae auCnt } := by
  simp only [setAuCnt, assertThat, bind, Except.bind] at h
  split at h <;> [cases h; skip]
  split at h <;> [cases h; skip]
  refine ⟨?_, (Except.ok.inj h).symm⟩
  rename_i hc
  split at hc
  · assumption
  · cases hc

/-- The units of the first `n` AEs are counted. -/
def Counted (aeCnt auCnt numaSetCnt n : ℕ) (m : UnitMap) : Prop :=
  m.Filled aeCnt numaSetCnt (aeCnt * auCnt) ∧ m.aeCnt = aeCnt ∧ (∀ ae < n, m.auCnt ae = auCnt) ∧ (0 < n → auCnt ≤ 16)

theorem setAuCnt_counted {ae : ℕ} (hI : m.Counted aeCnt auCnt numaSetCnt ae) (h : m.setAuCnt ae auCnt = .ok m') :
    m'.Counted aeCnt auCnt numaSetCnt (ae + 1) := by
  obtain ⟨hle, rfl⟩ := setAuCnt_ok h
  obtain ⟨hI1, hI2, hI3, -⟩ := hI
  refine ⟨⟨hI1.unitCnt, hI1.aeAuMap, hI1.numaSet, hI1.unitMap⟩, hI2, ?_, fun _ => hle⟩
  intro x hx
  by_cases heq : x = ae
  · rw [heq]
    exact Function.update_self ..
  · rw [← hI3 x (by omega)]
    exact Function.update_of_ne heq ..

/-- **The constructor's map**: unit `u` is AU `u / aeCnt` of AE `u % aeCnt`. -/
theorem build_regular (h : build aeCnt auCnt numaSetCnt = .ok m) : m.Regular aeCnt auCnt numaSetCnt := by
  simp only [build, bind, Except.bind] at h
  cases ha : assertThat (aeCnt ≤ htHifAeCntMax) "m_aeCnt <= HT_HIF_AE_CNT_MAX" with
  | error e =>
    rw [ha] at h
    cases h
  | ok u =>
    rw [ha] at h
    have hae : aeCnt ≤ 4 := assertThat_ok ha
    cases hs : (List.range auCnt).foldlM (insertAu aeCnt numaSetCnt) (0, {}) with
    | error e =>
      simp only [hs] at h
      cases h
    | ok s =>
      simp only [hs] at h
      have hfill : s.1 = auCnt * aeCnt ∧ s.2.Filled aeCnt numaSetCnt s.1 := by
        refine foldlM_range (I := fun au s => s.1 = au * aeCnt ∧ s.2.Filled aeCnt numaSetCnt s.1) ⟨by simp, ?_⟩
          (fun au _ s s' hI hs => insertAu_filled hI.1 hI.2 hs) hs
        exact ⟨rfl, fun u hu => by omega, fun u hu => by omega, fun x y hx hxy => by omega⟩
      rw [hfill.1, Nat.mul_comm] at hfill
      have hset : s.2.setAeCnt aeCnt = .ok { s.2 with aeCnt := aeCnt } := by
        rw [setAeCnt, assertThat, if_pos (show aeCnt ≤ htHifAeCntMax from hae)]
        rfl
      rw [hset] at h
      have hstep : ∀ ae < aeCnt, ∀ m m' : UnitMap, m.Counted aeCnt auCnt numaSetCnt ae →
          m.setAuCnt ae auCnt = .ok m' → m'.Counted aeCnt auCnt numaSetCnt (ae + 1) :=
        fun ae _ m m' hI hs => setAuCnt_counted hI hs
      have hrun := foldlM_range (I := fun n m' => m'.Counted aeCnt auCnt numaSetCnt n)
        ⟨⟨hfill.2.unitCnt, hfill.2.aeAuMap, hfill.2.numaSet, hfill.2.unitMap⟩, rfl, by simp, by simp⟩ hstep h
      exact ⟨hrun.1, hrun.2.1, hrun.2.2.1, hae, hrun.2.2.2⟩

end UnitMap

end OpenHT.Host
