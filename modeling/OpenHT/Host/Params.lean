import Mathlib.Data.Nat.Basic
import Mathlib.Algebra.Order.Group.Int
import Mathlib.Tactic.Common

/-!
# Interface parameters

`CHtHifParams` (`HtHif.h`) and the checks the `CHtHifLib` constructor makes on it
before it builds anything: `check` throws the source's texts, `Admitted` are the
parameter sets that pass, `admitted_iff` is the ranges in closed form.
-/

namespace OpenHT.Host

/-- `CHtHifParams`, with its constructor's defaults. -/
structure HifParams where
  ctlTimerUSec : ℕ := 10
  oBlkTimerUSec : ℕ := 1000
  ctlQueW : ℕ := 9
  iBlkSizeW : ℕ := 16
  iBlkCntW : ℕ := 4
  oBlkSizeW : ℕ := 16
  oBlkCntW : ℕ := 4
  appPersMemSize : ℕ := 0
  appUnitMemSize : ℕ := 0
  numaSetCnt : ℤ := 0
deriving DecidableEq, Repr

namespace HifParams

/-- One width check of the constructor. -/
def checkWidth (name : String) (w lo hi : ℕ) : Except String Unit :=
  if w < lo ∨ w > hi then
    .error ("bad HtHifParam parameter, " ++ name ++ " cannot support values less than " ++
      toString lo ++ " or greater than " ++ toString hi)
  else .ok ()

/-- The number of NUMA sets in use: `max(m_numaSetCnt, 1)`. -/
def numaSets (P : HifParams) : ℤ := max P.numaSetCnt 1

def checkNumaSetCnt (P : HifParams) : Except String Unit :=
  if P.numaSets ≠ 1 ∧ P.numaSets ≠ 2 ∧ P.numaSets ≠ 4 then
    .error "bad HtHifParam parameter, m_numaSetCnt only supports 1, 2 or 4"
  else .ok ()

/-- The parameter checks of the `CHtHifLib` constructor, in its order. -/
def check (P : HifParams) : Except String Unit := do
  P.checkNumaSetCnt
  checkWidth "m_ctlQueW" P.ctlQueW 9 25
  checkWidth "m_iBlkSizeW" P.iBlkSizeW 16 25
  checkWidth "m_iBlkCntW" P.iBlkCntW 4 6
  checkWidth "m_oBlkSizeW" P.oBlkSizeW 16 25
  checkWidth "m_oBlkCntW" P.oBlkCntW 4 6

/-- The parameter sets the constructor accepts. -/
def Admitted (P : HifParams) : Prop := P.check = .ok ()

instance (P : HifParams) : Decidable P.Admitted :=
  match h : P.check with
  | .ok () => .isTrue h
  | .error e => .isFalse (by rw [Admitted, h]; simp)

theorem checkWidth_ok (name : String) {w lo hi : ℕ} :
    checkWidth name w lo hi = .ok () ↔ lo ≤ w ∧ w ≤ hi := by
  unfold checkWidth
  split <;> simp <;> omega

theorem checkNumaSetCnt_ok {P : HifParams} :
    P.checkNumaSetCnt = .ok () ↔ P.numaSets = 1 ∨ P.numaSets = 2 ∨ P.numaSets = 4 := by
  unfold checkNumaSetCnt
  split <;> simp <;> omega

/-- **The admitted parameters**, as ranges. -/
theorem admitted_iff {P : HifParams} :
    P.Admitted ↔ (P.numaSets = 1 ∨ P.numaSets = 2 ∨ P.numaSets = 4) ∧
      (9 ≤ P.ctlQueW ∧ P.ctlQueW ≤ 25) ∧ (16 ≤ P.iBlkSizeW ∧ P.iBlkSizeW ≤ 25) ∧
      (4 ≤ P.iBlkCntW ∧ P.iBlkCntW ≤ 6) ∧ (16 ≤ P.oBlkSizeW ∧ P.oBlkSizeW ≤ 25) ∧
      (4 ≤ P.oBlkCntW ∧ P.oBlkCntW ≤ 6) := by
  rw [← checkNumaSetCnt_ok, ← checkWidth_ok "m_ctlQueW",
    ← checkWidth_ok "m_iBlkSizeW", ← checkWidth_ok "m_iBlkCntW",
    ← checkWidth_ok "m_oBlkSizeW", ← checkWidth_ok "m_oBlkCntW"]
  simp only [Admitted, check]
  cases P.checkNumaSetCnt with
  | error e => simp [bind, Except.bind]
  | ok u =>
    cases checkWidth "m_ctlQueW" P.ctlQueW 9 25 <;>
      cases checkWidth "m_iBlkSizeW" P.iBlkSizeW 16 25 <;>
      cases checkWidth "m_iBlkCntW" P.iBlkCntW 4 6 <;>
      cases checkWidth "m_oBlkSizeW" P.oBlkSizeW 16 25 <;> simp [bind, Except.bind]

/-- The defaults pass the checks. -/
theorem admitted_default : ({} : HifParams).Admitted := by decide

end HifParams

end OpenHT.Host
