import Mathlib.Data.Nat.Bitwise

/-!
# Control messages

A slot of a control ring (`HtCtrlMsg.h`) is one 64-bit word: a valid bit, a 7-bit
message type and 56 bits of data. An empty slot is `none`, so a message here is the
other two fields. Types below 16 are the interface's own commands (`HtDefines.h`),
types from 16 on belong to the application.

The data of a block-ready message (`IBLK_RDY`, `OBLK_RDY`) is `(cnt << 3) | dq`:
a quadword count and a data-queue type (`HIF_DQ_*`, or 0 for plain data).
-/

namespace OpenHT.Host

/-- The two ends of a link: the host unit (`CHtUnitLib`) and the model unit
(`CHtModelUnitLib`). -/
inductive Party
  | host
  | model
deriving DecidableEq, Repr

namespace Party

/-- The party at the other end. -/
def other : Party → Party
  | host => model
  | model => host

@[simp] theorem other_other (p : Party) : p.other.other = p := by cases p <;> rfl

@[simp] theorem other_ne (p : Party) : p.other ≠ p := by cases p <;> decide

@[simp] theorem ne_other (p : Party) : p ≠ p.other := by cases p <;> decide

/-- A party is `p` or the one opposite. -/
theorem eq_or_other (p r : Party) : r = p ∨ r = p.other := by cases p <;> cases r <;> simp [other]

end Party

/-- HIF commands. Types from 16 on are the application's. -/
inductive HifCmd
  | ctlParam | iblkAdr | oblkAdr | iblkParam | oblkParam | iblkRdy | oblkAvl | oblkFlshAdr
  | oblkRdy | iblkAvl | assert | assertColl
  | unknown (msgType : ℕ)
  | user (msgType : ℕ)
deriving DecidableEq, Repr

/-- The command of a message type. -/
def HifCmd.ofType : ℕ → HifCmd
  | 0 => .ctlParam
  | 1 => .iblkAdr
  | 2 => .oblkAdr
  | 3 => .iblkParam
  | 4 => .oblkParam
  | 5 => .iblkRdy
  | 6 => .oblkAvl
  | 7 => .oblkFlshAdr
  | 8 => .oblkRdy
  | 9 => .iblkAvl
  | 10 => .assert
  | 11 => .assertColl
  | t => if t < 16 then .unknown t else .user t

/-- The message type of a command. -/
def HifCmd.toType : HifCmd → ℕ
  | .ctlParam => 0
  | .iblkAdr => 1
  | .oblkAdr => 2
  | .iblkParam => 3
  | .oblkParam => 4
  | .iblkRdy => 5
  | .oblkAvl => 6
  | .oblkFlshAdr => 7
  | .oblkRdy => 8
  | .iblkAvl => 9
  | .assert => 10
  | .assertColl => 11
  | .unknown t => t
  | .user t => t

/-- The fields of a valid `CHtCtrlMsg`. -/
structure CtrlMsg where
  msgType : BitVec 7
  msgData : BitVec 56
deriving DecidableEq, Repr

namespace CtrlMsg

/-- `CHtCtrlMsg(msgType, msgData)`: the bit fields keep the low bits. -/
def make (msgType msgData : ℕ) : CtrlMsg := ⟨BitVec.ofNat 7 msgType, BitVec.ofNat 56 msgData⟩

/-- `GetMsgType`, as a command. -/
def cmd (m : CtrlMsg) : HifCmd := HifCmd.ofType m.msgType.toNat

/-- `GetMsgData`. -/
def data (m : CtrlMsg) : ℕ := m.msgData.toNat

/-- The data-queue type of a block-ready message: `msgData & 0x7`. -/
def dq (m : CtrlMsg) : ℕ := m.data &&& 7

/-- The count of a block-ready message: `msgData >> 3`. -/
def cnt (m : CtrlMsg) : ℕ := m.data >>> 3

theorem data_make (t d : ℕ) : (make t d).data = d % 2 ^ 56 := by simp [make, data]

theorem dq_eq (m : CtrlMsg) : m.dq = m.data % 8 := by
  rw [dq, show 7 = 2 ^ 3 - 1 from rfl, Nat.and_two_pow_sub_one_eq_mod]

theorem cnt_eq (m : CtrlMsg) : m.cnt = m.data / 8 := by rw [cnt, Nat.shiftRight_eq_div_pow]

theorem cmd_make_user {t : ℕ} (h1 : 16 ≤ t) (h2 : t < 128) (d : ℕ) : (make t d).cmd = .user t := by
  have ht : (make t d).msgType.toNat = t := by simp [make]; omega
  rw [cmd, ht]
  unfold HifCmd.ofType
  split <;> first | omega | rw [if_neg (by omega)]

end CtrlMsg

/-! ## Block-ready messages -/

/-- Data-queue types (`HIF_DQ_NULL`, `HIF_DQ_CALL`, `HIF_DQ_HALT`). -/
abbrev hifDqNull : ℕ := 1
abbrev hifDqCall : ℕ := 6
abbrev hifDqHalt : ℕ := 7

namespace Party

/-- The command announcing a block this party wrote. -/
def cmdRdy : Party → HifCmd
  | host => .iblkRdy
  | model => .oblkRdy

/-- The command giving a block back to the other party. -/
def cmdAvl : Party → HifCmd
  | host => .oblkAvl
  | model => .iblkAvl

@[simp] theorem cmdRdy_ne_cmdAvl (p r : Party) : p.cmdRdy ≠ r.cmdAvl := by
  cases p <;> cases r <;> decide

/-- The block-ready message of `p`: `(cnt << 3) | dq`. -/
def rdyMsg (p : Party) (cnt dq : ℕ) : CtrlMsg := .make p.cmdRdy.toType (cnt <<< 3 ||| dq)

/-- The block-available message of `p`: its receive block index. -/
def avlMsg (p : Party) (blkIdx : ℕ) : CtrlMsg := .make p.cmdAvl.toType blkIdx

@[simp] theorem cmd_rdyMsg (p : Party) (cnt dq : ℕ) : (p.rdyMsg cnt dq).cmd = p.cmdRdy := by
  cases p <;> rfl

@[simp] theorem cmd_avlMsg (p : Party) (i : ℕ) : (p.avlMsg i).cmd = p.cmdAvl := by cases p <;> rfl

theorem data_rdyMsg (p : Party) (cnt : ℕ) {dq : ℕ} (h : dq < 8) :
    (p.rdyMsg cnt dq).data = (8 * cnt + dq) % 2 ^ 56 := by
  rw [rdyMsg, CtrlMsg.data_make, ← Nat.shiftLeft_add_eq_or_of_lt (by simpa using h),
    Nat.shiftLeft_eq]
  congr 1; omega

@[simp] theorem dq_rdyMsg (p : Party) (cnt : ℕ) {dq : ℕ} (h : dq < 8) :
    (p.rdyMsg cnt dq).dq = dq := by
  rw [CtrlMsg.dq_eq, data_rdyMsg p cnt h]; omega

theorem cnt_rdyMsg (p : Party) {cnt dq : ℕ} (hc : cnt < 2 ^ 53) (h : dq < 8) :
    (p.rdyMsg cnt dq).cnt = cnt := by
  rw [CtrlMsg.cnt_eq, data_rdyMsg p cnt h]; omega

end Party

end OpenHT.Host
