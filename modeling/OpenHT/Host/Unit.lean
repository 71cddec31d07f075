import Mathlib.Data.Nat.Bitwise
import Mathlib.Logic.Function.Basic
import OpenHT.Host.CtrlMsg
import OpenHT.Host.Params
import OpenHT.Lib.Lts
import OpenHT.Lib.Mem

/-!
# The two units of a link and their shared memory

`CHtUnitLib` (`HtHifLib.cpp`) and `CHtModelUnitLib` (`HtModelLib.cpp`) are the same
machine twice: each sends blocks in one direction (host: inbound, model: outbound)
and receives them in the other. The functions here are written once for a party
`p`; the source's names of the two instances are listed at the end.

* `Tx`: the sending half of a unit (`m_inBlk*` of the host, `m_outBlk*` of the model).
* `Rx`: the receiving half (`m_outBlk*` of the host, `m_inBlk*` of the model).
* `Core`: both halves of both units, the two control rings and the two block memories.
  `ring p` and `mem p` are the ones written by `p`.

A running index is only ever used modulo a power of two, so it is a natural number
here. The model unit learns its block parameters from the host's start-up messages;
until then its constructor leaves them uninitialised (`none`), and using them is
undefined behaviour (`Stop.undef`).

The fields `wrote`, `acc` and `got` are history: the messages put into a ring, what
the sender's operations have taken over and what the receiver's have delivered.
-/

namespace OpenHT.Host

/-- A quadword. -/
abbrev Qw := UInt64

/-- `MODEL_HIF_CTL_QUE_CNT`. -/
def modelHifCtlQueCnt : ℕ := 1 <<< 9

/-- What a host unit is constructed from: the admitted parameters and the bases (in
quadwords) of its two block regions. -/
structure Cfg where
  params : HifParams
  unitMHz : ℕ
  inBlkBase : ℕ
  outBlkBase : ℕ
  /-- `GetFlushLinesBase()`, when `GetNeedFlush()`. -/
  flushLinesBase : Option ℕ
  admitted : params.Admitted
  inBlkBase_lt : 8 * inBlkBase < 2 ^ 56
  outBlkBase_lt : 8 * outBlkBase < 2 ^ 56
  outBlkTimer_lt : params.oBlkTimerUSec * unitMHz < 1 <<< 28
  ctlTimer_lt : params.ctlTimerUSec * unitMHz < 1 <<< 16

namespace Cfg

variable (cfg : Cfg)

/-- The number of slots of a control ring, as `p` sees it. -/
def ctlQueCnt : Party → ℕ
  | .host => 1 <<< cfg.params.ctlQueW
  | .model => modelHifCtlQueCnt

/-- The base of the blocks written by `p`. -/
def blkBase : Party → ℕ
  | .host => cfg.inBlkBase
  | .model => cfg.outBlkBase

def blkSizeW : Party → ℕ
  | .host => cfg.params.iBlkSizeW
  | .model => cfg.params.oBlkSizeW

def blkCntW : Party → ℕ
  | .host => cfg.params.iBlkCntW
  | .model => cfg.params.oBlkCntW

/-- Quadwords in a block written by `p`. -/
def blkSize (p : Party) : ℕ := (1 <<< cfg.blkSizeW p) / 8

/-- The number of blocks written by `p`. -/
def blkCnt (p : Party) : ℕ := 1 <<< cfg.blkCntW p

end Cfg

/-- `m_xxBlkSize` and `m_xxBlkMask`. -/
structure BlkParam where
  size : ℕ
  mask : ℕ
deriving DecidableEq, Repr

/-- The block parameters of the blocks written by `p`. -/
def Cfg.blkParam (cfg : Cfg) (p : Party) : BlkParam := ⟨cfg.blkSize p, cfg.blkCnt p - 1⟩

theorem mask_eq (cfg : Cfg) (p : Party) (i : ℕ) : i &&& (cfg.blkCnt p - 1) = i % cfg.blkCnt p := by
  rw [Cfg.blkCnt, Nat.one_shiftLeft, Nat.and_two_pow_sub_one_eq_mod]

/-- The start of block `i`. -/
def BlkParam.addr (b : BlkParam) (base i : ℕ) : ℕ := base + (i &&& b.mask) * b.size

/-- The sending half of a unit. -/
structure Tx where
  /-- `m_ctlInWrIdx` / `m_outCtlWrIdx` -/
  ctlWrIdx : ℕ
  /-- `m_inBlkAvailCnt` / `m_outBlkAvailCnt` -/
  blkAvailCnt : ℤ
  /-- `m_inBlkWrIdx` / `m_outBlkWrIdx` -/
  blkWrIdx : ℕ
  /-- `m_inBlkIdx` / `m_outBlkIdx` -/
  blkIdx : ℕ
  param : Option BlkParam
  /-- `m_pInBlkBase` / `m_pOutBlkBase` -/
  blkBase : ℕ
  /-- `m_pInBlk` / `m_pOutBlk` -/
  blk : ℕ

/-- The receiving half of a unit. -/
structure Rx where
  /-- `m_outCtlRdIdx` / `m_inCtlRdIdx` -/
  ctlRdIdx : ℕ
  /-- `m_outMsgQue` / `m_inMsgQue` -/
  msgQue : List CtrlMsg
  /-- `m_outBlkDataSize` / `m_inBlkDataSize` -/
  blkDataSize : ℕ
  /-- `m_outBlkRdIdx` / `m_inBlkRdIdx` -/
  blkRdIdx : ℕ
  /-- `m_outBlkIdx` / `m_inBlkIdx` -/
  blkIdx : ℕ
  param : Option BlkParam
  /-- `m_pOutBlkBase` / `m_pInBlkBase` -/
  blkBase : ℕ
  /-- `m_pOutBlk` / `m_pInBlk` -/
  blk : ℕ
  /-- `m_recvRtnArgc`, of the host only -/
  recvRtnArgc : ℕ

/-- What travels over a link: quadwords of host data, markers, user messages, calls
(or returns) with their arguments, and the halt. -/
inductive Item
  | qw (x : Qw)
  | marker
  | msg (msgType msgData : ℕ)
  | call (argv : List Qw)
  | halt
deriving DecidableEq, Repr

/-- Both units, the rings and the block memories. -/
structure Core where
  tx : Party → Tx
  rx : Party → Rx
  ring : Party → ℕ → Option CtrlMsg
  mem : Party → Mem Qw
  wrote : Party → List CtrlMsg
  acc : Party → List Item
  got : Party → List Item

/-- Why a step does not happen: the thread is elsewhere, it spins on the lock, on an
occupied ring slot (`SendMsgInternal`) or on an empty queue (`CQueue::Front`), an
`assert` fails, or it reads an uninitialised field. -/
inductive Stop
  | off
  | lock
  | slot
  | spin
  | assert
  | undef
deriving DecidableEq, Repr

namespace Core

/-- History: `p`'s operations take over `l`. -/
def accept (c : Core) (p : Party) (l : List Item) : Core :=
  { c with acc := Function.update c.acc p (c.acc p ++ l) }

/-- History: `l`, sent by `p`, is delivered at the other end. -/
def deliver (c : Core) (p : Party) (l : List Item) : Core :=
  { c with got := Function.update c.got p (c.got p ++ l) }

/-- Replace the sending half of `p`. -/
def setTx (c : Core) (p : Party) (t : Tx) : Core := { c with tx := Function.update c.tx p t }

/-- Replace the receiving half of `p`. -/
def setRx (c : Core) (p : Party) (r : Rx) : Core := { c with rx := Function.update c.rx p r }

end Core

variable (cfg : Cfg) (p : Party)

/-! ## Sending -/

/-- `SendMsgInternal`: fill the next slot of the ring once it is empty. -/
def sendMsgInternal (m : CtrlMsg) (c : Core) : Except Stop Core :=
  let t := c.tx p
  let i := t.ctlWrIdx &&& (cfg.ctlQueCnt p - 1)
  if (c.ring p i).isSome then .error .slot
  else .ok { c.setTx p { t with ctlWrIdx := t.ctlWrIdx + 1 } with
    ring := Function.update c.ring p (Function.update (c.ring p) i (some m))
    wrote := Function.update c.wrote p (c.wrote p ++ [m]) }

/-- `NextInBlk` of the host, `NextOutBlk` of the model: give up the current block. -/
def nextTxBlk (c : Core) : Except Stop Core :=
  let t := c.tx p
  if t.blkAvailCnt ≤ 0 then .error .assert
  else match t.param with
    | none => .error .undef
    | some b => .ok (c.setTx p { t with
        blkAvailCnt := t.blkAvailCnt - 1
        blkWrIdx := 0
        blkIdx := t.blkIdx + 1
        blk := b.addr t.blkBase (t.blkIdx + 1) })

/-- `FlushInBlk` / `FlushOutBlk`, with the lock held: announce the current block. -/
def flushTxBlk (ctl : ℕ) (c : Core) : Except Stop Core :=
  let wrIdx := (c.tx p).blkWrIdx
  if wrIdx = 0 ∧ ctl = 0 then .ok c
  else do
    let c ← nextTxBlk p c
    sendMsgInternal cfg p (p.rdyMsg wrIdx ctl) c

/-- The `memcpy` of `SendDataInternal`: as much of `rest` as the current block takes. -/
def copyToBlk (rest : List Qw) (c : Core) : Except Stop (List Qw × Core) :=
  let t := c.tx p
  match t.param with
  | none => .error .undef
  | some b =>
    let chunk := rest.take (b.size - t.blkWrIdx)
    .ok (chunk, { c.setTx p { t with blkWrIdx := t.blkWrIdx + chunk.length } with
      mem := Function.update c.mem p ((c.mem p).write (t.blk + t.blkWrIdx) chunk) })

/-- The end of the loop body of `SendDataInternal`: a full block is flushed. -/
def flushIfFull (c : Core) : Except Stop Core :=
  let t := c.tx p
  match t.param with
  | none => .error .undef
  | some b =>
    if t.blkWrIdx > b.size then .error .assert
    else if t.blkWrIdx = b.size then flushTxBlk cfg p 0 c
    else .ok c

/-! ## Receiving -/

/-- One turn of `QueOutMsgs` / `QueInMsgs`: take a message from the ring, count it if it
gives a block back, queue it otherwise. `none` ends the loop. -/
def queMsg (c : Core) : Option Core :=
  let r := c.rx p
  let i := r.ctlRdIdx &&& (cfg.ctlQueCnt p - 1)
  match c.ring p.other i with
  | none => none
  | some m =>
    -- `CQueue::IsFull`: the queue keeps one entry free
    if cfg.ctlQueCnt p ≤ r.msgQue.length + 1 then none
    else
      let slots := Function.update (c.ring p.other) i none
      let c := { c with ring := Function.update c.ring p.other slots }
      if m.cmd = p.other.cmdAvl then
        let t := c.tx p
        some ((c.setRx p { r with ctlRdIdx := r.ctlRdIdx + 1 }).setTx p
          { t with blkAvailCnt := t.blkAvailCnt + 1 })
      else some (c.setRx p { r with ctlRdIdx := r.ctlRdIdx + 1, msgQue := r.msgQue ++ [m] })

/-- `NextOutMsgQue` / `NextInMsgQue`. -/
def nextMsgQue (c : Core) : Except Stop Core :=
  let r := c.rx p
  match r.msgQue with
  | [] => .error .assert
  | _ :: ms => .ok (c.setRx p { r with msgQue := ms })

/-- `NextOutBlk(true)` of the host, `NextInBlk(true)` of the model: give the received
block back. -/
def nextRxBlk (c : Core) : Except Stop Core := do
  let c ← sendMsgInternal cfg p (p.avlMsg (c.rx p).blkIdx) c
  let r := c.rx p
  match r.param with
  | none => .error .undef
  | some b => .ok (c.setRx p { r with
      blkIdx := r.blkIdx + 1
      blk := b.addr r.blkBase (r.blkIdx + 1)
      blkRdIdx := 0 })

/-- The two calls that finish with a block-ready message. -/
def finishBlk (c : Core) : Except Stop Core := do
  let c ← nextMsgQue p c
  nextRxBlk cfg p c

/-- The `memcpy` of `RecvHostData`: at most `n` quadwords of the announced data. -/
def copyFromBlk (n : ℕ) (c : Core) : List Qw × Core :=
  let r := c.rx p
  let cnt := min r.blkDataSize n
  let data := (c.mem p.other).read (r.blk + r.blkRdIdx) cnt
  (data, (c.setRx p { r with
    blkRdIdx := r.blkRdIdx + cnt
    blkDataSize := r.blkDataSize - cnt }).deliver p.other (data.map .qw))

/-! ## The message loop -/

/-- `ERecvType`. -/
inductive RecvType
  | idle
  | halt
  | call
  | return
  | hostData
  | hostMsg
  | hostDataMarker
deriving DecidableEq, Repr

/-- What one turn of `MsgLoop` does with the front of the local queue: return
`eRecvIdle`, return another type (or call back with it), go round again, take the
halt, or fail an `assert`. -/
inductive Turn
  | idle
  | recv (t : RecvType) (c : Core)
  | next (c : Core)
  | halt
  | fail

/-- The block-ready case of `MsgLoop`: `tData` and `tArgs` are the types for plain data
and for a call or return. -/
def rdyTurn (tData tArgs : RecvType) (m : CtrlMsg) (c : Core) : Turn :=
  let r := c.rx p
  match m.dq with
  | 0 => .recv tData (c.setRx p { r with
      blkDataSize := if r.blkDataSize = 0 then m.cnt else r.blkDataSize })
  | 1 => if m.cnt = 0 then .recv .hostDataMarker c else .fail
  | 6 => if m.cnt = 0 ∨ 2 ≤ r.msgQue.length then .recv tArgs c else .idle
  | 7 => .halt
  | _ => .fail

/-- One turn of the host's `MsgLoop`. -/
def hostTurn (c : Core) : Turn :=
  let r := c.rx .host
  match r.msgQue with
  | [] => .idle
  | m :: ms =>
    match m.cmd with
    | .assert => .next (c.setRx .host { r with msgQue := ms })
    | .assertColl => .next (c.setRx .host { r with msgQue := ms })
    | .oblkRdy => rdyTurn .host (if 0 < r.recvRtnArgc then .return else .hostData) .return m c
    | .user _ => .recv .hostMsg c
    | _ => .fail

/-- One turn of the model's `MsgLoop`. -/
def modelTurn (c : Core) : Turn :=
  let r := c.rx .model
  let t := c.tx .model
  match r.msgQue with
  | [] => .idle
  | m :: ms =>
    let d := m.data
    match m.cmd with
    | .iblkAdr => .next (c.setRx .model { r with msgQue := ms, blkBase := d / 8, blk := d / 8 })
    | .oblkAdr => .next ((c.setTx .model { t with blkBase := d / 8, blk := d / 8 }).setRx .model
        { r with msgQue := ms })
    | .iblkParam =>
      let sizeW := d &&& 0xff
      let cntW := (d >>> 8) &&& 0xff
      .next (c.setRx .model { r with
        msgQue := ms, param := some ⟨1 <<< (sizeW - 3), (1 <<< cntW) - 1⟩ })
    | .oblkParam =>
      let sizeW := d &&& 0xff
      let cntW := (d >>> 8) &&& 0xff
      .next ((c.setTx .model { t with
        param := some ⟨1 <<< (sizeW - 3), (1 <<< cntW) - 1⟩ }).setRx .model { r with msgQue := ms })
    | .ctlParam => .next (c.setRx .model { r with msgQue := ms })
    | .oblkFlshAdr => .next (c.setRx .model { r with msgQue := ms })
    | .iblkRdy => rdyTurn .model .hostData .call m c
    | .user _ => .recv .hostMsg c
    | _ => .fail

/-- One turn of `MsgLoop`. -/
def turn : Party → Core → Turn
  | .host => hostTurn
  | .model => modelTurn

/-! ## The source's names -/

namespace UnitLib

def sendMsgInternal := Host.sendMsgInternal cfg .host
def nextInBlk := nextTxBlk .host
def flushInBlk := flushTxBlk cfg .host
def queOutMsg := queMsg cfg .host
def nextOutMsgQue := nextMsgQue .host
def nextOutBlk := nextRxBlk cfg .host

end UnitLib

namespace ModelUnitLib

def sendMsgInternal := Host.sendMsgInternal cfg .model
def nextOutBlk := nextTxBlk .model
def flushOutBlk := flushTxBlk cfg .model
def queInMsg := queMsg cfg .model
def nextInMsgQue := nextMsgQue .model
def nextInBlk := nextRxBlk cfg .model

end ModelUnitLib

end OpenHT.Host
