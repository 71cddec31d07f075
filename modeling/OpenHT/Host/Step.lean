import OpenHT.Host.Unit

/-!
# Two units, step by step

Each unit has one application thread and one timer thread. A lock-protected section
with at most one `SendMsgInternal` is one step; a section that sends more is cut after
each message (the lock stays held, `Pc.locked`), so that every wait for an empty ring
slot is a wait between steps. One turn of `QueOutMsgs`, of `MsgLoop` and of the copy
loop of `RecvHostData` are one step each.

`Pc` names the points between these steps, `run` is the step from each of them,
`call` the first step of an operation, `exec` one action of the whole system. A
callback (`m_bUsingCallback`) is application code that runs in the middle of a
`MsgLoop`: the loop waits on `Thread.frames` while the callback calls operations.
-/

namespace OpenHT.Host

/-- A user message: type 16 to 127, 56 bits of data. -/
structure UserMsg where
  msgType : ℕ
  msgData : ℕ
  type_ge : 16 ≤ msgType
  type_lt : msgType < 128
  data_lt : msgData < 2 ^ 56
deriving DecidableEq

/-- The operations of a unit. `sendCall` takes each argument's quadwords
(`pArgw`, `pArgv`); `recvArgs` is `RecvReturn` of the host and `RecvCall` of the model. -/
inductive Op
  | sendHostData (data : List Qw)
  | flushHostData
  | sendHostDataMarker
  | sendHostHalt
  | sendHostMsg (m : UserMsg)
  | sendCall (args : List (List Qw))
  | sendReturn (argv : List Qw)
  | recvPoll (cbCall cbMsg cbData : Bool)
  | recvHostMsg
  | peekHostData
  | recvHostDataMarker
  | recvHostData (qwCnt : ℕ)
  | recvArgs (argc : ℕ)
  | setUsingCallback (b : Bool)

/-- What an operation returns. -/
inductive Ret
  | unit
  | bool (b : Bool)
  | sent (sentCnt : ℕ)
  | poll (t : RecvType)
  | msg (m : Option (ℕ × ℕ))
  | peek (data : Option Qw)
  | rcvd (rcvdCnt : ℕ)
  | args (argv : Option (List Qw))
deriving DecidableEq

/-- What a block without data says: the host data marker (`HIF_DQ_NULL`) or the halt. -/
inductive Ctl
  | marker
  | halt
deriving DecidableEq

def Ctl.dq : Ctl → ℕ
  | marker => hifDqNull
  | halt => hifDqHalt

def Ctl.item : Ctl → Item
  | marker => .marker
  | halt => .halt

/-- The receiving operation that called `MsgLoop`. -/
inductive RecvK
  | poll (cbCall cbMsg cbData : Bool)
  | hostMsg
  | peek
  | marker
  | data (qwCnt rcvdCnt : ℕ)
  | args (argc : ℕ)

/-- The place in an operation that called `QueOutMsgs` / `QueInMsgs`. -/
inductive QueK
  | sendData (data : List Qw) (sentCnt : ℕ)
  | ctl (ctl : Ctl) (k : Option RecvK)
  | halt (k : RecvK)
  | call (argv : List Qw)
  | callData (argv : List Qw) (sentCnt : ℕ)
  | msgLoop (k : RecvK)

/-- Where an application thread is. -/
inductive Pc
  /-- in the host unit's constructor, with these messages still to send -/
  | ctor (msgs : List CtrlMsg)
  | idle
  /-- in `QueOutMsgs` / `QueInMsgs` -/
  | que (k : QueK)
  /-- at the loop test of `SendDataInternal`, called from `SendHostData` -/
  | sendData (data : List Qw) (sentCnt : ℕ)
  /-- about to take the lock again in `SendDataInternal` -/
  | sendDataLock (data : List Qw) (sentCnt : ℕ)
  /-- `SendHostDataMarker` or `SendHostHalt`, flushed; `k` waits for a halt reply -/
  | ctlTest (ctl : Ctl) (k : Option RecvK)
  | ctlLock (ctl : Ctl) (k : Option RecvK)
  /-- the model's `while (!SendHostHalt()) QueInMsgs()`, before the next try -/
  | haltFlush (k : RecvK)
  /-- `SendHostMsg`, flushed -/
  | msgSend (m : UserMsg)
  /-- `SendCall` / `SendReturn`, flushed -/
  | callTest (argv : List Qw)
  | callLock (argv : List Qw)
  /-- at the loop test of `SendDataInternal`, called from `SendCall` / `SendReturn` -/
  | callData (argv : List Qw) (sentCnt : ℕ)
  | callDataLock (argv : List Qw) (sentCnt : ℕ)
  /-- about to send the call message -/
  | callPost (argv : List Qw)
  /-- about to flush the arguments -/
  | callFlush (argv : List Qw)
  /-- at the top of `MsgLoop`'s loop -/
  | msgLoop (k : RecvK)
  /-- at the loop test of `RecvHostData` -/
  | recvData (qwCnt rcvdCnt : ℕ)
  /-- in the loop body of `RecvHostData` -/
  | recvBody (qwCnt rcvdCnt : ℕ)
  /-- `RecvReturn` / `RecvCall` with `n` announced arguments, call message consumed -/
  | recvArgs (argc n : ℕ)

/-- Where the thread goes on after `QueOutMsgs` / `QueInMsgs`. -/
def QueK.pc : QueK → Pc
  | .sendData data n => .sendDataLock data n
  | .ctl x k => .ctlLock x k
  | .halt k => .haltFlush k
  | .call argv => .callLock argv
  | .callData argv n => .callDataLock argv n
  | .msgLoop k => .msgLoop k

/-- The points at which the thread holds its unit's lock. -/
def Pc.locked : Pc → Bool
  | .ctor _ | .sendData .. | .ctlTest .. | .msgSend _ | .callTest _ | .callData ..
  | .callPost _ | .callFlush _ => true
  | _ => false

/-- An application thread with the rest of its unit. `done` is history: what its finished
sending operations took over, by their return values. -/
structure Thread where
  pc : Pc
  frames : List RecvK
  usingCallback : Bool
  haltSeen : Bool
  ret : Option Ret
  done : List Item

namespace Thread

def goto (t : Thread) (pc : Pc) : Thread := { t with pc }

/-- An operation returns `r` after taking over `l`. -/
def finish (t : Thread) (r : Ret) (l : List Item) : Thread :=
  { t with pc := .idle, ret := some r, done := t.done ++ l }

end Thread

/-! ## Receiving operations after `MsgLoop` -/

/-- The `bUseCbCall`, `bUseCbMsg` and `bUseCbData` an operation passes to `MsgLoop`. -/
def RecvK.useCb : RecvK → Party → Bool × Bool × Bool
  | .poll a b c, _ => (a, b, c)
  | _, .host => (false, false, false)
  | .hostMsg, .model => (false, false, false)
  | .args _, .model => (false, true, true)
  | _, .model => (true, true, false)

/-- Whether `MsgLoop`, called by `k`, calls back with a result of type `t`. -/
def RecvK.callsBack (k : RecvK) (p : Party) (t : RecvType) : Bool :=
  match t with
  | .call | .return => (k.useCb p).1
  | .hostMsg => (k.useCb p).2.1
  | .hostData | .hostDataMarker => (k.useCb p).2.2
  | _ => false

/-- The type `RecvReturn` / `RecvCall` waits for. -/
def Party.argsType : Party → RecvType
  | .host => .return
  | .model => .call

variable (cfg : Cfg) (p : Party)

/-- `RecvReturn` / `RecvCall` once `MsgLoop` returned its type: consume the call message
(unless the host did so in an earlier call). -/
def recvHeader (argc : ℕ) (c : Core) (t : Thread) : Except Stop (Core × Thread) :=
  let r := c.rx p
  if p = .host ∧ 0 < r.recvRtnArgc then .ok (c, t.goto (.recvArgs argc r.recvRtnArgc))
  else match r.msgQue with
    | [] => .error .spin
    | m :: _ =>
      if m.cmd ≠ p.other.cmdRdy ∨ m.dq ≠ hifDqCall ∨ argc < m.cnt then .error .assert
      else do
        let c := if p = .host then c.setRx p { r with recvRtnArgc := m.cnt } else c
        let c ← finishBlk cfg p c
        if m.cnt = 0 then
          .ok (c.deliver p.other [.call []], t.finish (.args (some [])) [])
        else .ok (c, t.goto (.recvArgs argc m.cnt))

/-- The argument half of `RecvReturn` / `RecvCall`: copy `argc` quadwords of the block. -/
def recvArgv (argc n : ℕ) (c : Core) (t : Thread) : Except Stop (Core × Thread) :=
  let r := c.rx p
  match r.msgQue with
  | [] => .error .spin
  | m :: _ =>
    if m.cmd ≠ p.other.cmdRdy then
      if p = .host then .ok (c, t.finish (.args none) []) else .error .assert
    else if m.dq ≠ 0 ∨ n &&& 0xff ≠ m.cnt &&& 0xff then .error .assert
    else match r.param with
      | none => .error .undef
      | some b => do
        let argv := (c.mem p.other).read (b.addr r.blkBase r.blkIdx) argc
        let c ← finishBlk cfg p c
        let c := if p = .host then c.setRx p { c.rx p with recvRtnArgc := 0 } else c
        .ok (c.deliver p.other [.call (argv.take n)], t.finish (.args (some argv)) [])

/-- What operation `k` does with the type `MsgLoop` returned. -/
def recvd (k : RecvK) (ty : RecvType) (c : Core) (t : Thread) : Except Stop (Core × Thread) :=
  match k with
  | .poll .. => .ok (c, t.finish (.poll ty) [])
  | .hostMsg =>
    if ty ≠ .hostMsg then .ok (c, t.finish (.msg none) [])
    else match (c.rx p).msgQue with
      | [] => .error .spin
      | m :: _ => do
        let c ← nextMsgQue p c
        .ok (c.deliver p.other [.msg m.msgType.toNat m.data],
          t.finish (.msg (some (m.msgType.toNat, m.data))) [])
  | .peek =>
    if ty ≠ .hostData then .ok (c, t.finish (.peek none) [])
    else if (c.rx p).blkDataSize = 0 then .error .assert
    else .ok (c, t.finish (.peek (some (c.mem p.other ((c.rx p).blk + (c.rx p).blkRdIdx)))) [])
  | .marker =>
    if ty ≠ .hostDataMarker then .ok (c, t.finish (.bool false) [])
    else do
      let c ← finishBlk cfg p c
      .ok (c.deliver p.other [.marker], t.finish (.bool true) [])
  | .data qwCnt rcvdCnt =>
    if ty ≠ .hostData then .ok (c, t.finish (.rcvd rcvdCnt) [])
    else .ok (c, t.goto (.recvBody qwCnt rcvdCnt))
  | .args argc =>
    if ty ≠ p.argsType then .ok (c, t.finish (.args none) [])
    else recvHeader cfg p argc c t

/-- The call of `MsgLoop`: a unit that has seen the halt does not look any further. -/
def enterMsgLoop (k : RecvK) (c : Core) (t : Thread) : Except Stop (Core × Thread) :=
  if t.haltSeen then recvd cfg p k .halt c t else .ok (c, t.goto (.que (.msgLoop k)))

/-- A turn of `MsgLoop`, called by `k`. -/
def msgLoop (k : RecvK) (c : Core) (t : Thread) : Except Stop (Core × Thread) :=
  match turn p c with
  | .idle => recvd cfg p k .idle c t
  | .next c => .ok (c, t)
  | .recv ty c =>
    if t.usingCallback && k.callsBack p ty then
      .ok (c, { t with pc := .idle, frames := k :: t.frames })
    else recvd cfg p k ty c t
  | .halt => do
    let c ← finishBlk cfg p c
    let c := c.deliver p.other [.halt]
    match p with
    | .host => recvd cfg p k .halt c t
    | .model => .ok (c, t.goto (.haltFlush k))
  | .fail => .error .assert

/-! ## Sending operations -/

/-- The end of `SendHostDataMarker` / `SendHostHalt` with a credit at hand. -/
def sendCtl (ctl : Ctl) (k : Option RecvK) (c : Core) (t : Thread) : Except Stop (Core × Thread) := do
  let c ← flushTxBlk cfg p ctl.dq c
  let c := c.accept p [ctl.item]
  match k with
  | none => .ok (c, t.finish (.bool true) [ctl.item])
  | some k => recvd cfg p k .halt c { t with haltSeen := true, done := t.done ++ [ctl.item] }

/-- The loop body of `SendDataInternal` with a credit at hand; the arguments of a call are
not host data. -/
def sendChunk (host : Bool) (rest : List Qw) (c : Core) : Except Stop (ℕ × Core) :=
  if (c.tx p).blkAvailCnt ≤ 0 then .error .assert
  else do
    let (chunk, c) ← copyToBlk p rest c
    let c := if host then c.accept p (chunk.map .qw) else c
    let c ← flushIfFull cfg p c
    .ok (chunk.length, c)

/-- The step of the application thread from each point. -/
def run (c : Core) (t : Thread) : Except Stop (Core × Thread) :=
  match t.pc with
  | .idle => .error .off
  | .ctor [] => .ok (c, t.goto .idle)
  | .ctor (m :: ms) => do
    let c ← sendMsgInternal cfg p m c
    .ok (c, t.goto (.ctor ms))
  | .que k =>
    match queMsg cfg p c with
    | none => .ok (c, t.goto k.pc)
    | some c => .ok (c, t)
  | .sendData data n =>
    if data.length ≤ n then .ok (c, t.finish (.sent n) ((data.take n).map .qw))
    else if (c.tx p).blkAvailCnt = 0 then .ok (c, t.goto (.que (.sendData data n)))
    else do
      let (cnt, c) ← sendChunk cfg p true (data.drop n) c
      .ok (c, t.goto (.sendData data (n + cnt)))
  | .sendDataLock data n =>
    if (c.tx p).blkAvailCnt = 0 then .ok (c, t.finish (.sent n) ((data.take n).map .qw))
    else .ok (c, t.goto (.sendData data n))
  | .ctlTest ctl k =>
    if (c.tx p).blkAvailCnt < 1 then .ok (c, t.goto (.que (.ctl ctl k)))
    else sendCtl cfg p ctl k c t
  | .ctlLock ctl k =>
    if (c.tx p).blkAvailCnt < 1 then
      match k with
      | none => .ok (c, t.finish (.bool false) [])
      | some k => .ok (c, t.goto (.que (.halt k)))
    else sendCtl cfg p ctl k c t
  | .haltFlush k => do
    let c ← flushTxBlk cfg p 0 c
    .ok (c, t.goto (.ctlTest .halt (some k)))
  | .msgSend m => do
    let c ← sendMsgInternal cfg p (.make m.msgType m.msgData) c
    .ok (c.accept p [.msg m.msgType m.msgData], t.finish .unit [.msg m.msgType m.msgData])
  | .callTest argv =>
    if (c.tx p).blkAvailCnt < 2 then .ok (c, t.goto (.que (.call argv)))
    else do
      let c ← nextTxBlk p c
      .ok (c, t.goto (.callData argv 0))
  | .callLock argv =>
    if (c.tx p).blkAvailCnt < 2 then .ok (c, t.finish (.bool false) [])
    else do
      let c ← nextTxBlk p c
      .ok (c, t.goto (.callData argv 0))
  | .callData argv n =>
    if argv.length ≤ n then .ok (c, t.goto (.callPost argv))
    else if (c.tx p).blkAvailCnt = 0 then .ok (c, t.goto (.que (.callData argv n)))
    else do
      let (cnt, c) ← sendChunk cfg p false (argv.drop n) c
      .ok (c, t.goto (.callData argv (n + cnt)))
  | .callDataLock argv n =>
    -- without a credit `SendDataInternal` returns early and `assert(cnt == qwCnt)` fails
    if (c.tx p).blkAvailCnt = 0 then .error .assert
    else .ok (c, t.goto (.callData argv n))
  | .callPost argv => do
    let c ← sendMsgInternal cfg p (p.rdyMsg argv.length hifDqCall) c
    .ok (c.accept p [.call argv], t.goto (.callFlush argv))
  | .callFlush argv => do
    let c ← flushTxBlk cfg p 0 c
    if (c.tx p).blkAvailCnt < 0 then .error .assert
    else .ok (c, t.finish (.bool true) [.call argv])
  | .msgLoop k => msgLoop cfg p k c t
  | .recvData n r =>
    if n ≤ r then .ok (c, t.finish (.rcvd r) [])
    else if 0 < (c.rx p).blkDataSize then .ok (c, t.goto (.recvBody n r))
    else enterMsgLoop cfg p (.data n r) c t
  | .recvBody n r => do
    let (data, c) := copyFromBlk p (n - r) c
    let c ← if (c.rx p).blkDataSize = 0 then finishBlk cfg p c else .ok c
    .ok (c, t.goto (.recvData n (r + data.length)))
  | .recvArgs argc n => recvArgv cfg p argc n c t

/-- The first step of an operation: up to its first flush, or into `MsgLoop`. -/
def call (op : Op) (c : Core) (t : Thread) : Except Stop (Core × Thread) :=
  let t := { t with ret := none }
  let flushTo (pc : Pc) : Except Stop (Core × Thread) := do
    let c ← flushTxBlk cfg p 0 c
    .ok (c, t.goto pc)
  match op with
  | .sendHostData data => .ok (c, t.goto (.sendData data 0))
  | .flushHostData => do
    let c ← flushTxBlk cfg p 0 c
    .ok (c, t.finish .unit [])
  | .sendHostDataMarker => flushTo (.ctlTest .marker none)
  | .sendHostHalt => if p = .host then flushTo (.ctlTest .halt none) else .error .off
  | .sendHostMsg m => flushTo (.msgSend m)
  | .sendCall args => if p = .host then flushTo (.callTest args.flatten) else .error .off
  | .sendReturn argv => if p = .model then flushTo (.callTest argv) else .error .off
  | .recvPoll cbCall cbMsg cbData => enterMsgLoop cfg p (.poll cbCall cbMsg cbData) c t
  | .recvHostMsg => enterMsgLoop cfg p .hostMsg c t
  | .peekHostData =>
    if (c.rx p).blkDataSize = 0 then enterMsgLoop cfg p .peek c t
    else .ok (c, t.finish (.peek (some (c.mem p.other ((c.rx p).blk + (c.rx p).blkRdIdx)))) [])
  | .recvHostDataMarker =>
    if 0 < (c.rx p).recvRtnArgc ∨ 0 < (c.rx p).blkDataSize then .ok (c, t.finish (.bool false) [])
    else enterMsgLoop cfg p .marker c t
  | .recvHostData n =>
    if 0 < (c.rx p).recvRtnArgc then .ok (c, t.finish (.rcvd 0) [])
    else .ok (c, t.goto (.recvData n 0))
  | .recvArgs argc => enterMsgLoop cfg p (.args argc) c t
  | .setUsingCallback b => .ok (c, { t with usingCallback := b }.finish .unit [])

/-! ## The system -/

/-- Both units with their application threads. -/
structure Sys where
  core : Core
  thr : Party → Thread

/-- An action: a thread starts an operation or runs on, a timer fires, a callback ends. -/
inductive Act
  | call (p : Party) (op : Op)
  | run (p : Party)
  | timer (p : Party)
  | callbackEnd (p : Party)

def Sys.set (s : Sys) (p : Party) (x : Core × Thread) : Sys :=
  ⟨x.1, Function.update s.thr p x.2⟩

/-- `InBlkTimer` / `OutBlkTimer`. -/
def timer (c : Core) (t : Thread) : Except Stop (Core × Thread) :=
  if t.pc.locked then .error .lock
  else do
    let c ← flushTxBlk cfg p 0 c
    .ok (c, t)

/-- A callback returns to the message loop that called it. -/
def callbackEnd (c : Core) (t : Thread) : Except Stop (Core × Thread) :=
  match t.pc, t.frames with
  | .idle, k :: ks => .ok (c, { t with pc := .msgLoop k, frames := ks, ret := none })
  | _, _ => .error .off

/-- The threads of party `p` in action. -/
def Act.party : Act → Party
  | .call p _ | .run p | .timer p | .callbackEnd p => p

/-- The step of the acting party. -/
def Act.exec (a : Act) (c : Core) (t : Thread) : Except Stop (Core × Thread) :=
  match a with
  | .call p op => match t.pc with
    | .idle => Host.call cfg p op c t
    | _ => .error .off
  | .run p => Host.run cfg p c t
  | .timer p => Host.timer cfg p c t
  | .callbackEnd _ => Host.callbackEnd c t

/-- One action of the system. -/
def exec (s : Sys) (a : Act) : Except Stop Sys := do
  let x ← a.exec cfg s.core (s.thr a.party)
  .ok (s.set a.party x)

/-- The messages the host unit's constructor sends. -/
def ctorMsgs : List CtrlMsg :=
  let P := cfg.params
  [.make HifCmd.iblkAdr.toType (8 * cfg.inBlkBase),
   .make HifCmd.oblkAdr.toType (8 * cfg.outBlkBase),
   .make HifCmd.iblkParam.toType (P.iBlkSizeW ||| P.iBlkCntW <<< 8),
   .make HifCmd.oblkParam.toType
    (P.oBlkSizeW ||| P.oBlkCntW <<< 8 ||| (P.oBlkTimerUSec * cfg.unitMHz) <<< 16)] ++
  -- `i-16` is an unsigned 32-bit difference
  (List.range (cfg.blkCnt .model)).map (fun i => Party.host.avlMsg ((i + 2 ^ 32 - 16) % 2 ^ 32)) ++
  [.make HifCmd.ctlParam.toType (P.ctlTimerUSec * cfg.unitMHz)] ++
  (cfg.flushLinesBase.map (fun a => .make HifCmd.oblkFlshAdr.toType (8 * a))).toList

/-- Both units before the host's constructor sends its first message. -/
def Core.init : Core where
  tx
    | .host => ⟨0, cfg.blkCnt .host, 0, 0, some (cfg.blkParam .host), cfg.inBlkBase, cfg.inBlkBase⟩
    | .model => ⟨0, 0, 0, 0, none, 0, 0⟩
  rx
    | .host => ⟨0, [], 0, 0, 0, some (cfg.blkParam .model), cfg.outBlkBase, cfg.outBlkBase, 0⟩
    | .model => ⟨0, [], 0, 0, 0, none, 0, 0, 0⟩
  ring _ _ := none
  mem _ _ := 0
  wrote _ := []
  acc _ := []
  got _ := []

/-- The system at the start. -/
def Sys.init : Sys where
  core := Core.init cfg
  thr
    | .host => ⟨.ctor (ctorMsgs cfg), [], false, false, none, []⟩
    | .model => ⟨.idle, [], false, false, none, []⟩

end OpenHT.Host
