import OpenHT.Host.Lane

/-!
# What a step can do

`Move` lists everything one action can do to the two lanes of a link, seen from the
acting party: `A` is the lane it sends on, `B` the lane it receives on. `exec_move`
says that every action is a move; the invariants of the link are derived from this
list and never unfold `run`.

The points of a thread matter to the invariants only through their `Pc.view`:

* `args`: the call arguments in the current block while their call message is unsent,
* `flushing`: the call message is sent, its arguments are not announced,
* `clean`: the current block has been flushed by the operation in progress,
* `rxMode`: the receiver is in the middle of a block or of a call,
* `prog`: what the operation in progress has taken over.
-/

namespace OpenHT.Host

/-- What the receiving operation in progress has committed to. -/
inductive RxMode
  | none
  | body
  | args (argc n : ℕ)
deriving DecidableEq

/-- What the invariants see of a point. -/
structure PcView where
  args : Option (List Qw) := none
  argv : Option (List Qw) := none
  flushing : Option (List Qw) := none
  clean : Bool := false
  /-- the arguments do not fit the blocks at hand and the lock was given up -/
  stuck : Bool := false
  rxMode : RxMode := .none
  prog : List Item := []
  /-- the user message about to be sent -/
  user : Option UserMsg := none
  /-- what the constructor still has to send -/
  unsent : List CtrlMsg := []

def Pc.view : Pc → PcView
  | .ctor ms => { unsent := ms, clean := true }
  | .sendData d n | .sendDataLock d n | .que (.sendData d n) => { prog := (d.take n).map .qw }
  | .ctlTest .. | .ctlLock .. | .que (.ctl ..) => { clean := true }
  | .msgSend m => { clean := true, user := some m }
  | .callTest a | .callLock a | .que (.call a) => { argv := some a, clean := true }
  | .callData a n => { argv := some a, args := some (a.take n) }
  | .callDataLock a n | .que (.callData a n) =>
    { argv := some a, args := some (a.take n), stuck := true }
  | .callPost a => { argv := some a, args := some a }
  | .callFlush a => { argv := some a, flushing := some a, prog := [.call a] }
  | .recvBody .. => { rxMode := .body }
  | .recvArgs argc n => { rxMode := .args argc n }
  | _ => {}

/-- The blocks taken from the counter whose call message is not sent. -/
def PcView.held (v : PcView) : ℕ := if v.args.isSome then 1 else 0

/-- What the sending operations of a thread have taken over so far. -/
def Thread.sent (t : Thread) : List Item := t.done ++ t.pc.view.prog

/-- The arguments of the call or return an action starts. -/
def Act.argv : Act → Option (List Qw)
  | .call _ (.sendCall args) => some args.flatten
  | .call _ (.sendReturn argv) => some argv
  | _ => none

/-- The user message an action starts to send. -/
def Act.user : Act → Option UserMsg
  | .call _ (.sendHostMsg m) => some m
  | _ => none

/-- A return value that delivers call arguments. -/
@[simp] def Ret.isArgs : Option Ret → Prop
  | some (.args (some _)) => True
  | _ => False

/-- A thread step that sends and receives nothing. -/
structure Keeps (a : Act) (t t' : Thread) : Prop where
  args : t'.pc.view.args = t.pc.view.args
  unsent : t'.pc.view.unsent = t.pc.view.unsent
  argv : ∀ x, t'.pc.view.argv = some x → t.pc.view.argv = some x ∨ a.argv = some x
  user : ∀ m, t'.pc.view.user = some m → t.pc.view.user = some m ∨ a.user = some m
  stuck : t'.pc.view.stuck → t.pc.view.stuck
  sent : t'.sent = t.sent
  ret : Ret.isArgs t'.ret → t'.ret = t.ret

/-- A thread that is not in the middle of sending or of a block. -/
structure Thread.Resting (t : Thread) : Prop where
  args : t.pc.view.args = none
  unsent : t.pc.view.unsent = []
  flushing : t.pc.view.flushing = none
  prog : t.pc.view.prog = []
  rxMode : t.pc.view.rxMode = .none

/-- The command of a message that `MsgLoop` handles by itself. -/
def HifCmd.isSetup : HifCmd → Bool
  | .ctlParam | .iblkAdr | .oblkAdr | .iblkParam | .oblkParam | .oblkFlshAdr | .assert
  | .assertColl => true
  | _ => false

/-- The parameters in an `IBLK_PARAM` or `OBLK_PARAM` message. -/
def CtrlMsg.param (m : CtrlMsg) : BlkParam :=
  ⟨1 <<< ((m.data &&& 0xff) - 3), (1 <<< ((m.data >>> 8) &&& 0xff)) - 1⟩

/-- What a set-up message does to the sending half of the model unit. -/
def Tx.setup (t : Tx) (m : CtrlMsg) : Tx :=
  match m.cmd with
  | .oblkAdr => { t with blkBase := m.data / 8, blk := m.data / 8 }
  | .oblkParam => { t with param := some m.param }
  | _ => t

/-- What a set-up message does to the receiving half of the model unit. -/
def Rx.setup (r : Rx) (m : CtrlMsg) : Rx :=
  match m.cmd with
  | .iblkAdr => { r with blkBase := m.data / 8, blk := m.data / 8 }
  | .iblkParam => { r with param := some m.param }
  | _ => r

/-- `MsgLoop` notes the size of the data block at the front. -/
def Rx.announce (r : Rx) (n : ℕ) : Rx :=
  { r with blkDataSize := if r.blkDataSize = 0 then n else r.blkDataSize }

/-- Only the host notes the arguments it waits for. -/
def Rx.setArgc (p : Party) (n : ℕ) (r : Rx) : Rx :=
  if p = .host then { r with recvRtnArgc := n } else r

namespace Rx

variable (p : Party) (n : ℕ) (r : Rx)

@[simp] theorem setArgc_msgQue : (r.setArgc p n).msgQue = r.msgQue := by unfold setArgc; split <;> rfl
@[simp] theorem setArgc_blkIdx : (r.setArgc p n).blkIdx = r.blkIdx := by unfold setArgc; split <;> rfl
@[simp] theorem setArgc_param : (r.setArgc p n).param = r.param := by unfold setArgc; split <;> rfl
@[simp] theorem setArgc_blkBase : (r.setArgc p n).blkBase = r.blkBase := by unfold setArgc; split <;> rfl
@[simp] theorem setArgc_blk : (r.setArgc p n).blk = r.blk := by unfold setArgc; split <;> rfl
@[simp] theorem setArgc_blkRdIdx : (r.setArgc p n).blkRdIdx = r.blkRdIdx := by
  unfold setArgc; split <;> rfl
@[simp] theorem setArgc_blkDataSize : (r.setArgc p n).blkDataSize = r.blkDataSize := by
  unfold setArgc; split <;> rfl

/-- Noting that nothing is awaited changes nothing when nothing is. -/
theorem setArgc_zero {p : Party} {r : Rx} (h : r.recvRtnArgc = 0 ∨ p = .model) :
    r.setArgc p 0 = r := by
  unfold setArgc
  split
  · rename_i hp
    obtain ⟨_, _, _, _, _, _, _, _, _⟩ := r
    simp_all
  · rfl

end Rx

variable (p : Party) (a : Act)

/-- What `flushIfFull` leaves of a lane. -/
def Lane.Filled (p : Party) (b : BlkParam) (L L' : Lane) : Prop :=
  L.tx.blkWrIdx ≤ b.size ∧
    ((L' = L ∧ (L.tx.blkWrIdx < b.size ∨ b.size = 0)) ∨
      (L.tx.blkWrIdx = b.size ∧ b.size ≠ 0 ∧ 0 < L.tx.blkAvailCnt ∧ L' = L.flush p b 0))

/-- The moves of party `p`: from lanes `A`, `B` and thread `t` to `A'`, `B'` and `t'`. -/
inductive Move : Lane → Lane → Thread → Lane → Lane → Thread → Prop
  | skip {A B t t'} : Keeps a t t' → (t'.pc.view.clean → t.pc.view.clean) →
      t'.pc.view.flushing = t.pc.view.flushing → t'.pc.view.rxMode = t.pc.view.rxMode → Move A B t A B t'
  | exhaust {A B t argv n} : t.pc = .callData argv n → n < argv.length → A.tx.blkAvailCnt = 0 →
      Move A B t A B (t.goto (.que (.callData argv n)))
  | ctor {A B t m ms} : t.pc = .ctor (m :: ms) → Move A B t (A.post m) B (t.goto (.ctor ms))
  | flush {A A' B t t'} : Keeps a t t' → t'.pc.view.flushing = none → t'.pc.view.rxMode = t.pc.view.rxMode →
      (t.pc.view.args.isSome → t.pc.view.stuck) → t.pc.view.unsent = [] →
      ((A.tx.blkWrIdx = 0 ∧ A' = A) ∨ (A.tx.blkWrIdx ≠ 0 ∧ 0 < A.tx.blkAvailCnt ∧
        ∃ b, A.tx.param = some b ∧ A' = A.flush p b 0)) → Move A B t A' B t'
  | ctl {A B t t' b k} (x : Ctl) : t.pc = .ctlTest x k ∨ t.pc = .ctlLock x k → t'.pc = .idle →
      0 < A.tx.blkAvailCnt → A.tx.param = some b → t'.done = t.done ++ [x.item] →
      ¬ Ret.isArgs t'.ret → Move A B t ((A.flush p b x.dq).accept [x.item]) B t'
  | user {A B t} (m : UserMsg) : t.pc = .msgSend m →
      Move A B t ((A.post (.make m.msgType m.msgData)).accept [.msg m.msgType m.msgData]) B
        (t.finish .unit [.msg m.msgType m.msgData])
  | data {A A' B t d n b chunk} : t.pc = .sendData d n → n < d.length → 0 < A.tx.blkAvailCnt →
      A.tx.param = some b → chunk = (d.drop n).take (b.size - A.tx.blkWrIdx) →
      ((A.write chunk).accept (chunk.map .qw)).Filled p b A' →
      Move A B t A' B (t.goto (.sendData d (n + chunk.length)))
  | arg {A A' B t d n b chunk} : t.pc = .callData d n → n < d.length → 0 < A.tx.blkAvailCnt →
      A.tx.param = some b → chunk = (d.drop n).take (b.size - A.tx.blkWrIdx) →
      (A.write chunk).Filled p b A' →
      Move A B t A' B (t.goto (.callData d (n + chunk.length)))
  | take {A B t b argv} : t.pc = .callTest argv ∨ t.pc = .callLock argv → 2 ≤ A.tx.blkAvailCnt →
      A.tx.param = some b → Move A B t (A.next b) B (t.goto (.callData argv 0))
  | postCall {A B t argv} : t.pc = .callPost argv →
      Move A B t ((A.post (p.rdyMsg argv.length hifDqCall)).accept [.call argv]) B
        (t.goto (.callFlush argv))
  | credit {A B t m l} : B.live = m :: l → m.cmd = p.other.cmdAvl →
      Move A B t A.credit (B.fetch l) t
  | que {A B t m l} : B.live = m :: l → m.cmd ≠ p.other.cmdAvl →
      Move A B t A ((B.fetch l).setQue (B.rx.msgQue ++ [m])) t
  | setup {A B t m ms} : B.rx.msgQue = m :: ms → m.cmd.isSetup →
      (p = .host → m.cmd = .assert ∨ m.cmd = .assertColl) →
      Move A B t { A with tx := A.tx.setup m } ({ B with rx := B.rx.setup m }.setQue ms) t
  | announce {A B t t' m ms} : t.Resting → Keeps a t t' → t'.pc.view.flushing = none →
      t'.pc.view.clean = false → B.rx.msgQue = m :: ms → m.cmd = p.other.cmdRdy → m.dq = 0 →
      (t'.pc.view.rxMode = .none ∨ t'.pc.view.rxMode = .body) →
      Move A B t A { B with rx := B.rx.announce m.cnt } t'
  | resume {A B t n r} : t.pc = .recvData n r → 0 < B.rx.blkDataSize →
      Move A B t A B (t.goto (.recvBody n r))
  | msg {A B t m ms ty r} : t.Resting → B.rx.msgQue = m :: ms → m.cmd = .user ty →
      ¬ Ret.isArgs (some r) →
      Move A B t A ((B.setQue ms).deliver [.msg m.msgType.toNat m.data]) (t.finish r [])
  | ctlBlk {A B t t' m ms b} (x : Ctl) : t.Resting → Keeps a t t' → t'.pc.view.rxMode = .none →
      t'.pc.view.flushing = none → t'.pc.view.clean = false →
      B.rx.msgQue = m :: ms → m.cmd = p.other.cmdRdy → m.dq = x.dq → B.rx.param = some b →
      Move A B t (A.post (p.avlMsg B.rx.blkIdx)) (((B.setQue ms).nextRx b).deliver [x.item]) t'
  | call0 {A B t m ms b} : t.Resting → B.rx.recvRtnArgc = 0 ∨ p = .model → B.rx.msgQue = m :: ms →
      m.cmd = p.other.cmdRdy → m.dq = hifDqCall → m.cnt = 0 → B.rx.param = some b →
      Move A B t (A.post (p.avlMsg B.rx.blkIdx)) (((B.setQue ms).nextRx b).deliver [.call []])
        (t.finish (.args (some [])) [])
  | callHdr {A B t m ms b argc} : t.Resting → 0 < m.cnt → m.cnt ≤ argc →
      B.rx.msgQue = m :: ms → ms ≠ [] → m.cmd = p.other.cmdRdy → m.dq = hifDqCall →
      B.rx.param = some b →
      Move A B t (A.post (p.avlMsg B.rx.blkIdx))
        (({ B with rx := B.rx.setArgc p m.cnt }.setQue ms).nextRx b)
        (t.goto (.recvArgs argc m.cnt))
  | again {A B t r n argc} : p = .host → 0 < B.rx.recvRtnArgc → t.Resting →
      (r = B.rx ∨ r = B.rx.announce n) →
      Move A B t A { B with rx := r } (t.goto (.recvArgs argc r.recvRtnArgc))
  | abandon {A B t argc n m ms} : p = .host → t.pc = .recvArgs argc n →
      B.rx.msgQue = m :: ms → m.cmd ≠ p.other.cmdRdy →
      Move A B t A B (t.finish (.args none) [])
  | part {A B t n r cnt} : t.pc = .recvBody n r → cnt = min B.rx.blkDataSize (n - r) →
      cnt < B.rx.blkDataSize → Move A B t A (B.read cnt) (t.goto (.recvData n (r + cnt)))
  | whole {A B t n r m ms b} : t.pc = .recvBody n r → B.rx.blkDataSize ≤ n - r →
      B.rx.msgQue = m :: ms → B.rx.param = some b →
      Move A B t (A.post (p.avlMsg B.rx.blkIdx)) (((B.read B.rx.blkDataSize).setQue ms).nextRx b)
        (t.goto (.recvData n (r + B.rx.blkDataSize)))
  | args {A B t argc n m ms b argv} : t.pc = .recvArgs argc n → B.rx.msgQue = m :: ms →
      m.cmd = p.other.cmdRdy → m.dq = 0 → n &&& 0xff = m.cnt &&& 0xff → B.rx.param = some b →
      argv = B.mem.read (b.addr B.rx.blkBase B.rx.blkIdx) argc →
      Move A B t (A.post (p.avlMsg B.rx.blkIdx))
        ({ (B.setQue ms).nextRx b with rx := ((B.setQue ms).nextRx b).rx.setArgc p 0 }.deliver
          [.call (argv.take n)])
        (t.finish (.args (some argv)) [])

end OpenHT.Host
