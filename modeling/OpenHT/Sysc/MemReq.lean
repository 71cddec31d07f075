import Mathlib.Algebra.Order.Ring.Rat
import Mathlib.Data.List.Nodup
import OpenHT.Lib.Bytes
import OpenHT.Lib.Ledger
import OpenHT.Lib.Lts
import OpenHT.Lib.Mem

/-!
# Memory requests

What the two memory models of `CSyscMemLib` share.

* `MemRdWrReqIntf`: a request as it comes over the interface, one quadword at a time.
* `MemRdWrReqTime`: an assembled request.
* `newReq`, `takeReq`: the checks on a request and its assembly.
* `readQw`, `writeQw`: the transfer of one quadword.
* `MemHist`: the requests accepted and the transfers made, kept beside the models.
-/

namespace OpenHT.Sysc

/-- What stops the simulation: an assertion, `exit(1)` after a message, or `front()` of an empty queue. -/
inductive MemStop
  | assert
  | exit
  | emptyFront
deriving DecidableEq, Repr

def memAssert (bCond : Bool) : Except MemStop Unit := if bCond then .ok () else .error .assert

/-- `m_type`; the models assert on the unused value of its two bits. -/
inductive MemReqType
  | rd
  | wr
  | setBit63
deriving DecidableEq, Repr

/-- Reads and writes are kept apart; atomics go with the reads. -/
inductive MemDir
  | rd
  | wr
deriving DecidableEq, Repr

def MemReqType.dir : MemReqType → MemDir
  | .rd | .setBit63 => .rd
  | .wr => .wr

/-- `m_size` -/
inductive MemReqSize
  | u8
  | u16
  | u32
  | u64
deriving DecidableEq, Repr

def MemReqSize.bytes : MemReqSize → ℕ
  | .u8 => 1
  | .u16 => 2
  | .u32 => 4
  | .u64 => 8

structure MemRdWrReqIntf where
  data : ℕ
  addr : ℕ
  tid : ℕ
  type : MemReqType
  host : Bool
  size : MemReqSize
  orderChk : Bool
deriving DecidableEq, Repr

/-- `m_tid & 7` -/
def MemRdWrReqIntf.tidQw (r : MemRdWrReqIntf) : ℕ := r.tid % 8

/-- `(m_tid & ~7) | (qwIdx & 7)` -/
def MemRdWrReqIntf.rspTid (r : MemRdWrReqIntf) (qwIdx : ℕ) : ℕ := r.tid / 8 * 8 + qwIdx % 8

structure MemRdWrReqTime where
  /-- The position of the request in the order of acceptance; the model's own. -/
  id : ℕ
  req : MemRdWrReqIntf
  time : ℚ
  host : Bool
  reqQwCnt : ℕ
  data : ℕ → ℕ

/-- The host's options. -/
structure MemCfg where
  isHc1 : Bool
  isHc2 : Bool
  isAddressValidationEnabled : Bool
  coprocAddrMangle : ℕ

/-- What `IsValidAddress` says about an address: valid, and in coprocessor memory. -/
abbrev AddrRanges := ℕ → Bool × Bool

/-- `!bValidAddress || !bCoprocAddress` -/
def AddrRanges.host (v : AddrRanges) (addr : ℕ) : Bool := !(v addr).1 || !(v addr).2

/-- The check on the address of a request. -/
def checkAddr (cfg : MemCfg) (v : AddrRanges) (addr : ℕ) : Except MemStop Unit :=
  if cfg.isAddressValidationEnabled && !(v addr).1 then .error .exit else .ok ()

def reqQwCnt (cfg : MemCfg) (r : MemRdWrReqIntf) : ℕ := if cfg.isHc1 then 1 else r.tidQw + 1

/-- Platforms that allow no other multi-quadword requests than 64 bytes of host memory. -/
def checkHc2 (cfg : MemCfg) (cnt : ℕ) (host : Bool) : Except MemStop Unit :=
  if cfg.isHc2 && cnt > 1 && (cnt != 8 || !host) then .error .exit else .ok ()

/-- Multi-quadword reads take eight quadwords of an aligned 64 bytes. -/
def checkRead (r : MemRdWrReqIntf) : Except MemStop Unit :=
  memAssert (r.type != .rd || r.tidQw == 0 || r.tidQw == 7 && r.addr % 64 == 0)

/-- The first quadword of a request, with its checks. -/
def newReq (cfg : MemCfg) (v : AddrRanges) (now : ℚ) (id wrDataIdx : ℕ) (r : MemRdWrReqIntf) :
    Except MemStop (MemRdWrReqTime × ℕ) := do
  checkAddr cfg v r.addr
  checkHc2 cfg (reqQwCnt cfg r) (v.host r.addr)
  checkRead r
  let data : ℕ → ℕ := fun _ => 0
  if r.type == .wr then
    return (⟨id, r, now, v.host r.addr, reqQwCnt cfg r, Function.update data wrDataIdx r.data⟩, wrDataIdx + 1)
  else return (⟨id, r, now, v.host r.addr, reqQwCnt cfg r, data⟩, wrDataIdx)

/-- A quadword from the interface: the first of a request, or more data of a write. -/
def takeReq (cfg : MemCfg) (v : AddrRanges) (now : ℚ) (id wrDataIdx : ℕ) (r : MemRdWrReqIntf) :
    Option MemRdWrReqTime → Except MemStop (MemRdWrReqTime × ℕ)
  | none => newReq cfg v now id wrDataIdx r
  | some q => return ({ q with data := Function.update q.data wrDataIdx r.data }, wrDataIdx + 1)

/-- All quadwords of the request are there. -/
def MemRdWrReqTime.complete (q : MemRdWrReqTime) (wrDataIdx : ℕ) : Bool :=
  q.req.type != .wr || wrDataIdx == q.reqQwCnt

/-! ## Transfers -/

/-- The quadword of a read response; `qwIdx` is added before the address is mangled. -/
def readQw (cfg : MemCfg) (mem : Mem ℕ) (r : MemRdWrReqIntf) (qwIdx : ℕ) : ℕ :=
  Nat.ofDigits 256 (mem.read ((r.addr + 8 * qwIdx) ^^^ cfg.coprocAddrMangle) r.size.bytes)

def writeQw (cfg : MemCfg) (mem : Mem ℕ) (r : MemRdWrReqIntf) (qwIdx data : ℕ) : Mem ℕ :=
  mem.write ((r.addr ^^^ cfg.coprocAddrMangle) + 8 * qwIdx) (Bytes.leBytes r.size.bytes data)

/-- `MEM_REQ_SET_BIT_63` -/
def setBit63 (cfg : MemCfg) (mem : Mem ℕ) (r : MemRdWrReqIntf) (qwIdx : ℕ) : Mem ℕ :=
  mem.write ((r.addr ^^^ cfg.coprocAddrMangle) + 8 * qwIdx) (Bytes.leBytes 8 0x8000000000000000)

/-- The response signals of a call. -/
structure MemRsp where
  /-- `o_xbarToMif_rdRsp`, with its tid and data. -/
  rdRsp : Option (ℕ × ℕ)
  wrRspTid : Option ℕ
deriving DecidableEq, Repr

/-! ## The history of a model -/

/-- What a run has done. `L` are the places a request can be at. -/
structure MemHist (L : Type) where
  /-- The next request id (`g_seqNum`). -/
  seqNum : ℕ
  /-- The assembled requests, oldest first. -/
  accepted : List MemRdWrReqTime
  /-- The transfers made, oldest first: the request and the quadword index. -/
  xfers : List (ℕ × ℕ)
  loc : ℕ → L

namespace MemHist

variable {L : Type} (h : MemHist L)

/-- A quadword was taken; it is a request's first unless `p` is under assembly. -/
def take (p : Option MemRdWrReqTime) : MemHist L :=
  { h with seqNum := h.seqNum + if p.isNone then 1 else 0 }

/-- A request is complete and at `l`. -/
def accept (q : MemRdWrReqTime) (l : L) : MemHist L :=
  { h with accepted := h.accepted ++ [q], loc := Function.update h.loc q.id l }

def move (id : ℕ) (l : L) : MemHist L := { h with loc := Function.update h.loc id l }

def xfer (id qwIdx : ℕ) : MemHist L := { h with xfers := h.xfers ++ [(id, qwIdx)] }

/-- The quadwords transferred for a request, in order. -/
def qws (id : ℕ) : List ℕ := Ledger.parts h.xfers id

/-- The quadwords of accepted requests that are still to be transferred. -/
def left : ℕ := Ledger.left (h.accepted.map fun q => (q.id, q.reqQwCnt)) h.xfers

@[simp] theorem qws_take (p : Option MemRdWrReqTime) (id : ℕ) : (h.take p).qws id = h.qws id := rfl
@[simp] theorem qws_accept (q : MemRdWrReqTime) (l : L) (id : ℕ) : (h.accept q l).qws id = h.qws id := rfl
@[simp] theorem qws_move (k : ℕ) (l : L) (id : ℕ) : (h.move k l).qws id = h.qws id := rfl

theorem qws_xfer_of_ne {id k : ℕ} (hne : k ≠ id) (n : ℕ) : (h.xfer k n).qws id = h.qws id :=
  Ledger.parts_append_of_ne hne

/-- The next quadword. -/
theorem qws_xfer {id n : ℕ} (hn : h.qws id = List.range n) : (h.xfer id n).qws id = List.range (n + 1) :=
  Ledger.parts_next hn

/-- Accepted requests have ids of their own, and only they have transfers. -/
structure Ok (h : MemHist L) : Prop where
  cnt : ∀ q ∈ h.accepted, 1 ≤ q.reqQwCnt ∧ q.reqQwCnt ≤ 8
  idLt : ∀ q ∈ h.accepted, q.id < h.seqNum
  nodup : (h.accepted.map MemRdWrReqTime.id).Nodup
  unseen : ∀ id, (∀ q ∈ h.accepted, q.id ≠ id) → h.qws id = []

variable {h}

theorem Ok.take (ho : h.Ok) (p : Option MemRdWrReqTime) : (h.take p).Ok :=
  { ho with idLt := fun q hq => Nat.lt_of_lt_of_le (ho.idLt q hq) (Nat.le_add_right _ _) }

/-- A new request. -/
theorem Ok.accept (ho : h.Ok) {q : MemRdWrReqTime} (hnew : ∀ q' ∈ h.accepted, q'.id ≠ q.id)
    (hlt : q.id < h.seqNum) (hcnt : 1 ≤ q.reqQwCnt ∧ q.reqQwCnt ≤ 8) (l : L) : (h.accept q l).Ok := by
  refine ⟨?_, ?_, ?_, ?_⟩
  · intro q' hq'
    rcases List.mem_append.1 hq' with hq' | hq'
    · exact ho.cnt q' hq'
    · obtain rfl : q' = q := by simpa using hq'
      exact hcnt
  · intro q' hq'
    rcases List.mem_append.1 hq' with hq' | hq'
    · exact ho.idLt q' hq'
    · obtain rfl : q' = q := by simpa using hq'
      exact hlt
  · show ((h.accepted ++ [q]).map MemRdWrReqTime.id).Nodup
    rw [List.map_append, List.nodup_append]
    refine ⟨ho.nodup, by simp, ?_⟩
    intro a ha b hb
    obtain ⟨q', hq', rfl⟩ := List.mem_map.1 ha
    obtain rfl : b = q.id := by simpa using hb
    exact hnew q' hq'
  · intro id hid
    exact ho.unseen id fun q' hq' => hid q' (List.mem_append_left _ hq')

theorem Ok.move (ho : h.Ok) (id : ℕ) (l : L) : (h.move id l).Ok := { ho with }

theorem Ok.xfer (ho : h.Ok) {q : MemRdWrReqTime} (hq : q ∈ h.accepted) (n : ℕ) : (h.xfer q.id n).Ok :=
  { ho with
    unseen := by
      intro id hid
      exact (qws_xfer_of_ne h (hid q hq) n).trans (ho.unseen id hid) }

/-- Every transfer is one of an accepted request. -/
theorem Ok.exists_accepted (ho : h.Ok) {x : ℕ × ℕ} (hx : x ∈ h.xfers) : ∃ q ∈ h.accepted, q.id = x.1 := by
  by_contra hnone
  have hqws : h.qws x.1 = [] := ho.unseen x.1 fun q hq he => hnone ⟨q, hq, he⟩
  have hmem : x.2 ∈ h.qws x.1 := List.mem_map.2 ⟨x, List.mem_filter.2 ⟨hx, by simp⟩, rfl⟩
  rw [hqws] at hmem
  cases hmem

theorem Ok.eq_of_id (ho : h.Ok) {q q' : MemRdWrReqTime} (hq : q ∈ h.accepted) (hq' : q' ∈ h.accepted)
    (hid : q.id = q'.id) : q = q' := List.inj_on_of_nodup_map ho.nodup hq hq' hid

end MemHist

/-! ## Assembly -/

/-- A request under assembly is a write that still lacks quadwords; its id is taken and new. -/
def Assembling (seqNum : ℕ) : Option MemRdWrReqTime → ℕ → Prop
  | none, wrDataIdx => wrDataIdx = 0
  | some q, wrDataIdx => q.req.type = .wr ∧ wrDataIdx < q.reqQwCnt ∧ q.reqQwCnt ≤ 8 ∧ q.id < seqNum

variable {cfg : MemCfg} {v : AddrRanges} {now : ℚ} {seqNum wrDataIdx : ℕ} {r : MemRdWrReqIntf}

theorem reqQwCnt_bounds (cfg : MemCfg) (r : MemRdWrReqIntf) : 1 ≤ reqQwCnt cfg r ∧ reqQwCnt cfg r ≤ 8 := by
  unfold reqQwCnt MemRdWrReqIntf.tidQw
  split <;> omega

/-- The id of the request a quadword belongs to. -/
def takenId (seqNum : ℕ) : Option MemRdWrReqTime → ℕ
  | none => seqNum
  | some q => q.id

/-- What `newReq` returns if no check fails. -/
theorem newReq_ok {id w : ℕ} {q : MemRdWrReqTime} (h : newReq cfg v now id wrDataIdx r = .ok (q, w)) :
    q.id = id ∧ q.req = r ∧ q.reqQwCnt = reqQwCnt cfg r ∧
      w = if r.type = .wr then wrDataIdx + 1 else wrDataIdx := by
  unfold newReq at h
  simp only [bind_ok] at h
  obtain ⟨_, _, _, _, _, _, h⟩ := h
  by_cases hw : r.type = .wr
  · rw [if_pos (by simpa using hw)] at h
    cases h
    exact ⟨rfl, rfl, rfl, (if_pos hw).symm⟩
  · rw [if_neg (by simpa using hw)] at h
    cases h
    exact ⟨rfl, rfl, rfl, (if_neg hw).symm⟩

theorem checkAddr_ne (addr : ℕ) : checkAddr cfg v addr ≠ .error .emptyFront := by
  unfold checkAddr
  split
  · simp
  · simp

/-- The checks stop the simulation by an assertion or an exit. -/
theorem newReq_ne (id : ℕ) : newReq cfg v now id wrDataIdx r ≠ .error .emptyFront := by
  have h2 : checkHc2 cfg (reqQwCnt cfg r) (v.host r.addr) ≠ .error .emptyFront := by
    unfold checkHc2
    split
    · simp
    · simp
  have h3 : checkRead r ≠ .error .emptyFront := by
    unfold checkRead memAssert
    split
    · simp
    · simp
  intro he
  unfold newReq at he
  simp only [bind_error] at he
  rcases he with he | ⟨_, _, he | ⟨_, _, he | ⟨_, _, he⟩⟩⟩
  · exact checkAddr_ne _ he
  · exact h2 he
  · exact h3 he
  · split at he
    · cases he
    · cases he

/-- **Assembly.** A quadword goes to the request it belongs to. A request that is not complete
stays under assembly. -/
theorem takeReq_ok {p : Option MemRdWrReqTime} {q : MemRdWrReqTime} {w : ℕ}
    (ha : Assembling seqNum p wrDataIdx) (h : takeReq cfg v now seqNum wrDataIdx r p = .ok (q, w)) :
    q.id = takenId seqNum p ∧ q.id < (seqNum + if p.isNone then 1 else 0) ∧
      1 ≤ q.reqQwCnt ∧ q.reqQwCnt ≤ 8 ∧ (q.complete w = false → Assembling (seqNum + if p.isNone then 1 else 0) (some q) w) := by
  cases p with
  | none =>
    obtain ⟨hid, rfl, hcnt, hw⟩ := newReq_ok h
    have hb := reqQwCnt_bounds cfg q.req
    have h0 : wrDataIdx = 0 := ha
    refine ⟨hid, by simp [hid], by omega, by omega, ?_⟩
    intro hc
    simp only [MemRdWrReqTime.complete, Bool.or_eq_false_iff, bne_eq_false_iff_eq, beq_eq_false_iff_ne] at hc
    rw [if_pos hc.1, h0] at hw
    refine ⟨hc.1, by omega, by omega, ?_⟩
    simp [hid]
  | some p =>
    obtain ⟨ht, hlt, h8, hid⟩ := ha
    cases h
    have h1 : 1 ≤ p.reqQwCnt := by omega
    refine ⟨rfl, by simpa using hid, h1, h8, ?_⟩
    intro hc
    simp only [MemRdWrReqTime.complete, Bool.or_eq_false_iff, bne_eq_false_iff_eq, beq_eq_false_iff_ne] at hc
    exact ⟨ht, Nat.lt_of_le_of_ne hlt hc.2, h8, by simpa using hid⟩

/-- A read of eight aligned quadwords. -/
def read64 : MemRdWrReqIntf := ⟨0, 64, 7, .rd, false, .u64, true⟩

end OpenHT.Sysc
