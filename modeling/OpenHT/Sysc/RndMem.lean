import Mathlib.Data.Finset.Card
import Mathlib.Data.Finset.Range
import OpenHT.Lib.Lts
import OpenHT.Sysc.MemReq

/-!
# The memory model with random order

`CSyscMemLib` without banks: requests wait in a FIFO, move to a list of 32 slots for reads or
for writes, and every clock serves the read slot and the write slot of one index.

* `ReqList`: a list of slots with its valid bits, round robin index, count and hold flag.
* `RndMem.clk`: one clock.
* `RndMem.fresh`: the start of a history at a reset.
* `RndInv`: the counts, the held transfers, and where every accepted request is.
* `RndInv.clk`: a clock without reset keeps it.
-/

namespace OpenHT.Sysc

/-- `MEM_REQ_MAX` -/
def memReqMax : ℕ := 32

/-- `m_rdReqList`, `m_rdReqValid`, …, and the same for writes. -/
structure ReqList where
  list : ℕ → MemRdWrReqTime
  valid : BitVec 32
  rr : ℕ
  cnt : ℕ
  bHold : Bool
  qwIdx : ℕ

namespace ReqList

/-- The search for an empty slot: the round robin index where it ends, and whether one was found. -/
def findSlot : ℕ → BitVec 32 → ℕ → ℕ × Bool
  | 0, _, rr => (rr, false)
  | n + 1, valid, rr => if valid.getLsbD rr then findSlot n valid ((rr + 1) % memReqMax) else (rr, true)

variable (l : ReqList)

/-- The front of the FIFO goes to slot `i`. -/
def put (i : ℕ) (q : MemRdWrReqTime) : ReqList :=
  { l with list := Function.update l.list i q, valid := l.valid ||| 1#32 <<< i, rr := i, cnt := l.cnt + 1 }

/-- A quadword of slot `idx` was transferred. -/
def advance (idx : ℕ) : ReqList :=
  if (l.list idx).reqQwCnt = l.qwIdx + 1 then
    { l with cnt := l.cnt - 1, valid := l.valid &&& ~~~(1#32 <<< idx), qwIdx := 0, bHold := false }
  else { l with qwIdx := l.qwIdx + 1, bHold := true }

/-- The registers after a reset; the list is not cleared. -/
def reset : ReqList := { l with valid := 0, rr := 0, cnt := 0, bHold := false, qwIdx := 0 }

end ReqList

/-- Where a request is. -/
inductive RndLoc
  | que
  | slot (d : MemDir) (i : ℕ)
  | done
deriving DecidableEq, Repr

structure RndMem where
  memReqQue : List MemRdWrReqTime
  pReqTime : Option MemRdWrReqTime
  wrDataIdx : ℕ
  req : MemDir → ReqList
  prevReqIdx : ℕ
  mem : Mem ℕ
  rsp : MemRsp
  hist : MemHist RndLoc

/-- What a clock sees. -/
structure RndIn where
  now : ℚ
  reset : Bool
  req : Option MemRdWrReqIntf
  rdRspFull : Bool
  wrRspFull : Bool
  /-- `__CnyMTRand()` -/
  rnd : ℕ
  ranges : AddrRanges

structure RndCfg extends MemCfg where
  /-- `avgMemLatency[1]` is the host's. -/
  avgMemLatency : Bool → ℤ

namespace RndMem

variable (cfg : RndCfg) (i : RndIn) (s : RndMem)

/-- The constructor. `bHold` and `prevReqIdx` get no value there. -/
def construct (bRdReqHold bWrReqHold : Bool) (prevReqIdx : ℕ) (list : MemDir → ℕ → MemRdWrReqTime)
    (mem : Mem ℕ) : RndMem where
  memReqQue := []
  pReqTime := none
  wrDataIdx := 0
  req d := ⟨list d, 0, 0, 0, match d with | .rd => bRdReqHold | .wr => bWrReqHold, 0⟩
  prevReqIdx := prevReqIdx
  mem := mem
  rsp := ⟨none, none⟩
  hist := ⟨0, [], [], fun _ => .que⟩

/-- The request interface. -/
def takeIn : Except MemStop RndMem :=
  match i.req with
  | none => return s
  | some r => do
    let (q, w) ← takeReq cfg.toMemCfg i.ranges i.now s.hist.seqNum s.wrDataIdx r s.pReqTime
    let hist := s.hist.take s.pReqTime
    if q.complete w then
      return { s with
        memReqQue := s.memReqQue ++ [q], pReqTime := none, wrDataIdx := 0, hist := hist.accept q .que }
    else return { s with pReqTime := some q, wrDataIdx := w, hist := hist }

/-- The time in nanoseconds the front of the FIFO waits. -/
def lat (host : Bool) : ℤ :=
  max 0 (if host then cfg.avgMemLatency true - 32 else cfg.avgMemLatency false - 63) * 10

/-- The front of the FIFO moves to an empty slot of its list, if there is one. -/
def insert : RndMem :=
  match s.memReqQue with
  | [] => s
  | q :: rest =>
    if q.time + lat cfg q.req.host < i.now then
      let d := q.req.type.dir
      let l := s.req d
      let f := ReqList.findSlot memReqMax l.valid l.rr
      if f.2 then
        { s with
          memReqQue := rest, req := Function.update s.req d (l.put f.1 q)
          hist := s.hist.move q.id (.slot d f.1) }
      else { s with req := Function.update s.req d { l with rr := f.1 } }
    else s

/-- The index served in this clock. -/
def chooseIdx : RndMem :=
  if (s.req .rd).bHold || (s.req .wr).bHold then s else { s with prevReqIdx := i.rnd % memReqMax }

/-- A quadword of the slot at the index is transferred: what memory and the responses get from it,
and the progress of the list. -/
def transfer (d : MemDir) (mem : Mem ℕ) (rsp : MemRsp) : RndMem :=
  let l := s.req d
  let q := l.list s.prevReqIdx
  let hist := s.hist.xfer q.id l.qwIdx
  { s with
    mem := mem
    rsp := rsp
    req := Function.update s.req d (l.advance s.prevReqIdx)
    hist := if q.reqQwCnt = l.qwIdx + 1 then hist.move q.id .done else hist }

/-- The read of a clock. -/
def serveRd : RndMem :=
  let l := s.req .rd
  if !i.rdRspFull && l.cnt != 0 && (s.req .wr).cnt != memReqMax && l.valid.getLsbD s.prevReqIdx then
    let r := (l.list s.prevReqIdx).req
    let data := readQw cfg.toMemCfg s.mem r l.qwIdx
    s.transfer .rd (if r.type = .setBit63 then setBit63 cfg.toMemCfg s.mem r 0 else s.mem)
      { s.rsp with rdRsp := some (r.rspTid l.qwIdx, data) }
  else s

/-- The write of a clock. -/
def serveWr : RndMem :=
  let l := s.req .wr
  if !i.wrRspFull && l.cnt != 0 && l.valid.getLsbD s.prevReqIdx then
    let q := l.list s.prevReqIdx
    s.transfer .wr (writeQw cfg.toMemCfg s.mem q.req l.qwIdx (q.data l.qwIdx))
      (if l.qwIdx = 0 then { s.rsp with wrRspTid := some (q.req.rspTid l.qwIdx) } else s.rsp)
  else s

/-- `i_reset`; requests in the FIFO or under assembly stay. -/
def reset : RndMem := { s with req := fun d => (s.req d).reset, prevReqIdx := 0 }

/-- One clock. -/
def clk : Except MemStop RndMem := do
  let s ← takeIn cfg i { s with rsp := ⟨none, none⟩ }
  let s := serveWr cfg i (serveRd cfg i (chooseIdx i (insert cfg i s)))
  return if i.reset then s.reset else s

/-- The history from here on: the requests in the FIFO are accepted. -/
def fresh : RndMem := { s with hist := ⟨s.hist.seqNum, s.memReqQue, [], fun _ => .que⟩ }

end RndMem

/-! ## Valid bits -/

/-- The number of set bits. -/
def popcount (v : BitVec 32) : ℕ := ((Finset.range 32).filter fun i => v.getLsbD i = true).card

theorem getLsbD_set (v : BitVec 32) {i : ℕ} (hi : i < 32) (j : ℕ) :
    (v ||| 1#32 <<< i).getLsbD j = (v.getLsbD j || decide (j = i)) := by
  rw [BitVec.getLsbD_or, BitVec.getLsbD_shiftLeft, BitVec.getLsbD_one]
  by_cases hj : j = i
  · subst hj
    simp [hi]
  · have h : ¬ (¬ j < i ∧ j - i = 0) := by omega
    by_cases hlt : j < i
    · simp [hlt, hj]
    · have : j - i ≠ 0 := by omega
      simp [hj, this]

theorem getLsbD_clear (v : BitVec 32) {i : ℕ} (hi : i < 32) (j : ℕ) :
    (v &&& ~~~(1#32 <<< i)).getLsbD j = (v.getLsbD j && decide (j ≠ i)) := by
  by_cases hj : j < 32
  · rw [BitVec.getLsbD_and, BitVec.getLsbD_not, BitVec.getLsbD_shiftLeft, BitVec.getLsbD_one]
    by_cases hji : j = i
    · subst hji
      simp [hi]
    · by_cases hlt : j < i
      · simp [hlt, hji, hj]
      · have : j - i ≠ 0 := by omega
        simp [hji, this, hj]
  · rw [BitVec.getLsbD_of_ge _ _ (by omega), BitVec.getLsbD_of_ge _ _ (by omega), Bool.false_and]

theorem lt_of_getLsbD {v : BitVec 32} {i : ℕ} (h : v.getLsbD i = true) : i < 32 := by
  by_contra hi
  rw [BitVec.getLsbD_of_ge _ _ (by omega)] at h
  cases h

theorem popcount_set {v : BitVec 32} {i : ℕ} (hi : i < 32) (h : v.getLsbD i = false) :
    popcount (v ||| 1#32 <<< i) = popcount v + 1 := by
  have hset : (Finset.range 32).filter (fun j => (v ||| 1#32 <<< i).getLsbD j = true) =
      insert i ((Finset.range 32).filter fun j => v.getLsbD j = true) := by
    ext j
    simp only [Finset.mem_filter, Finset.mem_insert, Finset.mem_range, getLsbD_set v hi, Bool.or_eq_true,
      decide_eq_true_iff]
    constructor
    · rintro ⟨hj, h | h⟩
      · exact .inr ⟨hj, h⟩
      · exact .inl h
    · rintro (rfl | ⟨hj, h⟩)
      · exact ⟨hi, .inr rfl⟩
      · exact ⟨hj, .inl h⟩
  unfold popcount
  rw [hset, Finset.card_insert_of_notMem (by simp [h])]

theorem popcount_clear {v : BitVec 32} {i : ℕ} (h : v.getLsbD i = true) :
    popcount (v &&& ~~~(1#32 <<< i)) = popcount v - 1 := by
  have hi := lt_of_getLsbD h
  have hset : (Finset.range 32).filter (fun j => (v &&& ~~~(1#32 <<< i)).getLsbD j = true) =
      ((Finset.range 32).filter fun j => v.getLsbD j = true).erase i := by
    ext j
    simp only [Finset.mem_filter, Finset.mem_erase, Finset.mem_range, getLsbD_clear v hi, Bool.and_eq_true,
      decide_eq_true_iff]
    constructor
    · rintro ⟨hj, hv, hne⟩
      exact ⟨hne, hj, hv⟩
    · rintro ⟨hne, hj, hv⟩
      exact ⟨hj, hv, hne⟩
  unfold popcount
  rw [hset, Finset.card_erase_of_mem (by simp [hi, h])]

theorem popcount_le (v : BitVec 32) : popcount v ≤ 32 := by
  have h := Finset.card_filter_le (Finset.range 32) (fun i => v.getLsbD i = true)
  rwa [Finset.card_range] at h

theorem popcount_pos {v : BitVec 32} {i : ℕ} (h : v.getLsbD i = true) : 0 < popcount v :=
  Finset.card_pos.2 ⟨i, by simp [lt_of_getLsbD h, h]⟩

namespace ReqList

theorem findSlot_spec (n : ℕ) (v : BitVec 32) {rr : ℕ} (hrr : rr < 32) :
    (findSlot n v rr).1 < 32 ∧ ((findSlot n v rr).2 = true → v.getLsbD (findSlot n v rr).1 = false) := by
  induction n generalizing rr with
  | zero => exact ⟨hrr, fun h => by cases h⟩
  | succ n ih =>
    unfold findSlot
    by_cases hv : v.getLsbD rr = true
    · rw [if_pos hv]
      exact ih (Nat.mod_lt _ (by decide))
    · rw [if_neg hv]
      exact ⟨hrr, fun _ => by simpa using hv⟩

/-- The registers of a list. A quadword index other than 0 belongs to the slot `prev`. -/
structure Ok (l : ReqList) (prev : ℕ) : Prop where
  rr : l.rr < 32
  cnt : l.cnt = popcount l.valid
  hold : l.bHold = true ↔ l.qwIdx ≠ 0
  held : l.bHold = true → l.valid.getLsbD prev = true ∧ l.qwIdx < (l.list prev).reqQwCnt

/-- The quadwords of slot `i` that were transferred. -/
def progress (l : ReqList) (prev i : ℕ) : ℕ := if i = prev then l.qwIdx else 0

variable {l : ReqList} {prev : ℕ}

theorem Ok.put (h : l.Ok prev) {i : ℕ} (hi : i < 32) (hv : l.valid.getLsbD i = false) (q : MemRdWrReqTime) :
    (l.put i q).Ok prev := by
  refine ⟨hi, ?_, h.hold, ?_⟩
  · exact (congrArg (· + 1) h.cnt).trans (popcount_set hi hv).symm
  · intro hb
    obtain ⟨hprev, hlt⟩ := h.held hb
    have hne : prev ≠ i := by
      rintro rfl
      rw [hv] at hprev
      cases hprev
    refine ⟨?_, ?_⟩
    · simp [ReqList.put, getLsbD_set _ hi, hprev]
    · simpa [ReqList.put, hne] using hlt

theorem Ok.advance (h : l.Ok prev) (hv : l.valid.getLsbD prev = true)
    (hcnt : 1 ≤ (l.list prev).reqQwCnt) : (l.advance prev).Ok prev := by
  have hlt : l.qwIdx < (l.list prev).reqQwCnt := by
    by_cases hb : l.bHold = true
    · exact (h.held hb).2
    · have : l.qwIdx = 0 := by
        by_contra hq
        exact hb (h.hold.2 hq)
      omega
  unfold ReqList.advance
  by_cases hlast : (l.list prev).reqQwCnt = l.qwIdx + 1
  · rw [if_pos hlast]
    refine ⟨h.rr, ?_, by simp, by simp⟩
    exact (congrArg (· - 1) h.cnt).trans (popcount_clear hv).symm
  · rw [if_neg hlast]
    refine ⟨h.rr, h.cnt, by simp, ?_⟩
    intro _
    refine ⟨hv, ?_⟩
    show l.qwIdx + 1 < (l.list prev).reqQwCnt
    omega

/-- A slot that is empty has no progress. -/
theorem Ok.progress_of_empty (h : l.Ok prev) {i : ℕ} (hv : l.valid.getLsbD i = false) :
    l.progress prev i = 0 := by
  unfold ReqList.progress
  by_cases hi : i = prev
  · subst hi
    rw [if_pos rfl]
    by_contra hq
    have := (h.held (h.hold.2 hq)).1
    rw [hv] at this
    cases this
  · rw [if_neg hi]

/-- The index may be chosen freely when nothing is held. -/
theorem Ok.choose (h : l.Ok prev) (hb : l.bHold = false) (idx : ℕ) : l.Ok idx :=
  ⟨h.rr, h.cnt, h.hold, fun hh => by rw [hb] at hh; cases hh⟩

theorem Ok.qwIdx_eq (h : l.Ok prev) (hb : l.bHold = false) : l.qwIdx = 0 := by
  by_contra hq
  have := h.hold.2 hq
  rw [hb] at this
  cases this

theorem Ok.reset (l : ReqList) : l.reset.Ok 0 := by
  have hpop : (0 : ℕ) = popcount 0 := by decide
  exact ⟨Nat.zero_lt_succ 31, hpop, by simp [ReqList.reset], by simp [ReqList.reset]⟩

end ReqList

/-! ## The invariant -/

/-- A request is at `l`, and what was transferred for it fits. -/
def RndMem.At (s : RndMem) (q : MemRdWrReqTime) : RndLoc → Prop
  | .que => q ∈ s.memReqQue ∧ s.hist.qws q.id = []
  | .slot d i => (s.req d).valid.getLsbD i = true ∧ (s.req d).list i = q ∧
      s.hist.qws q.id = List.range ((s.req d).progress s.prevReqIdx i)
  | .done => s.hist.qws q.id = List.range q.reqQwCnt

/-- A step that leaves a request where it is. -/
theorem RndMem.At.congr {s s' : RndMem} {q : MemRdWrReqTime} {l : RndLoc} (h : s.At q l)
    (hqws : s'.hist.qws q.id = s.hist.qws q.id) (hque : q ∈ s.memReqQue → q ∈ s'.memReqQue)
    (hslot : ∀ d j, l = .slot d j → (s.req d).valid.getLsbD j = true → (s.req d).list j = q →
      (s'.req d).valid.getLsbD j = true ∧ (s'.req d).list j = q ∧
        (s'.req d).progress s'.prevReqIdx j = (s.req d).progress s.prevReqIdx j) : s'.At q l := by
  cases l with
  | que => exact ⟨hque h.1, hqws.trans h.2⟩
  | slot d j =>
    obtain ⟨hv, hlist, hp⟩ := h
    obtain ⟨hv', hlist', hp'⟩ := hslot d j rfl hv hlist
    exact ⟨hv', hlist', by rw [hqws, hp, hp']⟩
  | done => exact hqws.trans h

structure RndInv (s : RndMem) : Prop where
  asm : Assembling s.hist.seqNum s.pReqTime s.wrDataIdx
  asmId : ∀ p ∈ s.pReqTime, ∀ q ∈ s.hist.accepted, q.id ≠ p.id
  side : ∀ d, (s.req d).Ok s.prevReqIdx
  prev : s.prevReqIdx < 32
  queNodup : (s.memReqQue.map MemRdWrReqTime.id).Nodup
  que : ∀ q ∈ s.memReqQue, q ∈ s.hist.accepted ∧ s.hist.loc q.id = .que
  slot : ∀ d i, (s.req d).valid.getLsbD i = true →
    (s.req d).list i ∈ s.hist.accepted ∧ s.hist.loc ((s.req d).list i).id = .slot d i
  at_loc : ∀ q ∈ s.hist.accepted, s.At q (s.hist.loc q.id)
  hist : s.hist.Ok

namespace RndInv

variable {cfg : RndCfg} {i : RndIn} {s s' : RndMem}

/-- The id that a new quadword's request has is not an accepted one. -/
theorem takenId_new (h : RndInv s) : ∀ q ∈ s.hist.accepted, q.id ≠ takenId s.hist.seqNum s.pReqTime := by
  intro q hq
  cases hp : s.pReqTime with
  | none =>
    have := h.hist.idLt q hq
    simp only [takenId]
    omega
  | some p => exact h.asmId p hp q hq

/-- **The request interface** adds a request to the FIFO when it is complete. -/
theorem takeIn (h : RndInv s) (he : s.takeIn cfg i = .ok s') : RndInv s' := by
  unfold RndMem.takeIn at he
  cases hr : i.req with
  | none =>
    rw [hr] at he
    cases he
    exact h
  | some r =>
    rw [hr] at he
    simp only [bind_ok] at he
    obtain ⟨⟨q, w⟩, htake, he⟩ := he
    obtain ⟨hid, hlt, h1, h8, hasm⟩ := takeReq_ok h.asm htake
    have hnew : ∀ q' ∈ s.hist.accepted, q'.id ≠ q.id := by
      rw [hid]
      exact h.takenId_new
    by_cases hc : q.complete w = true
    · rw [if_pos hc] at he
      cases he
      exact {
        asm := rfl
        asmId := by simp
        side := h.side
        prev := h.prev
        queNodup := by
          rw [List.map_append, List.nodup_append]
          refine ⟨h.queNodup, by simp, ?_⟩
          intro a ha b hb
          obtain ⟨q', hq', rfl⟩ := List.mem_map.1 ha
          obtain rfl : b = q.id := by simpa using hb
          exact hnew q' (h.que q' hq').1
        que := by
          intro q' hq'
          rcases List.mem_append.1 hq' with hq' | hq'
          · obtain ⟨hacc, hloc⟩ := h.que q' hq'
            refine ⟨List.mem_append_left _ hacc, ?_⟩
            exact (Function.update_of_ne (hnew q' hacc) _ _).trans hloc
          · obtain rfl : q' = q := by simpa using hq'
            exact ⟨List.mem_append_right _ hq', Function.update_self _ _ _⟩
        slot := by
          intro d j hv
          obtain ⟨hacc, hloc⟩ := h.slot d j hv
          refine ⟨List.mem_append_left _ hacc, ?_⟩
          exact (Function.update_of_ne (hnew _ hacc) _ _).trans hloc
        at_loc := by
          intro q' hq'
          rcases List.mem_append.1 hq' with hacc | hq'
          · have hat := h.at_loc q' hacc
            have hloc := Function.update_of_ne (hnew q' hacc) RndLoc.que s.hist.loc
            show RndMem.At _ q' (Function.update s.hist.loc q.id .que q'.id)
            rw [hloc]
            exact hat.congr rfl (List.mem_append_left _) fun _ _ _ hv hl => ⟨hv, hl, rfl⟩
          · obtain rfl : q' = q := by simpa using hq'
            show RndMem.At _ q' (Function.update s.hist.loc q'.id .que q'.id)
            rw [Function.update_self]
            exact ⟨List.mem_append_right _ hq', h.hist.unseen _ hnew⟩
        hist := (h.hist.take _).accept hnew hlt ⟨h1, h8⟩ _ }
    · rw [if_neg hc] at he
      cases he
      exact { h with
        asm := hasm (by simpa using hc)
        asmId := by
          intro p hp q' hq'
          obtain rfl : q = p := by simpa using hp
          exact hnew q' hq'
        hist := h.hist.take _ }

/-- **The front of the FIFO** moves to an empty slot. -/
theorem put (h : RndInv s) {q : MemRdWrReqTime} {rest : List MemRdWrReqTime} (hq : s.memReqQue = q :: rest)
    (d : MemDir) {rr : ℕ} (hrr : rr < 32) (hv : (s.req d).valid.getLsbD rr = false) :
    RndInv { s with
      memReqQue := rest, req := Function.update s.req d ((s.req d).put rr q)
      hist := s.hist.move q.id (.slot d rr) } := by
  obtain ⟨hacc, hloc⟩ := h.que q (by rw [hq]; exact List.mem_cons_self)
  have hqws : s.hist.qws q.id = [] := by
    have hat := h.at_loc q hacc
    rw [hloc] at hat
    exact hat.2
  have hnodup := h.queNodup
  rw [hq, List.map_cons, List.nodup_cons] at hnodup
  exact { h with
    side := by
      intro d'
      dsimp only
      by_cases hd : d' = d
      · subst hd
        rw [Function.update_self]
        exact (h.side d').put hrr hv q
      · rw [Function.update_of_ne hd]
        exact h.side d'
    queNodup := hnodup.2
    que := by
      intro q' hq'
      have hne : q'.id ≠ q.id := by
        intro he
        exact hnodup.1 (he ▸ List.mem_map_of_mem hq')
      obtain ⟨hacc', hloc'⟩ := h.que q' (by rw [hq]; exact List.mem_cons_of_mem _ hq')
      exact ⟨hacc', (Function.update_of_ne hne _ _).trans hloc'⟩
    slot := by
      intro d' j hj
      by_cases hnew : d' = d ∧ j = rr
      · obtain ⟨rfl, rfl⟩ := hnew
        simp only [Function.update_self, ReqList.put]
        exact ⟨hacc, Function.update_self _ _ _⟩
      · have hold : (s.req d').valid.getLsbD j = true ∧
            (Function.update s.req d ((s.req d).put rr q) d').list j = (s.req d').list j := by
          by_cases hd : d' = d
          · subst hd
            have hjr : j ≠ rr := fun he => hnew ⟨rfl, he⟩
            simp only [Function.update_self, ReqList.put, getLsbD_set _ hrr] at hj ⊢
            simpa [hjr] using hj
          · dsimp only at hj
            rw [Function.update_of_ne hd] at hj ⊢
            exact ⟨hj, rfl⟩
        obtain ⟨hacc', hloc'⟩ := h.slot d' j hold.1
        have hne : ((s.req d').list j).id ≠ q.id := by
          intro he
          rw [he, hloc] at hloc'
          cases hloc'
        simp only [hold.2]
        exact ⟨hacc', (Function.update_of_ne hne _ _).trans hloc'⟩
    at_loc := by
      intro q' hq'
      by_cases hqq : q' = q
      · subst hqq
        show RndMem.At _ q' (Function.update s.hist.loc q'.id (.slot d rr) q'.id)
        rw [Function.update_self]
        refine ⟨?_, ?_, ?_⟩
        · simp [ReqList.put, getLsbD_set _ hrr]
        · simp [ReqList.put]
        · have hprog := (h.side d).progress_of_empty hv
          simp only [Function.update_self]
          exact hqws.trans (congrArg List.range hprog).symm
      · have hne : q'.id ≠ q.id := fun he => hqq (h.hist.eq_of_id hq' hacc he)
        have hat := h.at_loc q' hq'
        show RndMem.At _ q' (Function.update s.hist.loc q.id (.slot d rr) q'.id)
        rw [Function.update_of_ne hne]
        refine hat.congr rfl ?_ ?_
        · intro hmem
          rw [hq] at hmem
          rcases List.mem_cons.1 hmem with he | hmem
          · exact absurd he hqq
          · exact hmem
        · intro d' j _ hj hl
          by_cases hd : d' = d
          · subst hd
            have hjr : j ≠ rr := by
              rintro rfl
              rw [hv] at hj
              cases hj
            simp [ReqList.put, getLsbD_set _ hrr, hjr, ReqList.progress, hj, hl]
          · simp [Function.update_of_ne hd, hj, hl]
    hist := h.hist.move _ _ }

/-- The round robin index may be anything. -/
theorem setRr (h : RndInv s) (d : MemDir) {rr : ℕ} (hrr : rr < 32) :
    RndInv { s with req := Function.update s.req d { s.req d with rr := rr } } := by
  have hcases (d' : MemDir) : ∃ r, r < 32 ∧
      Function.update s.req d { s.req d with rr := rr } d' = { s.req d' with rr := r } := by
    by_cases hd : d' = d
    · subst hd
      exact ⟨rr, hrr, Function.update_self _ _ _⟩
    · exact ⟨_, (h.side d').rr, Function.update_of_ne hd _ _⟩
  exact { h with
    side := by
      intro d'
      obtain ⟨r, hr, he⟩ := hcases d'
      have hside := h.side d'
      dsimp only
      rw [he]
      exact ⟨hr, hside.cnt, hside.hold, hside.held⟩
    slot := by
      intro d' j hj
      obtain ⟨r, _, he⟩ := hcases d'
      dsimp only at hj ⊢
      rw [he] at hj ⊢
      exact h.slot d' j hj
    at_loc := by
      intro q hq
      refine (h.at_loc q hq).congr rfl (fun hmem => hmem) ?_
      intro d' j _ hj hl
      obtain ⟨r, _, he⟩ := hcases d'
      dsimp only
      rw [he]
      exact ⟨hj, hl, rfl⟩ }

theorem insert (h : RndInv s) : RndInv (s.insert cfg i) := by
  unfold RndMem.insert
  cases hq : s.memReqQue with
  | nil => exact h
  | cons q rest =>
    simp only []
    by_cases ht : q.time + RndMem.lat cfg q.req.host < i.now
    · rw [if_pos ht]
      generalize q.req.type.dir = d
      have hspec := ReqList.findSlot_spec memReqMax (s.req d).valid (h.side d).rr
      generalize ReqList.findSlot memReqMax (s.req d).valid (s.req d).rr = f at hspec ⊢
      by_cases hfound : f.2 = true
      · rw [if_pos hfound]
        exact h.put hq d hspec.1 (hspec.2 hfound)
      · rw [if_neg hfound, ← hq]
        exact h.setRr d hspec.1
    · rw [if_neg ht]
      exact h

/-- **The index of a clock** keeps what is held. -/
theorem chooseIdx (h : RndInv s) : RndInv (s.chooseIdx i) := by
  unfold RndMem.chooseIdx
  by_cases hb : ((s.req .rd).bHold || (s.req .wr).bHold) = true
  · rw [if_pos hb]
    exact h
  · rw [if_neg hb]
    have hfree : ∀ d, (s.req d).bHold = false := by
      simp only [Bool.or_eq_true, not_or, Bool.not_eq_true] at hb
      intro d
      cases d with
      | rd => exact hb.1
      | wr => exact hb.2
    have hprog (d : MemDir) (p j : ℕ) : (s.req d).progress p j = 0 := by
      unfold ReqList.progress
      rw [(h.side d).qwIdx_eq (hfree d), ite_self]
    exact { h with
      side := fun d => (h.side d).choose (hfree d) _
      prev := Nat.mod_lt _ (by decide)
      at_loc := by
        intro q hq
        refine (h.at_loc q hq).congr rfl (fun hmem => hmem) ?_
        intro d j _ hj hl
        exact ⟨hj, hl, (hprog d _ j).trans (hprog d _ j).symm⟩ }

/-- **A transfer** is the next one of the request in the slot. -/
theorem transfer (h : RndInv s) (d : MemDir) (hv : (s.req d).valid.getLsbD s.prevReqIdx = true)
    (mem : Mem ℕ) (rsp : MemRsp) : RndInv (s.transfer d mem rsp) := by
  obtain ⟨hacc, hloc⟩ := h.slot d _ hv
  generalize hq : (s.req d).list s.prevReqIdx = q at hacc hloc
  have hqws : s.hist.qws q.id = List.range (s.req d).qwIdx := by
    have hat := h.at_loc q hacc
    rw [hloc] at hat
    have hp : (s.req d).progress s.prevReqIdx s.prevReqIdx = (s.req d).qwIdx := if_pos rfl
    exact hat.2.2.trans (congrArg List.range hp)
  have hnext := s.hist.qws_xfer hqws
  have hadv : ((s.req d).advance s.prevReqIdx).Ok s.prevReqIdx :=
    (h.side d).advance hv (by rw [hq]; exact (h.hist.cnt q hacc).1)
  have hlt := lt_of_getLsbD hv
  -- Every other request stays where it is.
  have hother (hist : MemHist RndLoc) (q' : MemRdWrReqTime) (hq' : q' ∈ s.hist.accepted) (hne : q' ≠ q)
      (hxfers : hist.xfers = (s.hist.xfer q.id (s.req d).qwIdx).xfers) :
      RndMem.At { s with mem := mem, rsp := rsp
                         req := Function.update s.req d ((s.req d).advance s.prevReqIdx)
                         hist := hist } q' (s.hist.loc q'.id) := by
    have hid : q.id ≠ q'.id := fun he => hne (h.hist.eq_of_id hq' hacc he.symm)
    refine (h.at_loc q' hq').congr ?_ (fun hmem => hmem) ?_
    · have := s.hist.qws_xfer_of_ne hid (s.req d).qwIdx
      unfold MemHist.qws at this ⊢
      dsimp only
      rw [hxfers]
      exact this
    · intro d' j _ hj hl
      dsimp only
      by_cases hd : d' = d
      · subst hd
        have hjp : j ≠ s.prevReqIdx := by
          rintro rfl
          exact hne (hl.symm.trans hq)
        rw [Function.update_self]
        unfold ReqList.advance
        split
        · simp [getLsbD_clear _ hlt, hjp, hj, hl, ReqList.progress]
        · simp [hjp, hj, hl, ReqList.progress]
      · rw [Function.update_of_ne hd]
        exact ⟨hj, hl, rfl⟩
  have hside : ∀ d', (Function.update s.req d ((s.req d).advance s.prevReqIdx) d').Ok s.prevReqIdx := by
    intro d'
    by_cases hd : d' = d
    · subst hd
      rw [Function.update_self]
      exact hadv
    · rw [Function.update_of_ne hd]
      exact h.side d'
  unfold RndMem.transfer
  dsimp only
  rw [hq]
  by_cases hlast : q.reqQwCnt = (s.req d).qwIdx + 1
  · rw [if_pos hlast]
    have hadvance : (s.req d).advance s.prevReqIdx = { s.req d with
        cnt := (s.req d).cnt - 1, valid := (s.req d).valid &&& ~~~(1#32 <<< s.prevReqIdx)
        qwIdx := 0, bHold := false } := if_pos (by rw [hq]; exact hlast)
    exact { h with
      side := hside
      que := by
        intro q' hq'
        obtain ⟨hacc', hloc'⟩ := h.que q' hq'
        have hne : q'.id ≠ q.id := by
          intro he
          rw [he, hloc] at hloc'
          cases hloc'
        exact ⟨hacc', (Function.update_of_ne hne _ _).trans hloc'⟩
      slot := by
        intro d' j hj
        dsimp only at hj ⊢
        have hold : (s.req d').valid.getLsbD j = true ∧ ¬ (d' = d ∧ j = s.prevReqIdx) ∧
            (Function.update s.req d ((s.req d).advance s.prevReqIdx) d').list j = (s.req d').list j := by
          by_cases hd : d' = d
          · subst hd
            rw [Function.update_self, hadvance] at hj ⊢
            rw [getLsbD_clear _ hlt] at hj
            simpa using hj
          · rw [Function.update_of_ne hd] at hj ⊢
            exact ⟨hj, fun hc => hd hc.1, rfl⟩
        obtain ⟨hacc', hloc'⟩ := h.slot d' j hold.1
        have hne : ((s.req d').list j).id ≠ q.id := by
          intro he
          rw [he, hloc] at hloc'
          cases hloc'
          exact hold.2.1 ⟨rfl, rfl⟩
        rw [hold.2.2]
        exact ⟨hacc', (Function.update_of_ne hne _ _).trans hloc'⟩
      at_loc := by
        intro q' hq'
        by_cases hqq : q' = q
        · subst hqq
          show RndMem.At _ q' (Function.update s.hist.loc q'.id .done q'.id)
          rw [Function.update_self]
          exact hnext.trans (congrArg List.range hlast.symm)
        · have hne : q'.id ≠ q.id := fun he => hqq (h.hist.eq_of_id hq' hacc he)
          show RndMem.At _ q' (Function.update s.hist.loc q.id .done q'.id)
          rw [Function.update_of_ne hne]
          exact hother _ q' hq' hqq rfl
      hist := (h.hist.xfer hacc _).move _ _ }
  · rw [if_neg hlast]
    have hadvance : (s.req d).advance s.prevReqIdx = { s.req d with
        qwIdx := (s.req d).qwIdx + 1, bHold := true } := if_neg (by rw [hq]; exact hlast)
    exact { h with
      side := hside
      slot := by
        intro d' j hj
        dsimp only at hj ⊢
        by_cases hd : d' = d
        · subst hd
          rw [Function.update_self, hadvance] at hj ⊢
          exact h.slot d' j hj
        · rw [Function.update_of_ne hd] at hj ⊢
          exact h.slot d' j hj
      at_loc := by
        intro q' hq'
        by_cases hqq : q' = q
        · subst hqq
          show RndMem.At _ q' (s.hist.loc q'.id)
          rw [hloc]
          unfold RndMem.At
          dsimp only
          rw [Function.update_self, hadvance]
          exact ⟨hv, hq, hnext.trans (congrArg List.range (if_pos rfl).symm)⟩
        · exact hother _ q' hq' hqq rfl
      hist := h.hist.xfer hacc _ }

theorem serveRd (h : RndInv s) : RndInv (s.serveRd cfg i) := by
  unfold RndMem.serveRd
  dsimp only
  split
  · rename_i hc
    simp only [Bool.and_eq_true] at hc
    exact h.transfer .rd hc.2 _ _
  · exact h

theorem serveWr (h : RndInv s) : RndInv (s.serveWr cfg i) := by
  unfold RndMem.serveWr
  dsimp only
  split
  · rename_i hc
    simp only [Bool.and_eq_true] at hc
    exact h.transfer .wr hc.2 _ _
  · exact h

/-- **A clock without reset.** -/
theorem clk (h : RndInv s) (hreset : i.reset = false) (he : s.clk cfg i = .ok s') : RndInv s' := by
  unfold RndMem.clk at he
  simp only [bind_ok] at he
  obtain ⟨s₁, htake, he⟩ := he
  rw [hreset] at he
  cases he
  have h₁ : RndInv s₁ := takeIn (s := { s with rsp := ⟨none, none⟩ }) { h with } htake
  exact h₁.insert.chooseIdx.serveRd.serveWr

end RndInv

end OpenHT.Sysc
