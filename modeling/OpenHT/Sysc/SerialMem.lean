import OpenHT.Lib.Refine
import OpenHT.Sysc.MemReq

/-!
# A memory that serves queues of requests

What the two memory models of `CSyscMemLib` are for: requests wait in queues, and one quadword of the first request of
some queue is transferred at a time. Which requests share a queue is up to the model.

* `MemEvent`: what is seen at the ports.
* `Discipline`: the queues.
* `SerialMem.Next`: a request is accepted, or a quadword is transferred.
* `SerialMem.Ok`, `Ok.next`: the order of the transfers.
* `SerialMem.in_order`: the transfers of a queue are those of its requests one after the other.
* `SerialMem.replay_eq`: a byte of memory is what the last transfer stored there.
-/

namespace OpenHT.Sysc

open Refine

/-- What is seen at port `p`: an accepted request, or a response. -/
inductive MemEvent (P : Type)
  | accept (p : P) (q : MemRdWrReqTime)
  | rdRsp (p : P) (tid data : ℕ)
  | wrRsp (p : P) (tid : ℕ)

/-- The responses of a call at port `p`. -/
def MemRsp.events {P : Type} (rsp : MemRsp) (p : P) : List (MemEvent P) :=
  rsp.rdRsp.toList.map (fun x => .rdRsp p x.1 x.2) ++ rsp.wrRspTid.toList.map (.wrRsp p)

/-- The queue that a request from a port waits in, the port of a queue, and the quadword that `MEM_REQ_SET_BIT_63` sets
the bit of. -/
structure Discipline (P K : Type) where
  place : P → MemRdWrReqTime → K
  port : K → P
  bit63Qw : ℕ → ℕ

/-- What the transfer of a quadword does to memory. -/
def MemRdWrReqTime.apply (cfg : MemCfg) (bit63Qw : ℕ → ℕ) (q : MemRdWrReqTime) (mem : Mem ℕ) (qw : ℕ) : Mem ℕ :=
  match q.req.type with
  | .rd => mem
  | .wr => writeQw cfg mem q.req qw (q.data qw)
  | .setBit63 => setBit63 cfg mem q.req (bit63Qw qw)

/-- What is seen of it. A write is answered with its first quadword. -/
def MemRdWrReqTime.events {P : Type} (cfg : MemCfg) (p : P) (q : MemRdWrReqTime) (mem : Mem ℕ) (qw : ℕ) :
    List (MemEvent P) :=
  match q.req.type.dir with
  | .rd => [.rdRsp p (q.req.rspTid qw) (readQw cfg mem q.req qw)]
  | .wr => if qw = 0 then [.wrRsp p (q.req.rspTid qw)] else []

section Transfer

variable {cfg : MemCfg} {bit63Qw : ℕ → ℕ} {q : MemRdWrReqTime}

theorem MemRdWrReqTime.apply_wr (h : q.req.type.dir = .wr) (mem : Mem ℕ) (qw : ℕ) :
    q.apply cfg bit63Qw mem qw = writeQw cfg mem q.req qw (q.data qw) := by
  unfold MemRdWrReqTime.apply
  cases htype : q.req.type with
  | wr => rfl
  | rd =>
    rw [htype] at h
    cases h
  | setBit63 =>
    rw [htype] at h
    cases h

theorem MemRdWrReqTime.apply_rd (h : q.req.type.dir = .rd) (mem : Mem ℕ) (qw : ℕ) : q.apply cfg bit63Qw mem qw =
    if q.req.type = .setBit63 then Sysc.setBit63 cfg mem q.req (bit63Qw qw) else mem := by
  unfold MemRdWrReqTime.apply
  cases htype : q.req.type with
  | wr =>
    rw [htype] at h
    cases h
  | rd => rfl
  | setBit63 => rfl

end Transfer

/-- The first `n` transfers of a request. -/
def MemRdWrReqTime.firstQws (q : MemRdWrReqTime) (n : ℕ) : List (MemRdWrReqTime × ℕ) := (List.range n).map fun i => (q, i)

structure SerialMem (K : Type) where
  /-- The accepted requests with their queues. -/
  accepted : List (K × MemRdWrReqTime)
  que : K → List MemRdWrReqTime
  /-- How many quadwords of the first request of a queue were transferred. -/
  part : K → ℕ
  /-- The transfers. -/
  log : List (K × MemRdWrReqTime × ℕ)
  mem : Mem ℕ

namespace SerialMem

variable {P K : Type} [DecidableEq K]

def start (mem : Mem ℕ) : SerialMem K := ⟨[], fun _ => [], fun _ => 0, [], mem⟩

def push (s : SerialMem K) (k : K) (q : MemRdWrReqTime) : SerialMem K :=
  { s with accepted := s.accepted ++ [(k, q)], que := Function.update s.que k (s.que k ++ [q]) }

/-- The next quadword of the first request `q` of queue `k`. The request leaves with its last one. -/
def serve (cfg : MemCfg) (bit63Qw : ℕ → ℕ) (s : SerialMem K) (k : K) (q : MemRdWrReqTime)
    (rest : List MemRdWrReqTime) : SerialMem K :=
  let s := { s with log := s.log ++ [(k, q, s.part k)], mem := q.apply cfg bit63Qw s.mem (s.part k) }
  if s.part k + 1 = q.reqQwCnt then
    { s with que := Function.update s.que k rest, part := Function.update s.part k 0 }
  else { s with part := Function.update s.part k (s.part k + 1) }

/-- **The steps.** The ids of accepted requests are their own, and a request has at least one quadword. -/
inductive Next (cfg : MemCfg) (D : Discipline P K) : SerialMem K → List (MemEvent P) → SerialMem K → Prop
  | accept (s : SerialMem K) (p : P) (q : MemRdWrReqTime) (hnew : ∀ x ∈ s.accepted, x.2.id ≠ q.id)
      (hcnt : 1 ≤ q.reqQwCnt) : Next cfg D s [.accept p q] (s.push (D.place p q) q)
  | serve (s : SerialMem K) (k : K) (q : MemRdWrReqTime) (rest : List MemRdWrReqTime) (hq : s.que k = q :: rest) :
      Next cfg D s (q.events cfg (D.port k) s.mem (s.part k)) (s.serve cfg D.bit63Qw k q rest)

/-! ## Order -/

/-- The requests of a queue, in order of acceptance. -/
def queued (s : SerialMem K) (k : K) : List MemRdWrReqTime := (s.accepted.filter fun x => x.1 = k).map Prod.snd

/-- The transfers from a queue. -/
def logOf (s : SerialMem K) (k : K) : List (MemRdWrReqTime × ℕ) := (s.log.filter fun x => x.1 = k).map Prod.snd

/-- The memory after some transfers. -/
def replay (cfg : MemCfg) (bit63Qw : ℕ → ℕ) (mem : Mem ℕ) (log : List (K × MemRdWrReqTime × ℕ)) : Mem ℕ :=
  log.foldl (fun m x => x.2.1.apply cfg bit63Qw m x.2.2) mem

/-- The requests of a queue are those that are served, all their quadwords in order, and those that wait, the first one
partly served. -/
structure InOrder (s : SerialMem K) (k : K) (served : List MemRdWrReqTime) : Prop where
  queued : s.queued k = served ++ s.que k
  log : s.logOf k = served.flatMap (fun q => q.firstQws q.reqQwCnt) ++
    (s.que k).head?.toList.flatMap fun q => q.firstQws (s.part k)
  lt : ∀ q ∈ (s.que k).head?, s.part k < q.reqQwCnt
  none : s.que k = [] → s.part k = 0

structure Ok (cfg : MemCfg) (bit63Qw : ℕ → ℕ) (mem : Mem ℕ) (s : SerialMem K) : Prop where
  nodup : (s.accepted.map fun x => x.2.id).Nodup
  cnt : ∀ x ∈ s.accepted, 1 ≤ x.2.reqQwCnt
  order : ∀ k, ∃ served, s.InOrder k served
  mem : s.mem = replay cfg bit63Qw mem s.log

section Lemmas

variable {cfg : MemCfg} {D : Discipline P K} {bit63Qw : ℕ → ℕ} {mem : Mem ℕ} {s s' : SerialMem K} {k k' : K}
  {q : MemRdWrReqTime} {rest served : List MemRdWrReqTime}

theorem firstQws_succ (q : MemRdWrReqTime) (n : ℕ) : q.firstQws (n + 1) = q.firstQws n ++ [(q, n)] := by
  simp [MemRdWrReqTime.firstQws, List.range_succ]

theorem firstQws_prefix (q : MemRdWrReqTime) {n m : ℕ} (h : n ≤ m) : q.firstQws n <+: q.firstQws m := by
  obtain ⟨d, rfl⟩ := Nat.exists_eq_add_of_le h
  induction d with
  | zero => exact List.prefix_rfl
  | succ d ih =>
    have hstep : q.firstQws (n + (d + 1)) = q.firstQws (n + d) ++ [(q, n + d)] := firstQws_succ q (n + d)
    rw [hstep]
    exact (ih (Nat.le_add_right n d)).trans (List.prefix_append _ _)

theorem queued_push (s : SerialMem K) (k k' : K) (q : MemRdWrReqTime) :
    (s.push k q).queued k' = s.queued k' ++ if k = k' then [q] else [] := by
  unfold queued push
  by_cases hk : k = k'
  · simp [hk]
  · simp [hk]

/-- Apart from the queues. -/
theorem serve_rest (cfg : MemCfg) (bit63Qw : ℕ → ℕ) (s : SerialMem K) (k : K) (q : MemRdWrReqTime)
    (rest : List MemRdWrReqTime) : (s.serve cfg bit63Qw k q rest).accepted = s.accepted ∧
      (s.serve cfg bit63Qw k q rest).mem = q.apply cfg bit63Qw s.mem (s.part k) ∧
      (s.serve cfg bit63Qw k q rest).log = s.log ++ [(k, q, s.part k)] := by
  unfold serve
  dsimp only
  split
  · exact ⟨rfl, rfl, rfl⟩
  · exact ⟨rfl, rfl, rfl⟩

theorem logOf_serve (k' : K) : (s.serve cfg bit63Qw k q rest).logOf k' =
    s.logOf k' ++ if k = k' then [(q, s.part k)] else [] := by
  unfold logOf
  rw [(serve_rest cfg bit63Qw s k q rest).2.2]
  by_cases hk : k = k'
  · simp [hk]
  · simp [hk]

theorem InOrder.push (h : s.InOrder k' served) (hcnt : 1 ≤ q.reqQwCnt) : (s.push k q).InOrder k' served := by
  by_cases hk : k = k'
  · subst hk
    have hque : (s.push k q).que k = s.que k ++ [q] := Function.update_self _ _ _
    refine ⟨?_, ?_, ?_, ?_⟩
    · rw [queued_push, if_pos rfl, h.queued, hque, List.append_assoc]
    · rw [hque]
      have hlog : (s.push k q).logOf k = s.logOf k := rfl
      rw [hlog, h.log]
      cases hs : s.que k with
      | nil =>
        -- the new request is the first one, and nothing of it is transferred
        have hpart : (s.push k q).part k = 0 := h.none hs
        simp [hpart, MemRdWrReqTime.firstQws]
      | cons x l => rfl
    · intro x hx
      rw [hque] at hx
      cases hs : s.que k with
      | nil =>
        rw [hs] at hx
        obtain rfl : q = x := Option.some.inj hx
        have hpart : (s.push k q).part k = 0 := h.none hs
        rw [hpart]
        exact hcnt
      | cons y l =>
        rw [hs] at hx
        exact h.lt x (by rw [hs]; exact hx)
    · intro hnil
      rw [hque] at hnil
      exact absurd hnil (List.append_ne_nil_of_right_ne_nil _ (List.cons_ne_nil _ _))
  · have hque : (s.push k q).que k' = s.que k' := Function.update_of_ne (Ne.symm hk) _ _
    refine ⟨?_, ?_, ?_, ?_⟩
    · rw [queued_push, if_neg hk, hque, List.append_nil, h.queued]
    · rw [hque]
      exact h.log
    · rw [hque]
      exact h.lt
    · rw [hque]
      exact h.none

theorem InOrder.serve_other (h : s.InOrder k' served) (hk : k ≠ k') :
    (s.serve cfg bit63Qw k q rest).InOrder k' served := by
  have hlog : (s.serve cfg bit63Qw k q rest).logOf k' =
      s.logOf k' ++ if k = k' then [(q, s.part k)] else [] := logOf_serve k'
  rw [if_neg hk, List.append_nil] at hlog
  have hparts : (s.serve cfg bit63Qw k q rest).que k' = s.que k' ∧
      (s.serve cfg bit63Qw k q rest).part k' = s.part k' := by
    unfold serve
    dsimp only
    split
    · exact ⟨Function.update_of_ne (Ne.symm hk) _ _, Function.update_of_ne (Ne.symm hk) _ _⟩
    · exact ⟨rfl, Function.update_of_ne (Ne.symm hk) _ _⟩
  obtain ⟨hque, hpart⟩ := hparts
  have hacc := (serve_rest cfg bit63Qw s k q rest).1
  refine ⟨?_, ?_, ?_, ?_⟩
  · rw [hque, ← h.queued]
    unfold SerialMem.queued
    rw [hacc]
  · rw [hlog, hque, hpart]
    exact h.log
  · rw [hque, hpart]
    exact h.lt
  · rw [hque, hpart]
    exact h.none

/-- The next quadword of the first request. -/
theorem InOrder.serve_self (h : s.InOrder k served) (hq : s.que k = q :: rest)
    (hcnt : ∀ x ∈ rest.head?, 1 ≤ x.reqQwCnt) : ∃ served', (s.serve cfg bit63Qw k q rest).InOrder k served' := by
  have hlog : (s.serve cfg bit63Qw k q rest).logOf k =
      s.logOf k ++ if k = k then [(q, s.part k)] else [] := logOf_serve k
  rw [if_pos rfl, h.log, hq] at hlog
  have hqueued : (s.serve cfg bit63Qw k q rest).queued k = served ++ q :: rest := by
    rw [← hq, ← h.queued]
    unfold SerialMem.queued
    rw [(serve_rest cfg bit63Qw s k q rest).1]
  have hlt := h.lt q (by rw [hq]; rfl)
  by_cases hlast : s.part k + 1 = q.reqQwCnt
  · -- the request is served
    have hque : (s.serve cfg bit63Qw k q rest).que k = rest ∧ (s.serve cfg bit63Qw k q rest).part k = 0 := by
      unfold serve
      dsimp only
      rw [if_pos hlast]
      exact ⟨Function.update_self _ _ _, Function.update_self _ _ _⟩
    obtain ⟨hque, hpart⟩ := hque
    refine ⟨served ++ [q], ?_, ?_, ?_, ?_⟩
    · rw [hqueued, hque, List.append_assoc]
      rfl
    · have hzero : rest.head?.toList.flatMap (fun q => q.firstQws 0) = [] := by
        simp [MemRdWrReqTime.firstQws]
      rw [hlog, hque, hpart, hzero]
      simp [← hlast, firstQws_succ]
    · intro x hx
      rw [hque] at hx
      rw [hpart]
      exact hcnt x hx
    · intro _
      exact hpart
  · have hque : (s.serve cfg bit63Qw k q rest).que k = q :: rest ∧
        (s.serve cfg bit63Qw k q rest).part k = s.part k + 1 := by
      unfold serve
      dsimp only
      rw [if_neg hlast]
      exact ⟨hq, Function.update_self _ _ _⟩
    obtain ⟨hque, hpart⟩ := hque
    refine ⟨served, ?_, ?_, ?_, ?_⟩
    · rw [hqueued, hque]
    · rw [hlog, hque, hpart]
      simp [firstQws_succ]
    · intro x hx
      rw [hque] at hx
      obtain rfl : q = x := Option.some.inj hx
      rw [hpart]
      omega
    · intro hnil
      rw [hque] at hnil
      cases hnil

theorem mem_accepted (h : s.InOrder k served) (hq : q ∈ served ∨ q ∈ s.que k) : (k, q) ∈ s.accepted := by
  have hmem : q ∈ s.queued k := by
    rw [h.queued]
    exact List.mem_append.2 hq
  obtain ⟨⟨k', q'⟩, hx, rfl⟩ := List.mem_map.1 hmem
  obtain ⟨hacc, hk⟩ := List.mem_filter.1 hx
  obtain rfl : k' = k := of_decide_eq_true hk
  exact hacc

/-- A step keeps the order. -/
theorem Ok.next {es : List (MemEvent P)} (h : s.Ok cfg D.bit63Qw mem) (hn : Next cfg D s es s') :
    s'.Ok cfg D.bit63Qw mem := by
  cases hn with
  | accept p q hnew hcnt =>
    refine ⟨?_, ?_, ?_, h.mem⟩
    · show ((s.accepted ++ [(D.place p q, q)]).map fun x => x.2.id).Nodup
      rw [List.map_append, List.nodup_append]
      refine ⟨h.nodup, List.nodup_singleton _, ?_⟩
      intro a ha b hb
      obtain ⟨x, hx, rfl⟩ := List.mem_map.1 ha
      obtain rfl : b = q.id := by simpa using hb
      exact hnew x hx
    · intro x hx
      rcases List.mem_append.1 hx with hx | hx
      · exact h.cnt x hx
      · obtain rfl : x = (D.place p q, q) := by simpa using hx
        exact hcnt
    · intro k
      obtain ⟨served, ho⟩ := h.order k
      exact ⟨served, ho.push hcnt⟩
  | serve k q rest hq =>
    obtain ⟨hacc, hmem, hlog⟩ := serve_rest cfg D.bit63Qw s k q rest
    refine ⟨?_, ?_, ?_, ?_⟩
    · rw [hacc]
      exact h.nodup
    · rw [hacc]
      exact h.cnt
    · intro k'
      obtain ⟨served, ho⟩ := h.order k'
      by_cases hk : k = k'
      · subst hk
        apply ho.serve_self hq
        intro x hx
        have hxq : x ∈ s.que k := by
          rw [hq]
          exact List.mem_cons_of_mem _ (List.mem_of_head? hx)
        exact h.cnt _ (mem_accepted ho (.inr hxq))
      · exact ⟨served, ho.serve_other hk⟩
    · rw [hmem, hlog, h.mem]
      unfold replay
      rw [List.foldl_append]
      rfl

theorem Ok.start (mem : Mem ℕ) : (start mem : SerialMem K).Ok cfg bit63Qw mem := by
  refine ⟨List.nodup_nil, ?_, ?_, rfl⟩
  · intro x hx
    cases hx
  · intro k
    refine ⟨[], rfl, rfl, ?_, fun _ => rfl⟩
    intro x hx
    cases hx

theorem Ok.runs {es : List (MemEvent P)} (h : Runs (Next cfg D) (.start mem) es s) : s.Ok cfg D.bit63Qw mem :=
  h.invariant (Ok.start mem) fun _ _ _ ho hn => ho.next hn

/-- **Order.** The transfers from a queue are those of its requests, one request after the other. -/
theorem Ok.in_order (h : s.Ok cfg bit63Qw mem) (k : K) :
    s.logOf k <+: (s.queued k).flatMap fun q => q.firstQws q.reqQwCnt := by
  obtain ⟨served, ho⟩ := h.order k
  rw [ho.log, ho.queued, List.flatMap_append]
  apply List.prefix_append_right_inj _ |>.2
  cases hs : s.que k with
  | nil => exact List.prefix_rfl
  | cons q l =>
    have hlt := ho.lt q (by rw [hs]; rfl)
    have hhead : (q :: l).head?.toList.flatMap (fun q => q.firstQws (s.part k)) = q.firstQws (s.part k) := by simp
    rw [hhead, List.flatMap_cons]
    exact ( firstQws_prefix q (Nat.le_of_lt hlt)).trans (List.prefix_append _ _)

/-! ## What is stored -/

/-- The bytes of `l` from address `base` on. -/
def bytesAt (base : ℕ) (l : List ℕ) (a : ℕ) : Option ℕ := if base ≤ a then l[a - base]? else none

/-- The byte that the transfer of a quadword stores at `a`. -/
def written (cfg : MemCfg) (bit63Qw : ℕ → ℕ) (q : MemRdWrReqTime) (qw a : ℕ) : Option ℕ :=
  match q.req.type with
  | .rd => none
  | .wr => bytesAt ((q.req.addr ^^^ cfg.coprocAddrMangle) + 8 * qw) (Bytes.leBytes q.req.size.bytes (q.data qw)) a
  | .setBit63 => bytesAt ((q.req.addr ^^^ cfg.coprocAddrMangle) + 8 * bit63Qw qw) (Bytes.leBytes 8 0x8000000000000000) a

theorem write_eq (m : Mem ℕ) (base : ℕ) (l : List ℕ) (a : ℕ) : m.write base l a = (bytesAt base l a).getD (m a) := by
  unfold Mem.write bytesAt
  split
  · rfl
  · rfl

theorem apply_eq (cfg : MemCfg) (bit63Qw : ℕ → ℕ) (q : MemRdWrReqTime) (m : Mem ℕ) (qw a : ℕ) :
    q.apply cfg bit63Qw m qw a = (written cfg bit63Qw q qw a).getD (m a) := by
  unfold MemRdWrReqTime.apply written
  cases q.req.type with
  | rd => rfl
  | wr => exact write_eq _ _ _ _
  | setBit63 => exact write_eq _ _ _ _

omit [DecidableEq K] in
/-- **A byte of memory is what the last transfer stored there.** -/
theorem replay_eq (cfg : MemCfg) (bit63Qw : ℕ → ℕ) (mem : Mem ℕ) (log : List (K × MemRdWrReqTime × ℕ)) (a : ℕ) :
    replay cfg bit63Qw mem log a =
      (log.reverse.findSome? fun x => written cfg bit63Qw x.2.1 x.2.2 a).getD (mem a) := by
  induction log using List.reverseRecOn with
  | nil => rfl
  | append_singleton log x ih =>
    have hlast : replay cfg bit63Qw mem (log ++ [x]) = x.2.1.apply cfg bit63Qw (replay cfg bit63Qw mem log) x.2.2 := by
      unfold replay
      rw [List.foldl_append]
      rfl
    rw [hlast, apply_eq, List.reverse_append, List.reverse_singleton, List.singleton_append, List.findSome?_cons, ih]
    cases written cfg bit63Qw x.2.1 x.2.2 a with
    | none => rfl
    | some v => rfl

/-- A transfer is one of an accepted request of the queue. -/
theorem Ok.accepted_of_log (h : s.Ok cfg bit63Qw mem) {x : K × MemRdWrReqTime × ℕ} (hx : x ∈ s.log) :
    (x.1, x.2.1) ∈ s.accepted := by
  have hlog : x.2 ∈ s.logOf x.1 := List.mem_map.2 ⟨x, List.mem_filter.2 ⟨hx, decide_eq_true rfl⟩, rfl⟩
  have hmem := (h.in_order x.1).subset hlog
  obtain ⟨q, hq, hqw⟩ := List.mem_flatMap.1 hmem
  obtain ⟨i, -, hi⟩ := List.mem_map.1 hqw
  obtain rfl : q = x.2.1 := congrArg Prod.fst hi
  obtain ⟨⟨k', q'⟩, hacc, rfl⟩ := List.mem_map.1 hq
  obtain ⟨hacc, hk⟩ := List.mem_filter.1 hacc
  obtain rfl : k' = x.1 := of_decide_eq_true hk
  exact hacc

/-- The queue of a request, from its id. -/
theorem Ok.eq_of_id (h : s.Ok cfg bit63Qw mem) {x y : K × MemRdWrReqTime} (hx : x ∈ s.accepted) (hy : y ∈ s.accepted)
    (hid : x.2.id = y.2.id) : x = y := List.inj_on_of_nodup_map h.nodup hx hy hid

/-- The transfers by the id of their request. -/
def xfers (s : SerialMem K) : List (ℕ × ℕ) := s.log.map fun x => (x.2.1.id, x.2.2)

theorem xfers_serve (cfg : MemCfg) (bit63Qw : ℕ → ℕ) (s : SerialMem K) (k : K) (q : MemRdWrReqTime)
    (rest : List MemRdWrReqTime) : (s.serve cfg bit63Qw k q rest).xfers = s.xfers ++ [(q.id, s.part k)] := by
  unfold xfers
  rw [(serve_rest cfg bit63Qw s k q rest).2.2, List.map_append]
  rfl

theorem Ok.xfers_filter (h : s.Ok cfg bit63Qw mem) (k : K) :
    s.xfers.filter (fun x => x.1 ∈ (s.queued k).map MemRdWrReqTime.id) = (s.logOf k).map fun x => (x.1.id, x.2) := by
  unfold xfers logOf
  rw [List.filter_map, List.map_map]
  have hfilter : s.log.filter ((fun x => decide (x.1 ∈ (s.queued k).map MemRdWrReqTime.id)) ∘
      fun x => (x.2.1.id, x.2.2)) = s.log.filter fun x => x.1 = k := by
    apply List.filter_congr
    intro x hx
    apply decide_eq_decide.2
    have hacc := h.accepted_of_log hx
    constructor
    · intro hid
      obtain ⟨q, hq, hqid⟩ := List.mem_map.1 hid
      obtain ⟨⟨k', q'⟩, hin, rfl⟩ := List.mem_map.1 hq
      obtain ⟨hacc', hk⟩ := List.mem_filter.1 hin
      obtain rfl : k' = k := of_decide_eq_true hk
      exact (congrArg Prod.fst (h.eq_of_id hacc' hacc hqid)).symm
    · intro hk
      refine List.mem_map.2 ⟨x.2.1, List.mem_map.2 ⟨(x.1, x.2.1), ?_, rfl⟩, rfl⟩
      exact List.mem_filter.2 ⟨hacc, decide_eq_true hk⟩
  rw [hfilter]
  rfl

/-- The transfers of a request that waits at the front of a queue. -/
theorem Ok.parts_front (h : s.Ok cfg bit63Qw mem) (hq : s.que k = q :: rest) :
    Ledger.parts s.xfers q.id = List.range (s.part k) := by
  obtain ⟨served, ho⟩ := h.order k
  have hacc := mem_accepted ho (.inr (by rw [hq]; exact List.mem_cons_self))
  have hkept : s.xfers.filter (fun x => x.1 = q.id) =
      (s.xfers.filter fun x => x.1 ∈ (s.queued k).map MemRdWrReqTime.id).filter fun x => x.1 = q.id := by
    rw [List.filter_filter]
    apply List.filter_congr
    intro x _
    by_cases hx : x.1 = q.id
    · have hmem : q.id ∈ (s.queued k).map MemRdWrReqTime.id :=
        List.mem_map.2 ⟨q, List.mem_map.2 ⟨(k, q), List.mem_filter.2 ⟨hacc, decide_eq_true rfl⟩, rfl⟩, rfl⟩
      simp only [hx, decide_true, Bool.true_and, decide_eq_true hmem]
    · simp only [hx, decide_false, Bool.false_and]
  have hserved : ∀ q' ∈ served, q'.id ≠ q.id := by
    have hsub : ((s.queued k).map MemRdWrReqTime.id).Nodup := by
      unfold queued
      rw [List.map_map]
      exact h.nodup.sublist (List.filter_sublist.map _)
    rw [ho.queued, hq, List.map_append, List.nodup_append] at hsub
    intro q' hq'
    exact hsub.2.2 _ (List.mem_map_of_mem hq') _ (List.mem_map_of_mem List.mem_cons_self)
  unfold Ledger.parts
  rw [hkept, h.xfers_filter k, ho.log, hq]
  have hnone : ((served.flatMap fun q => q.firstQws q.reqQwCnt).map fun x => (x.1.id, x.2)).filter
      (fun x => x.1 = q.id) = [] := by
    rw [List.filter_eq_nil_iff]
    intro x hx hid
    obtain ⟨y, hy, rfl⟩ := List.mem_map.1 hx
    obtain ⟨q', hq', hy⟩ := List.mem_flatMap.1 hy
    obtain ⟨i, -, rfl⟩ := List.mem_map.1 hy
    exact hserved q' hq' (of_decide_eq_true hid)
  rw [List.map_append, List.filter_append, hnone]
  simp [MemRdWrReqTime.firstQws, Function.comp_def, List.filter_map]

end Lemmas

/-- The first transfer of a run, and what is seen of it. -/
theorem first_serve {cfg : MemCfg} {D : Discipline P K} {t t' : SerialMem K} {es : List (MemEvent P)}
    (h : Runs (Next cfg D) t es t') : (t'.log = t.log ∧ t'.mem = t.mem) ∨
      ∃ t₁ k q rest es₁ es₂, Runs (Next cfg D) t es₁ t₁ ∧ t₁.log = t.log ∧ t₁.mem = t.mem ∧ t₁.que k = q :: rest ∧
        es = es₁ ++ q.events cfg (D.port k) t₁.mem (t₁.part k) ++ es₂ ∧ t₁.accepted <+: t'.accepted ∧
        t₁.log ++ [(k, q, t₁.part k)] <+: t'.log := by
  induction h with
  | init => exact .inl ⟨rfl, rfl⟩
  | @next es l s s' hr hn ih =>
    cases hn with
    | accept p q hnew hcnt =>
      rcases ih with hsame | ⟨t₁, k, q', rest, es₁, es₂, h₁, hlog, hmem, hque, hes, hacc, hpre⟩
      · exact .inl hsame
      · exact .inr ⟨t₁, k, q', rest, es₁, es₂ ++ [.accept p q], h₁, hlog, hmem, hque,
          by rw [hes, List.append_assoc], hacc.trans (List.prefix_append _ _), hpre⟩
    | serve k q rest hq =>
      obtain ⟨hacc', -, hlog'⟩ := serve_rest cfg D.bit63Qw s k q rest
      rw [hacc', hlog']
      rcases ih with hsame | ⟨t₁, k', q', rest', es₁, es₂, h₁, hlog, hmem, hque, hes, hacc, hpre⟩
      · exact .inr ⟨s, k, q, rest, es, [], hr, hsame.1, hsame.2, hq, by rw [List.append_nil], List.prefix_rfl,
          List.prefix_rfl⟩
      · exact .inr ⟨t₁, k', q', rest', es₁, es₂ ++ _, h₁, hlog, hmem, hque, by rw [hes, List.append_assoc], hacc,
          hpre.trans (List.prefix_append _ _)⟩

theorem accepted_prefix {cfg : MemCfg} {D : Discipline P K} {t t' : SerialMem K} {es : List (MemEvent P)}
    (h : Runs (Next cfg D) t es t') : t.accepted <+: t'.accepted := by
  induction h with
  | init => exact List.prefix_rfl
  | next _ hn ih =>
    cases hn with
    | accept p q hnew hcnt => exact ih.trans (List.prefix_append _ _)
    | serve k q rest hq =>
      rw [(serve_rest cfg D.bit63Qw _ k q rest).1]
      exact ih

/-- The accepted requests that are seen, with their queues. -/
def seen (D : Discipline P K) : List (MemEvent P) → List (K × MemRdWrReqTime)
  | [] => []
  | .accept p q :: es => (D.place p q, q) :: seen D es
  | _ :: es => seen D es

omit [DecidableEq K] in
theorem seen_append (D : Discipline P K) (es es' : List (MemEvent P)) : seen D (es ++ es') = seen D es ++ seen D es' := by
  induction es with
  | nil => rfl
  | cons e es ih =>
    cases e with
    | accept p q => exact congrArg (List.cons _) ih
    | rdRsp p tid data => exact ih
    | wrRsp p tid => exact ih

omit [DecidableEq K] in
theorem seen_events (cfg : MemCfg) (D : Discipline P K) (p : P) (q : MemRdWrReqTime) (mem : Mem ℕ) (qw : ℕ) :
    seen D (q.events cfg p mem qw) = [] := by
  unfold MemRdWrReqTime.events
  split
  · rfl
  · split
    · rfl
    · rfl

theorem accepted_eq_seen {cfg : MemCfg} {D : Discipline P K} {mem : Mem ℕ} {s : SerialMem K} {es : List (MemEvent P)}
    (h : Runs (Next cfg D) (.start mem) es s) : s.accepted = seen D es := by
  induction h with
  | init => rfl
  | next _ hn ih =>
    rw [seen_append, ← ih]
    cases hn with
    | accept p q hnew hcnt => rfl
    | serve k q rest hq =>
      rw [seen_events, List.append_nil]
      exact (serve_rest cfg D.bit63Qw _ k q rest).1

end SerialMem

end OpenHT.Sysc
