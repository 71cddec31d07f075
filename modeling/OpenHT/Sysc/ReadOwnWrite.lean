import OpenHT.Sysc.BankSerial

/-!
# A port of the bank model reads what it wrote

A read that comes after a write of the same quadword at the same port is in the same queue, so it is served after it.

* `findSome_unique`: the only value that is found.
* `serial_reads_own_write`: the read of a serial memory.
* `bank_mem_reads_own_write`: the response of the bank model.
-/

namespace OpenHT.Sysc

open Refine

theorem findSome_unique {α β : Type} {f : α → Option β} {l : List α} {v : β} (hex : ∃ x ∈ l, f x = some v)
    (hall : ∀ x ∈ l, f x = none ∨ f x = some v) : l.findSome? f = some v := by
  induction l with
  | nil =>
    obtain ⟨x, hx, -⟩ := hex
    cases hx
  | cons a l ih =>
    rw [List.findSome?_cons]
    rcases hall a List.mem_cons_self with ha | ha
    · rw [ha]
      refine ih ?_ fun x hx => hall x (List.mem_cons_of_mem a hx)
      obtain ⟨x, hx, hv⟩ := hex
      rcases List.mem_cons.1 hx with rfl | hx
      · rw [ha] at hv
        cases hv
      · exact ⟨x, hx, hv⟩
    · rw [ha]

/-- A write of one quadword. -/
structure IsWrite (q : MemRdWrReqTime) : Prop where
  type : q.req.type = .wr
  size : q.req.size = .u64
  cnt : q.reqQwCnt = 1

/-- A read of one quadword. -/
structure IsRead (q : MemRdWrReqTime) : Prop where
  type : q.req.type = .rd
  size : q.req.size = .u64

/-- Only `w` stores into its quadword. -/
def Alone (cfg : MemCfg) (bit63Qw : ℕ → ℕ) (accepted : List MemRdWrReqTime) (w : MemRdWrReqTime) : Prop :=
  ∀ q ∈ accepted, q.id ≠ w.id → ∀ qw, ∀ i < 8,
    SerialMem.written cfg bit63Qw q qw ((w.req.addr ^^^ cfg.coprocAddrMangle) + i) = none

section Serial

variable {K : Type} [DecidableEq K] {cfg : MemCfg} {bit63Qw : ℕ → ℕ} {mem : Mem ℕ} {t : SerialMem K} {k : K}
  {w r : MemRdWrReqTime} {rest l₁ l₂ l₃ : List MemRdWrReqTime}

/-- Before the read, the write is served. -/
theorem write_served (h : t.Ok cfg bit63Qw mem) (hque : t.que k = r :: rest)
    (hqueued : t.queued k = l₁ ++ w :: l₂ ++ r :: l₃) (hcnt : w.reqQwCnt = 1) : (k, w, 0) ∈ t.log := by
  obtain ⟨served, ho⟩ := h.order k
  have hnodup : ((t.queued k).map MemRdWrReqTime.id).Nodup := by
    unfold SerialMem.queued
    rw [List.map_map]
    exact h.nodup.sublist (List.filter_sublist.map _)
  have hsplit : served ++ r :: rest = (l₁ ++ w :: l₂) ++ r :: l₃ := by
    rw [← hque, ← ho.queued, hqueued]
  -- the read occurs once
  have honce : r ∉ served ∧ r ∉ rest := by
    rw [ho.queued, hque, List.map_append, List.map_cons, List.nodup_append, List.nodup_cons] at hnodup
    constructor
    · intro hr
      exact hnodup.2.2 _ (List.mem_map_of_mem hr) _ List.mem_cons_self rfl
    · intro hr
      exact hnodup.2.1.1 (List.mem_map_of_mem hr)
  have hserved : w ∈ served := by
    have heq := (List.append_cons_inj_of_notMem honce.1 honce.2).1 hsplit
    rw [heq.1]
    exact List.mem_append_right _ List.mem_cons_self
  have hlog : (w, 0) ∈ t.logOf k := by
    rw [ho.log]
    apply List.mem_append_left
    refine List.mem_flatMap.2 ⟨w, hserved, ?_⟩
    rw [hcnt]
    exact List.mem_singleton.2 rfl
  obtain ⟨⟨k', x⟩, hin, heq⟩ := List.mem_map.1 hlog
  obtain ⟨hx, hk⟩ := List.mem_filter.1 hin
  obtain rfl : k' = k := of_decide_eq_true hk
  obtain rfl : x = (w, 0) := heq
  exact hx

/-- A write of one quadword has one transfer. -/
theorem qw_eq_zero (h : t.Ok cfg bit63Qw mem) {x : K × MemRdWrReqTime × ℕ} (hx : x ∈ t.log)
    (hcnt : x.2.1.reqQwCnt = 1) : x.2.2 = 0 := by
  have hlog : x.2 ∈ t.logOf x.1 := List.mem_map.2 ⟨x, List.mem_filter.2 ⟨hx, decide_eq_true rfl⟩, rfl⟩
  obtain ⟨q, -, hq⟩ := List.mem_flatMap.1 ((h.in_order x.1).subset hlog)
  obtain ⟨i, hi, heq⟩ := List.mem_map.1 hq
  have hlt := List.mem_range.1 hi
  have hqx : q = x.2.1 := congrArg Prod.fst heq
  have hix : i = x.2.2 := congrArg Prod.snd heq
  rw [hqx, hcnt] at hlt
  omega

/-- **The memory holds what was written** when the read is next. -/
theorem serial_reads_own_write (h : t.Ok cfg bit63Qw mem) (hque : t.que k = r :: rest)
    (hqueued : t.queued k = l₁ ++ w :: l₂ ++ r :: l₃) (hw : IsWrite w) (hr : IsRead r) (haddr : r.req.addr = w.req.addr)
    (halone : Alone cfg bit63Qw (t.accepted.map Prod.snd) w) :
    readQw cfg t.mem r.req 0 = w.data 0 % 0x10000000000000000 := by
  obtain ⟨base, hbase⟩ : ∃ base, base = w.req.addr ^^^ cfg.coprocAddrMangle := ⟨_, rfl⟩
  have hin := write_served h hque hqueued hw.cnt
  have hacc := h.accepted_of_log hin
  have hbyte : ∀ i, i < 8 → some (t.mem (base + i)) = (Bytes.leBytes 8 (w.data 0))[i]? := by
    intro i hi
    have hwritten : SerialMem.written cfg bit63Qw w 0 (base + i) = (Bytes.leBytes 8 (w.data 0))[i]? := by
      unfold SerialMem.written SerialMem.bytesAt
      rw [hw.type, hw.size, hbase]
      simp [MemReqSize.bytes]
    obtain ⟨v, hv⟩ : ∃ v, (Bytes.leBytes 8 (w.data 0))[i]? = some v :=
      ⟨_, List.getElem?_eq_getElem (by rw [Bytes.length_leBytes]; exact hi)⟩
    rw [hv] at hwritten
    have hfound : (t.log.reverse.findSome? fun x => SerialMem.written cfg bit63Qw x.2.1 x.2.2 (base + i)) = some v := by
      apply findSome_unique
      · exact ⟨(k, w, 0), List.mem_reverse.2 hin, hwritten⟩
      · intro x hx
        have hx := List.mem_reverse.1 hx
        have hxacc := h.accepted_of_log hx
        by_cases hid : x.2.1.id = w.id
        · have heq : (x.1, x.2.1) = (k, w) := h.eq_of_id hxacc hacc hid
          have hxw : x.2.1 = w := congrArg Prod.snd heq
          rw [qw_eq_zero h hx (hxw ▸ hw.cnt), hxw]
          exact .inr hwritten
        · rw [hbase]
          exact .inl (halone _ (List.mem_map_of_mem hxacc) hid x.2.2 i hi)
    rw [h.mem, SerialMem.replay_eq, hfound, hv]
    rfl
  have hread : t.mem.read base 8 = Bytes.leBytes 8 (w.data 0) := by
    apply List.ext_getElem?
    intro i
    by_cases hi : i < 8
    · rw [← hbyte i hi, Mem.read, List.getElem?_map, List.getElem?_range hi]
      rfl
    · have hle := Nat.le_of_not_lt hi
      rw [List.getElem?_eq_none (by rw [Mem.length_read]; exact hle),
        List.getElem?_eq_none (by rw [Bytes.length_leBytes]; exact hle)]
  unfold readQw
  rw [hr.size, haddr, Nat.mul_zero, Nat.add_zero, ← hbase]
  exact (congrArg (Nat.ofDigits 256) hread).trans (Bytes.ofDigits_leBytes 8 (w.data 0))

end Serial

section Bank

variable {n : ℕ} {cfg : MemCfg} {mem : Mem ℕ} {s s' : BankMem n} {es es' : List (MemEvent (Fin n))} {p : Fin n} {k : ℕ}
  {w r : MemRdWrReqTime} {l₁ l₂ l₃ : List MemRdWrReqTime}

/-- **Read your own write.** If a port had a write of a quadword accepted and then a read of it, and no other request
stores into the quadword, the call that serves the read returns the data of the write to the port. -/
theorem bank_mem_reads_own_write (h : Runs (BankMem.Next cfg) (.construct mem) es s)
    (haccepted : acceptedAt es p k = l₁ ++ w :: l₂ ++ r :: l₃) (hw : IsWrite w) (hr : IsRead r)
    (haddr : r.req.addr = w.req.addr) (hcall : BankMem.Next cfg s es' s')
    (halone : Alone cfg id s'.hist.accepted w) (hserved : s'.hist.xfers = s.hist.xfers ++ [(r.id, 0)]) :
    MemEvent.rdRsp p (r.req.rspTid 0) (w.data 0 % 0x10000000000000000) ∈ es' := by
  obtain ⟨t, ht, hs⟩ := bank_serves h
  obtain ⟨t', ht', hs'⟩ := call_forward cfg mem s t es' s' hs hcall
  rw [← hs'.xfers, ← hs.xfers] at hserved
  rcases SerialMem.first_serve ht' with hsame | ⟨t₁, key, q, rest, es₁, es₂, h₁, hlog, hmem, hque, hes, ⟨last, hlast⟩, hpre⟩
  · -- nothing would be served
    have hlen := congrArg List.length hserved
    unfold SerialMem.xfers at hlen
    rw [hsame.1] at hlen
    simp at hlen
  · have hok₁ : t₁.Ok cfg id mem := h₁.invariant hs.ok fun _ _ _ ho hn => ho.next hn
    obtain ⟨more, hmore⟩ := hpre
    have hnext : (q.id, t₁.part key) = (r.id, 0) := by
      unfold SerialMem.xfers at hserved
      rw [← hmore, hlog] at hserved
      simp only [List.map_append, List.map_cons, List.append_assoc, List.append_cancel_left_eq,
        List.singleton_append, List.cons.injEq] at hserved
      exact hserved.1
    have hpart : t₁.part key = 0 := congrArg Prod.snd hnext
    obtain ⟨late, hlate⟩ := SerialMem.accepted_prefix h₁
    have hqueued : t₁.queued (p, k) = l₁ ++ w :: l₂ ++ r :: (l₃ ++ (late.filter fun x => x.1 = (p, k)).map Prod.snd) := by
      have hsplit : t₁.queued (p, k) = acceptedAt es p k ++ (late.filter fun x => x.1 = (p, k)).map Prod.snd := by
        unfold SerialMem.queued acceptedAt
        rw [← hlate, SerialMem.accepted_eq_seen ht, List.filter_append, List.map_append]
      rw [hsplit, haccepted]
      simp
    have hrin : ((p, k), r) ∈ t₁.accepted := by
      have hmem : r ∈ t₁.queued (p, k) := by
        rw [hqueued]
        exact List.mem_append_right _ List.mem_cons_self
      obtain ⟨⟨key', x⟩, hx, rfl⟩ := List.mem_map.1 hmem
      obtain ⟨hx, hk⟩ := List.mem_filter.1 hx
      obtain rfl : key' = (p, k) := of_decide_eq_true hk
      exact hx
    obtain ⟨served, ho⟩ := hok₁.order key
    have hqin := SerialMem.mem_accepted ho (q := q) (.inr (by rw [hque]; exact List.mem_cons_self))
    have heq : (key, q) = ((p, k), r) := hok₁.eq_of_id hqin hrin (congrArg Prod.fst hnext)
    obtain ⟨rfl, rfl⟩ := Prod.mk.inj heq
    have halone₁ : Alone cfg id (t₁.accepted.map Prod.snd) w := by
      intro x hx
      apply halone
      rw [← hs'.accepted, ← hlast, List.map_append]
      exact List.mem_append_left _ hx
    have hdata := serial_reads_own_write hok₁ hque hqueued hw hr haddr halone₁
    rw [hes, hpart]
    apply List.mem_append_left
    apply List.mem_append_right
    unfold MemRdWrReqTime.events
    rw [hr.type, hdata]
    exact List.mem_singleton.2 rfl

/-- A run of calls, if no one stops the simulation and time does not go back. -/
def BankMem.run (cfg : MemCfg) (s : BankMem n) :
    List (Fin n × BankIn) → Option (List (MemEvent (Fin n)) × BankMem n)
  | [] => some ([], s)
  | (p, i) :: l =>
    if s.now ≤ i.now then
      match s.call cfg p i with
      | .ok s' => (run cfg s' l).map fun x => (BankMem.newEvents p s s' ++ s'.rsp.events p ++ x.1, x.2)
      | .error _ => none
    else none

theorem runs_of_run {l : List (Fin n × BankIn)} (h : s.run cfg l = some (es, s')) : Runs (BankMem.Next cfg) s es s' := by
  induction l generalizing s es with
  | nil =>
    cases h
    exact .init
  | cons a l ih =>
    obtain ⟨p, i⟩ := a
    unfold BankMem.run at h
    split at h
    next hnow =>
      split at h
      next s₁ he =>
        obtain ⟨⟨es₁, s₂⟩, hrest, heq⟩ := Option.map_eq_some_iff.1 h
        cases heq
        exact (Runs.single ⟨p, i, hnow, he, rfl⟩).trans (ih hrest)
      next => cases h
    next => cases h

theorem next_of_run {i : BankIn} (h : s.run cfg [(p, i)] = some (es, s')) : BankMem.Next cfg s es s' := by
  unfold BankMem.run at h
  split at h
  next hnow =>
    split at h
    next s₁ he =>
      cases h
      exact ⟨p, i, hnow, he, List.append_nil _⟩
    next => cases h
  next => cases h

/-- A write of 7 at address 64, a read of it, and the calls that schedule them and serve the write. -/
def sevenCalls : List (Fin 1 × BankIn) :=
  let p : Fin 1 := ⟨0, Nat.one_pos⟩
  let i (now : ℚ) (req : Option MemRdWrReqIntf) : BankIn := ⟨now, req, false, false, fun _ => (true, true)⟩
  [(p, i 0 (some ⟨7, 64, 0, .wr, false, .u64, true⟩)), (p, i 0 (some ⟨0, 64, 0, .rd, false, .u64, true⟩)),
    (p, i 1000 none), (p, i 2000 none)]

/-- The next call returns 7. -/
theorem bank_mem_reads_own_write_seven : ∃ (s' : BankMem 1) (es' : List (MemEvent (Fin 1))),
    MemEvent.rdRsp 0 0 7 ∈ es' ∧ s'.hist.xfers = [(0, 0), (1, 0)] := by
  let cfg : MemCfg := ⟨false, false, false, 0⟩
  let view (q : MemRdWrReqTime) := (q.id, q.req, q.reqQwCnt, q.data 0)
  let i : BankIn := ⟨3000, none, false, false, fun _ => (true, true)⟩
  have hview : ((BankMem.construct fun _ => 0).run cfg sevenCalls).map (fun x => (acceptedAt x.1 0 8).map view) =
      some [(0, ⟨7, 64, 0, .wr, false, .u64, true⟩, 1, 7), (1, ⟨0, 64, 0, .rd, false, .u64, true⟩, 1, 0)] := by
    decide +kernel
  have hxfers : ((BankMem.construct fun _ => 0).run cfg sevenCalls).map (fun x => x.2.hist.xfers) = some [(0, 0)] := by
    decide +kernel
  have hlast : ((BankMem.construct fun _ => 0).run cfg sevenCalls).bind (fun x => (x.2.run cfg [(0, i)]).map
      fun y => y.2.hist.xfers) = some [(0, 0), (1, 0)] := by
    decide +kernel
  have hids : ((BankMem.construct fun _ => 0).run cfg sevenCalls).bind (fun x => (x.2.run cfg [(0, i)]).map
      fun y => y.2.hist.accepted.map fun q => (q.id, q.req.type)) = some [(0, .wr), (1, .rd)] := by
    decide +kernel
  obtain ⟨⟨es, s⟩, hrun, hacc⟩ := Option.map_eq_some_iff.1 hview
  rw [hrun] at hxfers hlast hids
  obtain ⟨⟨es', s'⟩, hrun', hacc'⟩ := Option.map_eq_some_iff.1 hids
  rw [Option.bind_some, hrun'] at hlast
  have hs : s.hist.xfers = [(0, 0)] := Option.some.inj hxfers
  have hs' : s'.hist.xfers = [(0, 0), (1, 0)] := Option.some.inj hlast
  obtain ⟨w, l, hw, hview, hrest⟩ := List.map_eq_cons_iff.1 hacc
  obtain ⟨r, l, hr, hrview, hnil⟩ := List.map_eq_cons_iff.1 hrest
  rw [hr, List.map_eq_nil_iff.1 hnil] at hw
  simp only [view, Prod.mk.injEq] at hview hrview
  obtain ⟨hwid, hwreq, hwcnt, hwdata⟩ := hview
  obtain ⟨hrid, hrreq, -, -⟩ := hrview
  have halone : Alone cfg id s'.hist.accepted w := by
    intro q hq hne qw a _
    have hmem : (q.id, q.req.type) ∈ [(0, MemReqType.wr), (1, .rd)] := by
      have hin := List.mem_map_of_mem (f := fun q : MemRdWrReqTime => (q.id, q.req.type)) hq
      rwa [hacc'] at hin
    rw [hwid] at hne
    have htype : q.req.type = .rd := by
      simp only [List.mem_cons, Prod.mk.injEq, List.not_mem_nil, or_false] at hmem
      rcases hmem with ⟨hid, -⟩ | ⟨-, htype⟩
      · exact absurd hid hne
      · exact htype
    unfold SerialMem.written
    rw [htype]
  have horder : acceptedAt es 0 8 = [] ++ w :: [] ++ r :: [] := hw
  have hread := bank_mem_reads_own_write (runs_of_run hrun) horder
    ⟨by rw [hwreq], by rw [hwreq], hwcnt⟩ ⟨by rw [hrreq], by rw [hrreq]⟩ (by rw [hrreq, hwreq]) (next_of_run hrun') halone
    (by rw [hs', hs, hrid]; rfl)
  rw [hwdata, hrreq] at hread
  exact ⟨s', es', hread, hs'⟩

end Bank

end OpenHT.Sysc
