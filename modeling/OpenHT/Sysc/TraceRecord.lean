import OpenHT.Sysc.MemTrace

/-!
# Reading one record back

The reader's start time counts ticks of 1000 units and its row address is the writer's. If they are
in step with the writer's before a record, they are in step after it.

* `tickAfter`: the tick a start time is rounded to, towards the tick before it.
* `readAddr`: the address read for a written one; `readAddr_eq` says when it is the same.
* `Synced.readReq`: what `ReadReq` returns for a written record.
-/

namespace OpenHT.Sysc

open Bytes

/-! ## Integers -/

theorem i64_eq {x : ℤ} (h1 : -2 ^ 63 ≤ x) (h2 : x < 2 ^ 63) : i64 x = x := Int.bmod_eq_of_le h1 h2

theorem u64_eq {n : ℕ} (h : n < 2 ^ 64) : u64 n = n := by
  unfold u64
  omega

/-- Every value fits the bytes of its size class. -/
theorem lt_cprsInt {n : ℕ} (h : n < 2 ^ 64) : n < 256 ^ (1 <<< cprsInt n) := by
  unfold cprsInt
  by_cases h8 : n < 1 <<< 8
  · rw [if_pos h8]
    exact h8
  · rw [if_neg h8]
    by_cases h16 : n < 1 <<< 16
    · rw [if_pos h16]
      exact h16
    · rw [if_neg h16]
      by_cases h32 : n < 1 <<< 32
      · rw [if_pos h32]
        exact h32
      · rw [if_neg h32]
        exact h

theorem cprsInt_lt (n : ℕ) : cprsInt n < 4 := by
  unfold cprsInt
  split_ifs <;> omega

/-! ## Ticks -/

/-- The tick of a start time `t` after tick `k`: `t` rounded towards `k`. -/
def tickAfter (k t : ℕ) : ℕ := if 1000 * k ≤ t then t / 1000 else (t + 999) / 1000

theorem tickAfter_bounds (k t : ℕ) :
    t < 1000 * tickAfter k t + 1000 ∧ 1000 * tickAfter k t < t + 1000 := by
  unfold tickAfter
  split <;> omega

theorem startDelta_eq {F : Type} {w : TraceWriter F} {r : MemReq F} {k : ℕ}
    (hw : w.prevStartTime = 1000 * k) (hk : 1000 * k < 2 ^ 62 + 1000) :
    w.startDelta r = (tickAfter k r.startTime : ℤ) - k := by
  have h1 := r.start_le
  have h2 := r.comp_lt
  unfold TraceWriter.startDelta
  rw [hw, i64_eq (by omega) (by omega)]
  unfold tickAfter
  by_cases hle : 1000 * k ≤ r.startTime
  · rw [if_pos hle, Int.tdiv_eq_ediv_of_nonneg (by omega)]
    omega
  · have hneg : (r.startTime : ℤ) - (1000 * k : ℕ) = -((1000 * k : ℕ) - (r.startTime : ℤ)) := by omega
    rw [if_neg hle, hneg, Int.neg_tdiv, Int.tdiv_eq_ediv_of_nonneg (by omega)]
    omega

/-! ## Addresses -/

/-- The low address bits, as the reader puts them together from the bank and controller fields. -/
theorem lowBits_eq : ∀ bank < 128, ∀ mc < 8,
    ((bank <<< 6) &&& 0x1fc0) ||| (mc <<< 6) ||| ((bank <<< 3) &&& 0x38) =
      (bank / 8) * 512 + ((bank % 8) ||| mc) * 64 + (bank % 8) * 8 := by
  decide +kernel

/-- The bank field: address bits 9 to 12 above address bits 3 to 5. -/
theorem bank_eq (a : ℕ) :
    ((a >>> 6) &&& 0x78) ||| ((a >>> 3) &&& 0x7) = (a / 512 % 16) * 8 + a / 8 % 8 := by
  have h78 : (a >>> 6) &&& 0x78 = (a / 512 % 16) <<< 3 := by
    have hmask : (0x78 : ℕ) = 0xf <<< 3 := rfl
    have hsplit : a >>> 6 = (a >>> 9) <<< 3 + a / 64 % 8 := by
      simp only [Nat.shiftRight_eq_div_pow, Nat.shiftLeft_eq]
      omega
    have hlow : a / 64 % 8 &&& 0x78 = 0 := by
      have : ∀ x < 8, x &&& 0x78 = 0 := by decide
      exact this _ (Nat.mod_lt _ (by decide))
    rw [hsplit, Nat.shiftLeft_add_eq_or_of_lt (Nat.mod_lt _ (by decide)), Nat.and_or_distrib_right, hlow,
      Nat.or_zero, hmask, ← Nat.shiftLeft_and_distrib]
    rw [show (0xf : ℕ) = 2 ^ 4 - 1 from rfl, Nat.and_two_pow_sub_one_eq_mod,
      Nat.shiftRight_eq_div_pow]
  have h7 : (a >>> 3) &&& 0x7 = a / 8 % 8 := by
    rw [show (0x7 : ℕ) = 2 ^ 3 - 1 from rfl, Nat.and_two_pow_sub_one_eq_mod,
      Nat.shiftRight_eq_div_pow]
  rw [h78, h7, ← Nat.shiftLeft_add_eq_or_of_lt (Nat.mod_lt _ (by decide)), Nat.shiftLeft_eq]

theorem mc_eq (a : ℕ) : (a >>> 6) &&& 7 = a / 64 % 8 := by
  rw [show (7 : ℕ) = 2 ^ 3 - 1 from rfl, Nat.and_two_pow_sub_one_eq_mod, Nat.shiftRight_eq_div_pow]

/-- The address read back for the written address `a`. -/
def readAddr (a : ℕ) : ℕ :=
  (a / 8192) * 8192 + (a / 512 % 16) * 512 + ((a / 8 % 8) ||| (a / 64 % 8)) * 64 + (a / 8 % 8) * 8

/-- Address bits 3 to 5 are among address bits 6 to 8. -/
def AddrOk (a : ℕ) : Prop := ((a >>> 3) &&& 7) ||| ((a >>> 6) &&& 7) = (a >>> 6) &&& 7

instance (a : ℕ) : Decidable (AddrOk a) := inferInstanceAs (Decidable (_ = _))

/-- **When an address survives.** -/
theorem readAddr_eq {a : ℕ} (h : a % 8 = 0) : readAddr a = a ↔ AddrOk a := by
  have h3 : (a >>> 3) &&& 7 = a / 8 % 8 := by
    rw [show (7 : ℕ) = 2 ^ 3 - 1 from rfl, Nat.and_two_pow_sub_one_eq_mod, Nat.shiftRight_eq_div_pow]
  unfold AddrOk readAddr
  rw [h3, mc_eq]
  omega

theorem addrOf_eq {a : ℕ} (h : a < 2 ^ 64) {f : MemTraceFmt} (hmc : f.mc = (a >>> 6) &&& 7)
    (hbank : f.bank = ((a >>> 6) &&& 0x78) ||| ((a >>> 3) &&& 0x7)) :
    TraceReader.addrOf (a >>> 13) f = readAddr a := by
  unfold TraceReader.addrOf readAddr
  rw [hmc, hbank, mc_eq, bank_eq, lowBits_eq _ (by omega) _ (by omega), Nat.shiftRight_eq_div_pow]
  have hdiv : (a / 512 % 16 * 8 + a / 8 % 8) / 8 = a / 512 % 16 := by omega
  have hmod : (a / 512 % 16 * 8 + a / 8 % 8) % 8 = a / 8 % 8 := by omega
  have hor : a / 8 % 8 ||| a / 64 % 8 < 8 :=
    Nat.or_lt_two_pow (n := 3) (Nat.mod_lt _ (by decide)) (Nat.mod_lt _ (by decide))
  have hhigh : (a / 2 ^ 13) <<< 13 % 2 ^ 64 = (a / 2 ^ 13) <<< 13 := by
    rw [Nat.shiftLeft_eq]
    omega
  rw [hdiv, hmod, hhigh, ← Nat.shiftLeft_add_eq_or_of_lt (by omega), Nat.shiftLeft_eq]
  omega

/-! ## Bit fields -/

/-- Every field fits its width. -/
structure MemTraceFmt.Fits (f : MemTraceFmt) : Prop where
  ae : f.ae < 4
  unit : f.unit < 16
  src : f.src < 256
  host : f.host < 2
  mc : f.mc < 8
  bank : f.bank < 128
  op : f.op < 2
  startSize : f.startSize < 4
  startSign : f.startSign < 2
  compSize : f.compSize < 4
  addrSize : f.addrSize < 4
  addrSign : f.addrSign < 2

theorem MemTraceFmt.unpack_pack {f : MemTraceFmt} (h : f.Fits) (pad : ℕ) : unpack (f.pack pad) = f := by
  have hread : unfields widths (f.pack pad) = _ :=
    unfields_fields (widths.zip [f.ae, f.unit, f.src, f.host, f.mc, f.bank, f.op, f.startSize,
      f.startSign, f.compSize, f.addrSize, f.addrSign]) (pad % 2 ^ 6)
  unfold unpack
  rw [hread]
  simp [widths, Nat.mod_eq_of_lt, h.ae, h.unit, h.src, h.host, h.mc, h.bank, h.op, h.startSize,
    h.startSign, h.compSize, h.addrSize, h.addrSign]

/-- The bit fields take five bytes. -/
theorem MemTraceFmt.pack_lt (f : MemTraceFmt) (pad : ℕ) : f.pack pad < 256 ^ 5 := by
  have hlt : f.pack pad < 2 ^ (34 + 6) := fields_lt (Nat.mod_lt pad (by decide))
  exact hlt.trans_eq (by norm_num)

theorem TraceWriter.fmt_fits {F : Type} (w : TraceWriter F) (r : MemReq F) {src : ℕ} (hsrc : src < 256) :
    (w.fmt r src).Fits where
  ae := r.ae_lt
  unit := r.unit_lt
  src := hsrc
  host := r.host_lt
  mc := by
    show (r.addr >>> 6) &&& 7 < 8
    rw [mc_eq]
    omega
  bank := by
    show ((r.addr >>> 6) &&& 0x78) ||| ((r.addr >>> 3) &&& 0x7) < 128
    rw [bank_eq]
    omega
  op := r.op_lt
  startSize := cprsInt_lt _
  startSign := by
    show (if w.startDelta r < 0 then 1 else 0) < 2
    split <;> omega
  compSize := cprsInt_lt _
  addrSize := cprsInt_lt _
  addrSign := by
    show (if w.addrDelta r < 0 then 1 else 0) < 2
    split <;> omega

/-! ## One record -/

namespace TraceReader

theorem bytes_eq (pre mid post : List ℕ) :
    bytes (pre ++ mid ++ post) pre.length mid.length = mid := by
  simp [bytes]

/-- Reading the bytes of `n` where they stand. -/
theorem fread_eq {body : List ℕ} (pre post : List ℕ) {k n : ℕ} (hb : body = pre ++ leBytes k n ++ post)
    (hn : n < 256 ^ k) {pos : ℕ} (hp : pos = pre.length) : fread body pos k = n := by
  have h := bytes_eq pre (leBytes k n) post
  rw [length_leBytes] at h
  unfold fread
  rw [hb, hp, h, ofDigits_leBytes_of_lt hn]

end TraceReader

/-- A delta from its size and sign. -/
theorem signed_eq {d : ℤ} (h1 : -2 ^ 63 < d) (h2 : d < 2 ^ 63) :
    (if (if d < 0 then 1 else 0) = 1 then -i64 d.natAbs else i64 d.natAbs) = d := by
  rw [i64_eq (by omega) (by omega)]
  by_cases hd : d < 0
  · rw [if_pos hd, if_pos rfl]
    omega
  · rw [if_neg hd, if_neg (by decide)]
    omega

/-- What `ReadReq` returns for a request, given its tick and the index of its source line. -/
def readBack {F : Type} (r : MemReq F) (src k : ℕ) : ReadReq where
  ae := r.ae
  unit := r.unit
  mc := (r.addr >>> 6) &&& 7
  bank := ((r.addr >>> 6) &&& 0x78) ||| ((r.addr >>> 3) &&& 0x7)
  op := r.op
  src := src
  host := r.host
  startTime := k
  compTime := k + (r.compTime - r.startTime) / 1000
  addr := readAddr r.addr

/-- Writer and reader are in step at tick `k`. -/
structure Synced {F : Type} (w : TraceWriter F) (t : TraceReader) (k : ℕ) : Prop where
  wStart : w.prevStartTime = 1000 * k
  rStart : t.prevStartTime = k
  bound : 1000 * k < 2 ^ 62 + 1000
  addr : t.prevAddr = w.prevAddr
  addr_lt : w.prevAddr < 2 ^ 51

/-- **One record.** A written record is read back, and leaves writer and reader in step. -/
theorem Synced.readReq {F : Type} [DecidableEq F] {w : TraceWriter F} {t : TraceReader} {k : ℕ}
    (h : Synced w t k) (r : MemReq F) (pad : ℕ) {pre post : List ℕ} {src : ℕ}
    (hsrc : src < 256)
    (hbody : t.file.body = pre ++ w.record r src pad ++ post) (hpos : t.pos = pre.length)
    (hidx : t.memReqIdx < t.file.memReqCount) :
    ∃ t', t.readReq = some (readBack r src (tickAfter k r.startTime), t') ∧
      Synced (w.writeReq r pad) t' (tickAfter k r.startTime) ∧ t'.file = t.file ∧
      t'.fileLineSpace = t.fileLineSpace ∧ t'.memReqIdx = t.memReqIdx + 1 ∧
      t'.pos = (pre ++ w.record r src pad).length := by
  have hstart := r.start_le
  have hcomp := r.comp_lt
  have haddr := r.addr_lt
  have htick := tickAfter_bounds k r.startTime
  have hk := h.bound
  have hsd := startDelta_eq h.wStart hk (r := r)
  have hshift : r.addr >>> 13 < 2 ^ 51 := by
    rw [Nat.shiftRight_eq_div_pow]
    omega
  have had : w.addrDelta r = ((r.addr >>> 13 : ℕ) : ℤ) - w.prevAddr := by
    have hprev := h.addr_lt
    unfold TraceWriter.addrDelta
    exact i64_eq (by omega) (by omega)
  have hcd : TraceWriter.compDelta r = (r.compTime - r.startTime) / 1000 := by
    unfold TraceWriter.compDelta
    rw [← Nat.cast_sub hstart, u64_eq (by omega)]
  -- the fields and the three deltas, read from their places
  have hfmt := MemTraceFmt.unpack_pack (w.fmt_fits r hsrc) pad
  have hlt := MemTraceFmt.pack_lt (w.fmt r src) pad
  unfold TraceWriter.record at hbody
  have hprev := h.addr_lt
  generalize hB0 : leBytes 5 ((w.fmt r src).pack pad) = B0 at hbody
  generalize hB1 : leBytes (1 <<< cprsInt (w.startDelta r).natAbs) (w.startDelta r).natAbs = B1 at hbody
  generalize hB2 : leBytes (1 <<< cprsInt (TraceWriter.compDelta r)) (TraceWriter.compDelta r) = B2 at hbody
  generalize hB3 : leBytes (1 <<< cprsInt (w.addrDelta r).natAbs) (w.addrDelta r).natAbs = B3 at hbody
  have hl0 : B0.length = 5 := by rw [← hB0, length_leBytes]
  have hl1 : B1.length = 1 <<< cprsInt (w.startDelta r).natAbs := by rw [← hB1, length_leBytes]
  have hl2 : B2.length = 1 <<< cprsInt (TraceWriter.compDelta r) := by rw [← hB2, length_leBytes]
  have hl3 : B3.length = 1 <<< cprsInt (w.addrDelta r).natAbs := by rw [← hB3, length_leBytes]
  have hfive : (TraceReader.bytes t.file.body t.pos 5).length = 5 := by
    rw [hbody, hpos, ← hl0, show pre ++ (B0 ++ B1 ++ B2 ++ B3) ++ post = pre ++ B0 ++ (B1 ++ B2 ++ B3 ++ post) by
      simp, TraceReader.bytes_eq]
  have hr0 : TraceReader.fread t.file.body t.pos 5 = (w.fmt r src).pack pad :=
    TraceReader.fread_eq pre (B1 ++ B2 ++ B3 ++ post)
      (by rw [hbody, hB0]; simp) hlt hpos
  have hr1 : TraceReader.fread t.file.body (t.pos + 5) (1 <<< cprsInt (w.startDelta r).natAbs) =
      (w.startDelta r).natAbs :=
    TraceReader.fread_eq (pre ++ B0) (B2 ++ B3 ++ post)
      (by rw [hbody, hB1]; simp) (lt_cprsInt (by omega)) (by rw [List.length_append, hl0, hpos])
  have hr2 : TraceReader.fread t.file.body (t.pos + 5 + 1 <<< cprsInt (w.startDelta r).natAbs)
      (1 <<< cprsInt (TraceWriter.compDelta r)) = TraceWriter.compDelta r :=
    TraceReader.fread_eq (pre ++ B0 ++ B1) (B3 ++ post)
      (by rw [hbody, hB2]; simp) (lt_cprsInt (by omega))
      (by rw [List.length_append, List.length_append, hl0, hl1, hpos])
  have hr3 : TraceReader.fread t.file.body (t.pos + 5 + 1 <<< cprsInt (w.startDelta r).natAbs +
      1 <<< cprsInt (TraceWriter.compDelta r)) (1 <<< cprsInt (w.addrDelta r).natAbs) =
      (w.addrDelta r).natAbs :=
    TraceReader.fread_eq (pre ++ B0 ++ B1 ++ B2) post
      (by rw [hbody, hB3]; simp) (lt_cprsInt (by omega))
      (by rw [List.length_append, List.length_append, List.length_append, hl0, hl1, hl2, hpos])
  have hsigned1 := signed_eq (d := w.startDelta r) (by omega) (by omega)
  have hsigned2 := signed_eq (d := w.addrDelta r) (by omega) (by omega)
  have hnext : u64 ((t.prevStartTime : ℤ) + w.startDelta r) = tickAfter k r.startTime := by
    rw [h.rStart, hsd, show (k : ℤ) + ((tickAfter k r.startTime : ℤ) - k) = (tickAfter k r.startTime : ℕ) by omega]
    exact u64_eq (by omega)
  have hnextAddr : u64 ((t.prevAddr : ℤ) + w.addrDelta r) = r.addr >>> 13 := by
    rw [h.addr, had, show (w.prevAddr : ℤ) + (((r.addr >>> 13 : ℕ) : ℤ) - w.prevAddr) = (r.addr >>> 13 : ℕ) by omega]
    exact u64_eq (by omega)
  have hread : t.readReq = some (readBack r src (tickAfter k r.startTime),
      { t with
        pos := t.pos + 5 + 1 <<< cprsInt (w.startDelta r).natAbs + 1 <<< cprsInt (TraceWriter.compDelta r) +
          1 <<< cprsInt (w.addrDelta r).natAbs
        memReqIdx := t.memReqIdx + 1
        prevStartTime := tickAfter k r.startTime
        prevAddr := r.addr >>> 13 }) := by
    have hcond : ¬ (t.memReqIdx = t.file.memReqCount ∨ (TraceReader.bytes t.file.body t.pos 5).length ≠ 5) := by
      omega
    have hcompTime : u64 ((tickAfter k r.startTime : ℤ) + (TraceWriter.compDelta r : ℤ)) =
        tickAfter k r.startTime + (r.compTime - r.startTime) / 1000 := by
      rw [hcd, ← Nat.cast_add]
      exact u64_eq (by omega)
    have haddrOf := addrOf_eq haddr (f := w.fmt r src) rfl rfl
    unfold TraceReader.readReq
    rw [if_neg hcond]
    simp only [hr0, hfmt]
    simp only [TraceWriter.fmt] at haddrOf ⊢
    simp only [hr1, hr2, hr3, hsigned1, hsigned2, hnext, hnextAddr, hcompTime, haddrOf]
    rfl
  refine ⟨_, hread, ?_, rfl, rfl, rfl, ?_⟩
  · exact
      { wStart := by
          show u64 ((w.prevStartTime : ℤ) + w.startDelta r * 1000) = _
          rw [h.wStart, hsd, show ((1000 * k : ℕ) : ℤ) + ((tickAfter k r.startTime : ℤ) - k) * 1000 =
            (1000 * tickAfter k r.startTime : ℕ) by push_cast; ring]
          exact u64_eq (by omega)
        rStart := rfl
        bound := by omega
        addr := by
          show r.addr >>> 13 = u64 ((w.prevAddr : ℤ) + w.addrDelta r)
          rw [← h.addr]
          exact hnextAddr.symm
        addr_lt := by
          show u64 ((w.prevAddr : ℤ) + w.addrDelta r) < _
          rw [← h.addr, hnextAddr]
          exact hshift }
  · unfold TraceWriter.record
    rw [hB0, hB1, hB2, hB3]
    simp only [List.length_append, hl0, hl1, hl2, hl3, hpos]
    omega

end OpenHT.Sysc
