import OpenHT.Lib.Distinct
import OpenHT.Sysc.TraceRecord

/-!
# The round trip of a trace

* `TableOk`: the hash chains find every entry of the table of source lines.
* `lookupSrc_spec`: an index found for a source line, also when the table is full.
* `readAll_eq`: all records are read back, in order.
* `trace_round_trip`: when the requests read are the requests written.
-/

namespace OpenHT.Sysc

open Bytes Distinct

variable {F : Type} [DecidableEq F]

/-! ## Source lines -/

/-- The chain of a hash value holds the indices of the entries that hash to it. -/
structure TableOk (w : TraceWriter F) : Prop where
  length : w.fileLineSpace.length ≤ maxFileLineSize
  chain : ∀ b i, i ∈ w.fileLineChain b ↔ ∃ e, w.fileLineSpace[i]? = some e ∧ fileLineHash e.2 = b

omit [DecidableEq F] in
theorem TableOk.init : TableOk (TraceWriter.init : TraceWriter F) where
  length := Nat.zero_le _
  chain := by
    intro b i
    simp [TraceWriter.init]

/-- The entry a source line is given: its own, or the last one once the table is full. -/
def entryOf (table : List (F × ℤ)) (x : F × ℤ) : Option (F × ℤ) :=
  if x ∈ table then some x else table[maxFileLineSize - 1]?

/-- **Lookup.** The index found belongs to the entry the source line is given. -/
theorem lookupSrc_spec {w : TraceWriter F} (h : TableOk w) (file : F) (line : ℤ) :
    (w.lookupSrc file line).1.fileLineSpace = addNew maxFileLineSize w.fileLineSpace (file, line) ∧
      TableOk (w.lookupSrc file line).1 ∧ (w.lookupSrc file line).2 < 256 ∧
      (addNew maxFileLineSize w.fileLineSpace (file, line))[(w.lookupSrc file line).2]? =
        entryOf (addNew maxFileLineSize w.fileLineSpace (file, line)) (file, line) := by
  have hlen := h.length
  unfold TraceWriter.lookupSrc
  cases hfind : (w.fileLineChain (fileLineHash line)).find?
      (fun i => w.fileLineSpace[i]? = some (file, line)) with
  | some i =>
    have hi : w.fileLineSpace[i]? = some (file, line) := by simpa using List.find?_some hfind
    have hmem : (file, line) ∈ w.fileLineSpace := List.mem_of_getElem? hi
    have hadd : addNew maxFileLineSize w.fileLineSpace (file, line) = w.fileLineSpace := by
      unfold addNew
      rw [if_pos (.inl hmem)]
    rw [hadd]
    refine ⟨rfl, h, ?_, ?_⟩
    · have hlt : i < w.fileLineSpace.length := (List.getElem?_eq_some_iff.1 hi).1
      unfold maxFileLineSize at hlen
      exact hlt.trans_le hlen
    · unfold entryOf
      rw [if_pos hmem]
      exact hi
  | none =>
    -- a new source line: it would have been found in its chain
    have hnot : (file, line) ∉ w.fileLineSpace := by
      intro hmem
      obtain ⟨i, hi⟩ := List.getElem?_of_mem hmem
      have hchain : i ∈ w.fileLineChain (fileLineHash line) := (h.chain _ i).2 ⟨_, hi, rfl⟩
      have := List.find?_eq_none.1 hfind i hchain
      simp [hi] at this
    by_cases hfull : w.fileLineSpace.length = maxFileLineSize
    · have hadd : addNew maxFileLineSize w.fileLineSpace (file, line) = w.fileLineSpace := by
        unfold addNew
        rw [if_pos (.inr hfull)]
      simp only [if_pos hfull]
      rw [hadd]
      refine ⟨rfl, h, by decide, ?_⟩
      unfold entryOf
      rw [if_neg hnot]
    · have hadd : addNew maxFileLineSize w.fileLineSpace (file, line) = w.fileLineSpace ++ [(file, line)] := by
        unfold addNew
        rw [if_neg (by simp [hnot, hfull])]
      simp only [if_neg hfull]
      rw [hadd]
      have hlast : (w.fileLineSpace ++ [(file, line)])[w.fileLineSpace.length]? = some (file, line) := by
        simp
      refine ⟨rfl, ⟨?_, ?_⟩, ?_, ?_⟩
      · rw [List.length_append, List.length_singleton]
        omega
      · intro b i
        have hold := h.chain b i
        show i ∈ Function.update w.fileLineChain (fileLineHash line)
          (w.fileLineSpace.length :: w.fileLineChain (fileLineHash line)) b ↔ _
        by_cases hi : i = w.fileLineSpace.length
        · have hno : i ∉ w.fileLineChain b := by
            rw [hold]
            rintro ⟨e, he, -⟩
            have := (List.getElem?_eq_some_iff.1 he).1
            omega
          rw [hi] at hno ⊢
          by_cases hb : b = fileLineHash line
          · rw [hb, Function.update_self]
            simp
          · rw [Function.update_of_ne hb]
            simp [hno, Ne.symm hb]
        · have hget : (w.fileLineSpace ++ [(file, line)])[i]? = w.fileLineSpace[i]? := by
            rw [List.getElem?_append]
            split
            · rfl
            · rename_i hge
              rw [List.getElem?_eq_none (by simp; omega), List.getElem?_eq_none (by omega)]
          rw [hget, ← hold]
          by_cases hb : b = fileLineHash line
          · rw [hb, Function.update_self]
            simp [hi]
          · rw [Function.update_of_ne hb]
      · unfold maxFileLineSize at hlen hfull
        omega
      · unfold entryOf
        rw [if_pos (List.mem_append_right _ (List.mem_singleton_self _))]
        exact hlast

/-- The entry found for a source line is still its entry when the table is complete. -/
theorem entryOf_final {table : List (F × ℤ)} {x : F × ℤ} {i : ℕ}
    (hi : (addNew maxFileLineSize table x)[i]? = entryOf (addNew maxFileLineSize table x) x)
    (xs : List (F × ℤ)) :
    (xs.foldl (addNew maxFileLineSize) (addNew maxFileLineSize table x))[i]? =
      entryOf (xs.foldl (addNew maxFileLineSize) (addNew maxFileLineSize table x)) x := by
  rcases mem_addNew_or_full (n := maxFileLineSize) table x with hmem | hfull
  · obtain ⟨rest, hrest⟩ := foldl_prefix (n := maxFileLineSize) xs (addNew maxFileLineSize table x)
    have hx : (addNew maxFileLineSize table x)[i]? = some x := by
      rw [hi]
      unfold entryOf
      rw [if_pos hmem]
    unfold entryOf
    rw [← hrest, if_pos (List.mem_append_left rest hmem)]
    rw [List.getElem?_append_left (List.getElem?_eq_some_iff.1 hx).1, hx]
  · rw [foldl_of_full hfull]
    exact hi

/-! ## All records -/

namespace TraceWriter

/-- The bytes the requests add to the file. -/
def recordsOf (w : TraceWriter F) : List (MemReq F × ℕ) → List ℕ
  | [] => []
  | r :: rs => w.record r.1 (w.lookupSrc r.1.file r.1.line).2 r.2 ++ (w.writeReq r.1 r.2).recordsOf rs

/-- What is read for the requests, from tick `k` on. -/
def readBacks (w : TraceWriter F) (k : ℕ) : List (MemReq F × ℕ) → List ReadReq
  | [] => []
  | r :: rs => readBack r.1 (w.lookupSrc r.1.file r.1.line).2 (tickAfter k r.1.startTime) ::
      (w.writeReq r.1 r.2).readBacks (tickAfter k r.1.startTime) rs

/-- The source lines of the requests. -/
def srcLines (rs : List (MemReq F × ℕ)) : List (F × ℤ) := rs.map fun r => (r.1.file, r.1.line)

theorem lookupSrc_rest (w : TraceWriter F) (file : F) (line : ℤ) :
    (w.lookupSrc file line).1.records = w.records ∧
      (w.lookupSrc file line).1.memReqCount = w.memReqCount := by
  unfold lookupSrc
  split
  · exact ⟨rfl, rfl⟩
  · split <;> exact ⟨rfl, rfl⟩

theorem writeReq_table {w : TraceWriter F} (h : TableOk w) (r : MemReq F) (pad : ℕ) :
    TableOk (w.writeReq r pad) ∧
      (w.writeReq r pad).fileLineSpace = addNew maxFileLineSize w.fileLineSpace (r.file, r.line) := by
  obtain ⟨h1, h2, -, -⟩ := lookupSrc_spec h r.file r.line
  exact ⟨⟨h2.length, h2.chain⟩, h1⟩

theorem foldl_writeReq {w : TraceWriter F} (h : TableOk w) (rs : List (MemReq F × ℕ)) :
    (rs.foldl (fun w r => w.writeReq r.1 r.2) w).records = w.records ++ w.recordsOf rs ∧
    (rs.foldl (fun w r => w.writeReq r.1 r.2) w).memReqCount = w.memReqCount + rs.length ∧
    (rs.foldl (fun w r => w.writeReq r.1 r.2) w).fileLineSpace =
      (srcLines rs).foldl (addNew maxFileLineSize) w.fileLineSpace := by
  induction rs generalizing w with
  | nil => exact ⟨(List.append_nil _).symm, rfl, rfl⟩
  | cons r rs ih =>
    obtain ⟨ht, hspace⟩ := writeReq_table h r.1 r.2
    obtain ⟨h1, h2, h3⟩ := ih ht
    refine ⟨?_, ?_, ?_⟩
    · rw [List.foldl_cons, h1, recordsOf, ← List.append_assoc]
      rfl
    · rw [List.foldl_cons, h2, List.length_cons]
      show w.memReqCount + 1 + rs.length = _
      omega
    · rw [List.foldl_cons, h3, hspace]
      rfl

end TraceWriter

open TraceWriter

/-- **All records are read back**, and then `ReadReq` returns false. -/
theorem readAll_eq (rs : List (MemReq F × ℕ)) {w : TraceWriter F} {t : TraceReader} {k n : ℕ}
    (ht : TableOk w) (hs : Synced w t k) {pre post : List ℕ}
    (hbody : t.file.body = pre ++ w.recordsOf rs ++ post) (hpos : t.pos = pre.length)
    (hidx : t.memReqIdx + rs.length = t.file.memReqCount) (hn : rs.length < n) :
    t.readAll n = w.readBacks k rs := by
  induction rs generalizing w t k n pre with
  | nil =>
    obtain ⟨m, rfl⟩ : ∃ m, n = m + 1 := ⟨n - 1, by have h0 : 0 < n := hn; omega⟩
    have hnone : t.readReq = none := by
      unfold TraceReader.readReq
      rw [if_pos (.inl (by simpa using hidx))]
    simp only [TraceReader.readAll, hnone]
    rfl
  | cons r rs ih =>
    rw [List.length_cons] at hidx hn
    obtain ⟨m, rfl⟩ : ∃ m, n = m + 1 := ⟨n - 1, by omega⟩
    obtain ⟨-, -, hsrc, -⟩ := lookupSrc_spec ht r.1.file r.1.line
    have hbody' : t.file.body = pre ++ w.record r.1 (w.lookupSrc r.1.file r.1.line).2 r.2 ++
        ((w.writeReq r.1 r.2).recordsOf rs ++ post) := by
      rw [hbody, recordsOf]
      simp only [List.append_assoc]
    obtain ⟨t', hread, hs', hfile, -, hidx', hpos'⟩ :=
      hs.readReq r.1 r.2 hsrc hbody' hpos (by omega)
    simp only [TraceReader.readAll, hread, readBacks]
    congr 1
    have hrest : t'.file.body = pre ++ w.record r.1 (w.lookupSrc r.1.file r.1.line).2 r.2 ++
        (w.writeReq r.1 r.2).recordsOf rs ++ post := by
      rw [hfile, hbody']
      simp only [List.append_assoc]
    apply ih (writeReq_table ht r.1 r.2).1 hs' hrest hpos'
    · rw [hfile, hidx']
      omega
    · omega

/-! ## The table of source lines -/

/-- A C string. -/
structure CStr where
  chars : List ℕ
  noNul : 0 ∉ chars

/-- The buffer read for a name: its terminator is cut off after 256 characters. -/
def nameBuf (s : CStr) : List ℕ := (s.chars ++ [0]).take (min s.chars.length 256 + 1)

theorem cString_nameBuf (s : CStr) :
    cString (nameBuf s) = if s.chars.length ≤ 256 then some s.chars else none := by
  have hno := s.noNul
  unfold cString nameBuf
  by_cases hlen : s.chars.length ≤ 256
  · have htake : (s.chars ++ [0]).take (min s.chars.length 256 + 1) = s.chars ++ [0] := by
      apply List.take_of_length_le
      rw [List.length_append, List.length_singleton]
      omega
    have hall : ∀ x ∈ s.chars, decide (x ≠ 0) = true := by
      intro x hx
      rw [decide_eq_true_iff]
      rintro rfl
      exact hno hx
    rw [if_pos hlen, htake, if_pos (List.mem_append_right _ (List.mem_singleton_self 0)),
      List.takeWhile_append_of_pos hall]
    simp
  · have hnot : 0 ∉ (s.chars ++ [0]).take (min s.chars.length 256 + 1) := by
      rw [List.take_append_of_le_length (by omega)]
      intro hmem
      exact hno (List.mem_of_mem_take hmem)
    rw [if_neg hlen, if_neg hnot]

/-- A line number survives its four bytes. -/
theorem line_eq {x : ℤ} (h1 : -2 ^ 31 ≤ x) (h2 : x < 2 ^ 31) : ((x % 2 ^ 32).toNat : ℤ).bmod (2 ^ 32) = x := by
  have hx : ((x % 2 ^ 32).toNat : ℤ) = x % ((2 ^ 32 : ℕ) : ℤ) := by omega
  rw [hx, Int.emod_bmod]
  exact Int.bmod_eq_of_le h1 h2

omit [DecidableEq F] in
/-- **The table is read back.** -/
theorem readFileLines_eq (name : F → CStr) (table : List (F × ℤ))
    (hline : ∀ e ∈ table, -2 ^ 31 ≤ e.2 ∧ e.2 < 2 ^ 31) (pre : List ℕ) :
    TraceReader.readFileLines
      (pre ++ (table.map (fileLineBytes fun f => (name f).chars)).flatten) table.length pre.length =
      table.map fun e => (nameBuf (name e.1), e.2) := by
  induction table generalizing pre with
  | nil => rfl
  | cons e table ih =>
    obtain ⟨h1, h2⟩ := hline e List.mem_cons_self
    have hlen : (nameBuf (name e.1)).length = min (name e.1).chars.length 256 + 1 := by
      unfold nameBuf
      rw [List.length_take, List.length_append, List.length_singleton]
      omega
    have hbuf : fileLineBytes (fun f => (name f).chars) e = leBytes 4 (e.2 % 2 ^ 32).toNat ++
        leBytes 4 (min (name e.1).chars.length 256 + 1) ++ nameBuf (name e.1) := rfl
    generalize hrest : (table.map (fileLineBytes fun f => (name f).chars)).flatten = rest at ih
    simp only [List.map_cons, List.flatten_cons, List.length_cons, TraceReader.readFileLines, hrest, hbuf]
    have hr1 : TraceReader.fread (pre ++ (leBytes 4 (e.2 % 2 ^ 32).toNat ++
        leBytes 4 (min (name e.1).chars.length 256 + 1) ++ nameBuf (name e.1) ++ rest)) pre.length 4 =
        (e.2 % 2 ^ 32).toNat :=
      TraceReader.fread_eq pre (leBytes 4 (min (name e.1).chars.length 256 + 1) ++ nameBuf (name e.1) ++ rest)
        (by simp only [List.append_assoc]) (by omega) rfl
    have hr2 : TraceReader.fread (pre ++ (leBytes 4 (e.2 % 2 ^ 32).toNat ++
        leBytes 4 (min (name e.1).chars.length 256 + 1) ++ nameBuf (name e.1) ++ rest)) (pre.length + 4) 4 =
        min (name e.1).chars.length 256 + 1 :=
      TraceReader.fread_eq (pre ++ leBytes 4 (e.2 % 2 ^ 32).toNat) (nameBuf (name e.1) ++ rest)
        (by simp only [List.append_assoc]) (by omega) (by simp)
    have hb : TraceReader.bytes (pre ++ (leBytes 4 (e.2 % 2 ^ 32).toNat ++
        leBytes 4 (min (name e.1).chars.length 256 + 1) ++ nameBuf (name e.1) ++ rest)) (pre.length + 8)
        (min (name e.1).chars.length 256 + 1) = nameBuf (name e.1) := by
      have h := TraceReader.bytes_eq (pre ++ leBytes 4 (e.2 % 2 ^ 32).toNat ++
        leBytes 4 (min (name e.1).chars.length 256 + 1)) (nameBuf (name e.1)) rest
      rw [hlen] at h
      simpa [List.append_assoc, Nat.add_assoc] using h
    rw [hr1, hr2, hb, line_eq h1 h2]
    refine congrArg (List.cons (nameBuf (name e.1), e.2)) ?_
    have hnext := ih (fun x hx => hline x (List.mem_cons_of_mem e hx))
      (pre ++ leBytes 4 (e.2 % 2 ^ 32).toNat ++ leBytes 4 (min (name e.1).chars.length 256 + 1) ++
        nameBuf (name e.1))
    have hpos : pre.length + 8 + (min (name e.1).chars.length 256 + 1) =
        (pre ++ leBytes 4 (e.2 % 2 ^ 32).toNat ++ leBytes 4 (min (name e.1).chars.length 256 + 1) ++
          nameBuf (name e.1)).length := by
      simp only [List.length_append, length_leBytes, hlen]
    rw [hpos]
    simp only [← List.append_assoc]
    exact hnext

/-! ## The round trip -/

/-- A file as the reader opens it. -/
def reopen (name : F → CStr) (reqs : List (MemReq F × ℕ)) : TraceReader :=
  .openFile ((writeAll reqs).close fun f => (name f).chars)

/-- The source lines by name that the table is promised to keep apart. -/
def firstLines (name : F → CStr) (reqs : List (MemReq F × ℕ)) : List (List ℕ × ℤ) :=
  firstDistinct 255 (reqs.map fun r => ((name r.1.file).chars, r.1.line))

/-- `out` is the request `r` read back: times are in ticks of 1000 units. -/
structure RoundTrips (name : F → CStr) (first : List (List ℕ × ℤ)) (t : TraceReader) (r : MemReq F)
    (out : ReadReq) : Prop where
  ae : out.ae = r.ae
  unit : out.unit = r.unit
  op : out.op = r.op
  host : out.host = r.host
  addr : out.addr = r.addr
  start_le : 1000 * out.startTime ≤ r.startTime + 1000
  start_ge : r.startTime ≤ 1000 * out.startTime + 1000
  comp_le : 1000 * out.compTime ≤ r.compTime + 1000
  comp_ge : r.compTime ≤ 1000 * out.compTime + 1000
  source : ((name r.file).chars, r.line) ∈ first →
    ∃ buf, t.lookupFileLine out.src = some (buf, r.line) ∧ cString buf = some (name r.file).chars

/-- What a request must meet to survive: its address bits 3 to 5 are among bits 6 to 8; rounding the
start time (after tick `k`) and the duration loses at most a tick in sum; its source line has an
entry with its name, of at most 256 characters, and its line. -/
structure Survives (name : F → CStr) (first : List (List ℕ × ℤ)) (table : List (F × ℤ)) (k : ℕ)
    (r : MemReq F) : Prop where
  addr : AddrOk r.addr
  comp : r.startTime + (r.compTime - r.startTime) % 1000 ≤ 1000 * tickAfter k r.startTime + 1000
  source : ((name r.file).chars, r.line) ∈ first → ∃ e, entryOf table (r.file, r.line) = some e ∧
    (name e.1).chars = (name r.file).chars ∧ e.2 = r.line ∧ (name r.file).chars.length ≤ 256

/-- Every request of the sequence meets the condition, each at its tick. -/
def AllSurvive (name : F → CStr) (first : List (List ℕ × ℤ)) (table : List (F × ℤ)) :
    ℕ → List (MemReq F × ℕ) → Prop
  | _, [] => True
  | k, r :: rs => Survives name first table k r.1 ∧ AllSurvive name first table (tickAfter k r.1.startTime) rs

/-- **One request** read back, when its index leads to the entry it was given. -/
theorem roundTrips_iff (name : F → CStr) (first : List (List ℕ × ℤ)) {table : List (F × ℤ)}
    {t : TraceReader} (ht : t.fileLineSpace = table.map fun e => (nameBuf (name e.1), e.2))
    (r : MemReq F) {src : ℕ} (k : ℕ) (hsrc : table[src]? = entryOf table (r.file, r.line)) :
    RoundTrips name first t r (readBack r src (tickAfter k r.startTime)) ↔
      Survives name first table k r := by
  have hstart := r.start_le
  have htick := tickAfter_bounds k r.startTime
  have hdiv := Nat.div_add_mod (r.compTime - r.startTime) 1000
  have haddr := readAddr_eq r.aligned
  have hlook : t.lookupFileLine src =
      (entryOf table (r.file, r.line)).map fun e => (nameBuf (name e.1), e.2) := by
    unfold TraceReader.lookupFileLine
    rw [ht, List.getElem?_map, hsrc]
  constructor
  · intro h
    have hcomp : r.compTime ≤
        1000 * (tickAfter k r.startTime + (r.compTime - r.startTime) / 1000) + 1000 := h.comp_ge
    refine ⟨haddr.1 h.addr, by omega, ?_⟩
    intro hfirst
    obtain ⟨buf, h1, h2⟩ := h.source hfirst
    have h1' : t.lookupFileLine src = some (buf, r.line) := h1
    rw [hlook, Option.map_eq_some_iff] at h1'
    obtain ⟨e, he, hpair⟩ := h1'
    rw [Prod.mk.injEq] at hpair
    rw [← hpair.1, cString_nameBuf] at h2
    split at h2
    · rename_i hlen
      have hname := Option.some.inj h2
      exact ⟨e, he, hname, hpair.2, by rw [← hname]; exact hlen⟩
    · cases h2
  · intro h
    have hcomp := h.comp
    exact
      { ae := rfl, unit := rfl, op := rfl, host := rfl
        addr := haddr.2 h.addr
        start_le := by
          show 1000 * tickAfter k r.startTime ≤ _
          omega
        start_ge := by
          show _ ≤ 1000 * tickAfter k r.startTime + 1000
          omega
        comp_le := by
          show 1000 * (tickAfter k r.startTime + (r.compTime - r.startTime) / 1000) ≤ _
          omega
        comp_ge := by
          show _ ≤ 1000 * (tickAfter k r.startTime + (r.compTime - r.startTime) / 1000) + 1000
          omega
        source := by
          intro hfirst
          obtain ⟨e, he, hname, hline, hlen⟩ := h.source hfirst
          refine ⟨nameBuf (name e.1), ?_, ?_⟩
          · show t.lookupFileLine src = _
            rw [hlook, he, ← hline]
            rfl
          · rw [cString_nameBuf, if_pos (by rw [hname]; exact hlen), hname] }

/-- All requests from a point of the file on. -/
theorem forall_roundTrips_iff (name : F → CStr) {first : List (List ℕ × ℤ)} {t : TraceReader}
    (rs : List (MemReq F × ℕ)) {w : TraceWriter F} {k : ℕ} (hw : TableOk w)
    (ht : t.fileLineSpace =
      ((srcLines rs).foldl (addNew maxFileLineSize) w.fileLineSpace).map fun e => (nameBuf (name e.1), e.2)) :
    List.Forall₂ (RoundTrips name first t) (rs.map Prod.fst) (w.readBacks k rs) ↔
      AllSurvive name first ((srcLines rs).foldl (addNew maxFileLineSize) w.fileLineSpace) k rs := by
  induction rs generalizing w k with
  | nil => exact ⟨fun _ => trivial, fun _ => .nil⟩
  | cons r rs ih =>
    obtain ⟨-, -, -, hget⟩ := lookupSrc_spec hw r.1.file r.1.line
    obtain ⟨htable, hspace⟩ := writeReq_table hw r.1 r.2
    have hfinal := entryOf_final hget (srcLines rs)
    have hfold : (srcLines (r :: rs)).foldl (addNew maxFileLineSize) w.fileLineSpace =
        (srcLines rs).foldl (addNew maxFileLineSize) (w.writeReq r.1 r.2).fileLineSpace := by
      rw [hspace]
      rfl
    rw [← hspace] at hfinal
    rw [hfold] at ht ⊢
    have hone := roundTrips_iff name first ht r.1 k hfinal
    have hrest := ih htable ht (k := tickAfter k r.1.startTime)
    rw [List.map_cons, readBacks, List.forall₂_cons]
    exact and_congr hone hrest

/-- **The round trip of a trace.** Reading a closed file until `ReadReq` returns false yields the
requests written, in order and complete, if and only if each meets `Survives`. -/
theorem trace_round_trip (name : F → CStr) (reqs : List (MemReq F × ℕ)) (m : ℕ) :
    List.Forall₂ (RoundTrips name (firstLines name reqs) (reopen name reqs)) (reqs.map Prod.fst)
        ((reopen name reqs).readAll (reqs.length + 1 + m)) ↔
      AllSurvive name (firstLines name reqs) (firstDistinct maxFileLineSize (srcLines reqs)) 0 reqs := by
  obtain ⟨hrec, hcount, hspace⟩ := foldl_writeReq (TableOk.init (F := F)) reqs
  have hrec' : (writeAll reqs).records = TraceWriter.init.recordsOf reqs := hrec
  have hcount' : (writeAll reqs).memReqCount = reqs.length := by
    unfold writeAll
    rw [hcount]
    exact Nat.zero_add _
  have hspace' : (writeAll reqs).fileLineSpace = firstDistinct maxFileLineSize (srcLines reqs) := hspace
  have hlines : ∀ e ∈ (writeAll reqs).fileLineSpace, -2 ^ 31 ≤ e.2 ∧ e.2 < 2 ^ 31 := by
    intro e he
    rw [hspace'] at he
    rcases mem_foldl he with h | h
    · exact absurd h List.not_mem_nil
    · obtain ⟨r, -, rfl⟩ := List.mem_map.1 h
      exact ⟨r.1.line_ge, r.1.line_lt⟩
  have htable : (reopen name reqs).fileLineSpace =
      (firstDistinct maxFileLineSize (srcLines reqs)).map fun e => (nameBuf (name e.1), e.2) := by
    have h := readFileLines_eq name (writeAll reqs).fileLineSpace hlines (writeAll reqs).records
    rw [← hspace', ← h]
    unfold reopen TraceReader.openFile TraceWriter.close
    simp only [Nat.add_sub_cancel_left]
  have hall : (reopen name reqs).readAll (reqs.length + 1 + m) = TraceWriter.init.readBacks 0 reqs := by
    have hsync : Synced (TraceWriter.init : TraceWriter F) (reopen name reqs) 0 :=
      ⟨rfl, rfl, by omega, rfl, Nat.two_pow_pos 51⟩
    have hbody : (reopen name reqs).file.body = [] ++ TraceWriter.init.recordsOf reqs ++
        ((writeAll reqs).fileLineSpace.map (fileLineBytes fun f => (name f).chars)).flatten := by
      rw [List.nil_append, ← hrec']
      rfl
    have hidx : (reopen name reqs).memReqIdx + reqs.length = (reopen name reqs).file.memReqCount := by
      show 0 + reqs.length = (writeAll reqs).memReqCount
      omega
    exact readAll_eq reqs TableOk.init hsync hbody rfl hidx (by omega)
  rw [hall]
  exact forall_roundTrips_iff name reqs TableOk.init htable

/-- A read of the quadword at address 8. -/
def addrEight : MemReq Unit where
  ae := 0
  unit := 0
  op := 0
  host := 0
  file := ()
  line := 1
  startTime := 0
  compTime := 0
  addr := 8
  ae_lt := by decide
  unit_lt := by decide
  op_lt := by decide
  host_lt := by decide
  line_ge := by decide
  line_lt := by decide
  start_le := by decide
  comp_lt := by decide
  addr_lt := by decide
  aligned := by decide

/-- **A lost address**: address 8 is read back as 72. -/
theorem trace_address_lost :
    ((reopen (fun _ => ⟨[97], by decide⟩) [(addrEight, 0)]).readAll 2).map (·.addr) = [72] ∧
      ¬ List.Forall₂ (RoundTrips (fun _ => ⟨[97], by decide⟩)
          (firstLines (fun _ => ⟨[97], by decide⟩) [(addrEight, 0)])
          (reopen (fun _ => ⟨[97], by decide⟩) [(addrEight, 0)])) [addrEight]
          ((reopen (fun _ => ⟨[97], by decide⟩) [(addrEight, 0)]).readAll 2) := by
  have hread : ((reopen (fun _ => ⟨[97], by decide⟩) [(addrEight, 0)]).readAll 2).map (·.addr) = [72] := by
    decide +kernel
  refine ⟨hread, ?_⟩
  intro h
  cases hout : (reopen (fun _ => ⟨[97], by decide⟩) [(addrEight, 0)]).readAll 2 with
  | nil =>
    rw [hout] at hread
    cases hread
  | cons out outs =>
    rw [hout] at h hread
    obtain ⟨h1, -⟩ := List.forall₂_cons.1 h
    have h72 : out.addr = 72 := (List.cons.inj hread).1
    have h8 : out.addr = 8 := h1.addr
    omega

end OpenHT.Sysc
