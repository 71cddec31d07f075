import Mathlib.Data.List.Induction
import OpenHT.Lib.Span

/-!
# The address ranges of the memory models

`CMemTrace` keeps the allocated address ranges in a map whose keys are the ranges. A new range takes in the ranges it
overlaps or touches, and gives its own flag to all of them.

* `insert`, `find`: the map.
* `setAddressRange`, `isValidAddress`: the calls, which round ranges out to 64 bytes.
* `Gapped`: there is a gap between any two keys.
* `address_map_exact`: what is found, after any calls.
-/

namespace OpenHT.Sysc.AddrRange

/-- `uint64_t` arithmetic. -/
def u64 (x : ℕ) : ℕ := x % 18446744073709551616

theorem u64_of_lt {x : ℕ} (h : x < 18446744073709551616) : u64 x = x := Nat.mod_eq_of_lt h

/-! ## The map -/

structure CAddrRange where
  base : ℕ
  size : ℕ
deriving DecidableEq, Repr

/-- `m_base + m_size` -/
def CAddrRange.limit (r : CAddrRange) : ℕ := u64 (r.base + r.size)

def addrRangeCmp (a b : CAddrRange) : Bool := a.limit ≤ b.base

/-- The ranges and their flags, in the order of the map. -/
abbrev AddrRangeMap := List (CAddrRange × Bool)

/-- The loop of `Insert`: what is left of the map, and the range `[b, e)` with all ranges that it erased. -/
def absorb : (b e : ℕ) → AddrRangeMap → AddrRangeMap × ℕ × ℕ
  | b, e, [] => ([], b, e)
  | b, e, i :: m =>
    if e < i.1.base then (i :: m, b, e)
    else if i.1.limit < b then
      let r := absorb b e m
      (i :: r.1, r.2)
    else absorb (min b i.1.base) (max e i.1.limit) m

/-- `std::map::insert`: a key that is neither before nor behind a key of the map is not added. -/
def mapInsert (k : CAddrRange) (bCoproc : Bool) : AddrRangeMap → AddrRangeMap
  | [] => [(k, bCoproc)]
  | i :: m =>
    if addrRangeCmp i.1 k then i :: mapInsert k bCoproc m
    else if addrRangeCmp k i.1 then (k, bCoproc) :: i :: m
    else i :: m

def insert (m : AddrRangeMap) (base size : ℕ) (bCoproc : Bool) : AddrRangeMap :=
  let r := absorb base (u64 (base + size)) m
  mapInsert ⟨r.2.1, u64 (r.2.2 + 18446744073709551616 - r.2.1)⟩ bCoproc r.1

/-- `Find`, with the flag that it returns through `bCoproc`. -/
def find (m : AddrRangeMap) (addr : ℕ) : Option Bool :=
  match m.find? fun i => !addrRangeCmp i.1 ⟨addr, 0⟩ with
  | some i => if i.1.base ≤ addr ∧ addr < i.1.limit then some i.2 else none
  | none => none

/-! ## The calls -/

/-- The arguments of `SetAddressRange`. -/
structure RangeCall where
  pBase : ℕ
  size : ℕ
  bCoproc : Bool
  bSystemcAddressValidation : Bool
deriving DecidableEq, Repr

/-- The members of `CMemTrace` that the calls use. -/
structure CMemTrace where
  addrRangeMap : AddrRangeMap
  bSystemcAddressValidation : Bool

def setAddressRange (t : CMemTrace) (c : RangeCall) : CMemTrace :=
  let low := c.pBase % 64
  let size := u64 (u64 (c.size + low) + 63) / 64 * 64
  { bSystemcAddressValidation := t.bSystemcAddressValidation || c.bSystemcAddressValidation
    addrRangeMap := insert t.addrRangeMap (c.pBase - low) size c.bCoproc }

def isValidAddress (t : CMemTrace) (addr : ℕ) : Option Bool := find t.addrRangeMap addr

/-- The trace object after some calls. -/
def run (calls : List RangeCall) : CMemTrace := calls.foldl setAddressRange ⟨[], false⟩

/-! ## What the calls say -/

/-- A range rounded out to 64-byte boundaries. -/
def RangeCall.span (c : RangeCall) : Span ℕ := ⟨c.pBase / 64 * 64, (c.pBase + c.size + 63) / 64 * 64⟩

/-- The end of the rounded range is an address. -/
def RangeCall.NoWrap (c : RangeCall) : Prop := c.span.hi < 18446744073709551616

instance (c : RangeCall) : Decidable c.NoWrap := inferInstanceAs (Decidable (_ < _))

/-- The flag of the most recent range with an address, if it is in one. -/
def latest (calls : List RangeCall) (addr : ℕ) : Option Bool :=
  (calls.reverse.find? fun c => decide (c.span.Has addr)).map RangeCall.bCoproc

/-- The addresses of a key. -/
def CAddrRange.span (r : CAddrRange) : Span ℕ := ⟨r.base, r.limit⟩

/-- A range that the call takes in has its flag, or lies within the range of the call. -/
def SameFlags (t : CMemTrace) (c : RangeCall) : Prop :=
  ∀ i ∈ t.addrRangeMap, c.span.Meets i.1.span → i.2 = c.bCoproc ∨ c.span.Covers i.1.span

/-! ## The keys -/

/-- A gap lies between any two keys, and no key wraps. -/
structure Gapped (m : AddrRangeMap) : Prop where
  gaps : m.Pairwise fun i j => i.1.span.Before j.1.span
  noWrap : ∀ i ∈ m, i.1.base + i.1.size < 18446744073709551616

namespace Gapped

variable {m : AddrRangeMap} {i : CAddrRange × Bool}

theorem nil : Gapped [] := ⟨List.Pairwise.nil, fun _ h => absurd h List.not_mem_nil⟩

theorem tail (h : Gapped (i :: m)) : Gapped m :=
  ⟨(List.pairwise_cons.1 h.gaps).2, fun j hj => h.noWrap j (List.mem_cons_of_mem i hj)⟩

theorem head_before (h : Gapped (i :: m)) {j : CAddrRange × Bool} (hj : j ∈ m) : i.1.span.Before j.1.span :=
  (List.pairwise_cons.1 h.gaps).1 j hj

theorem limit_eq (h : Gapped m) (hi : i ∈ m) : i.1.limit = i.1.base + i.1.size := u64_of_lt (h.noWrap i hi)

theorem base_le (h : Gapped m) (hi : i ∈ m) : i.1.span.lo ≤ i.1.span.hi := by
  show i.1.base ≤ i.1.limit
  rw [h.limit_eq hi]
  omega

theorem limit_lt (h : Gapped m) (hi : i ∈ m) : i.1.limit < 18446744073709551616 := by
  rw [h.limit_eq hi]
  exact h.noWrap i hi

theorem cons (h : Gapped m) (hi : i.1.base + i.1.size < 18446744073709551616)
    (hb : ∀ j ∈ m, i.1.span.Before j.1.span) : Gapped (i :: m) := by
  refine ⟨List.pairwise_cons.2 ⟨hb, h.gaps⟩, ?_⟩
  intro j hj
  rcases List.mem_cons.1 hj with rfl | hj
  · exact hi
  · exact h.noWrap j hj

/-- **Lookup.** -/
theorem find_eq_some (h : Gapped m) {addr : ℕ} {bCoproc : Bool} :
    find m addr = some bCoproc ↔ ∃ i ∈ m, i.1.span.Has addr ∧ i.2 = bCoproc := by
  induction m with
  | nil => simp [find]
  | cons i m ih =>
    by_cases hcmp : addrRangeCmp i.1 ⟨addr, 0⟩ = true
    · -- the key ends at or before the address
      have hskip : find (i :: m) addr = find m addr := by simp [find, hcmp]
      have hout : ¬i.1.span.Has addr := by
        rintro ⟨-, hlt⟩
        have hle : i.1.limit ≤ addr := of_decide_eq_true hcmp
        exact absurd hlt (not_lt_of_ge hle)
      rw [hskip, ih h.tail]
      simp [hout]
    · have hhere : find (i :: m) addr = if i.1.base ≤ addr ∧ addr < i.1.limit then some i.2 else none := by
        simp [find, hcmp]
      have hlt : addr < i.1.limit := by
        rw [Bool.not_eq_true] at hcmp
        exact lt_of_not_ge (of_decide_eq_false hcmp)
      -- the keys behind start behind the end of this one
      have hrest : ∀ j ∈ m, ¬j.1.span.Has addr := by
        rintro j hj ⟨hle, -⟩
        have hb : i.1.limit < j.1.base := h.head_before hj
        have hle' : j.1.base ≤ addr := hle
        omega
      rw [hhere]
      constructor
      · intro hf
        split at hf
        · rename_i hin
          exact ⟨i, List.mem_cons_self, hin, Option.some.inj hf⟩
        · cases hf
      · rintro ⟨j, hj, hhas, hflag⟩
        rcases List.mem_cons.1 hj with rfl | hj
        · have hin : j.1.base ≤ addr ∧ addr < j.1.limit := hhas
          rw [if_pos hin, hflag]
        · exact absurd hhas (hrest j hj)

end Gapped

/-! ## A new range -/

/-- What the loop of `Insert` leaves: the keys that do not meet `s`, and the span that covers `s` and the others. -/
structure Absorbed (m : AddrRangeMap) (s : Span ℕ) (m' : AddrRangeMap) (s' : Span ℕ) : Prop where
  sub : m'.Sublist m
  rest : ∀ i, i ∈ m' ↔ i ∈ m ∧ ¬s.Meets i.1.span
  apart : ∀ i ∈ m', i.1.span.Before s' ∨ s'.Before i.1.span
  le : s'.lo ≤ s'.hi
  lt : s'.hi < 18446744073709551616
  /-- It starts where `s` or a key does. -/
  lo : ∀ x, x < s.lo → (∀ i ∈ m, x < i.1.span.lo) → x < s'.lo
  has : ∀ a, s'.Has a ↔ s.Has a ∨ ∃ i ∈ m, s.Meets i.1.span ∧ i.1.span.Has a

/-- Behind a key that meets `s`, the same keys meet `s` and the join. -/
theorem meets_join {s t u : Span ℕ} (hst : s.Meets t) (htu : t.Before u) (ht : t.lo ≤ t.hi) (hu : u.lo ≤ u.hi) :
    (s.join t).Meets u ↔ s.Meets u := by
  unfold Span.Meets Span.join Span.Before at *
  simp only []
  omega

theorem absorb_spec {m : AddrRangeMap} (hm : Gapped m) : ∀ {s : Span ℕ}, s.lo ≤ s.hi → s.hi < 18446744073709551616 →
    Absorbed m s (absorb s.lo s.hi m).1 ⟨(absorb s.lo s.hi m).2.1, (absorb s.lo s.hi m).2.2⟩ := by
  induction m with
  | nil =>
    intro s hle hlt
    exact
      { sub := List.Sublist.slnil
        rest := by simp [absorb]
        apart := by simp [absorb]
        le := hle, lt := hlt
        lo := fun x hx _ => hx
        has := by simp [absorb] }
  | cons i m ih =>
    intro s hle hlt
    have hi := hm.base_le List.mem_cons_self
    by_cases hend : s.hi < i.1.base
    · -- all further keys are behind the range
      have habs : absorb s.lo s.hi (i :: m) = (i :: m, s.lo, s.hi) := by
        rw [absorb, if_pos hend]
      have hbehind : ∀ j ∈ i :: m, s.Before j.1.span := by
        intro j hj
        rcases List.mem_cons.1 hj with rfl | hj
        · exact hend
        · exact Span.Before.trans hi hend (hm.head_before hj)
      have hnot : ∀ j ∈ i :: m, ¬s.Meets j.1.span := by
        rintro j hj ⟨-, hmeet⟩
        exact absurd (hbehind j hj) (not_lt_of_ge hmeet)
      rw [habs]
      exact
        { sub := List.Sublist.refl _
          rest := fun j => ⟨fun hj => ⟨hj, hnot j hj⟩, fun h => h.1⟩
          apart := fun j hj => .inr (hbehind j hj)
          le := hle, lt := hlt
          lo := fun x hx _ => hx
          has := by
            intro a
            refine ⟨.inl, ?_⟩
            rintro (h | ⟨j, hj, hmeet, -⟩)
            · exact h
            · exact absurd hmeet (hnot j hj) }
    · by_cases hbefore : i.1.limit < s.lo
      · -- the key stays
        have habs : absorb s.lo s.hi (i :: m) = (i :: (absorb s.lo s.hi m).1, (absorb s.lo s.hi m).2) := by
          rw [absorb, if_neg hend, if_pos hbefore]
        have hnot : ¬s.Meets i.1.span := by
          rintro ⟨hmeet, -⟩
          exact absurd hbefore (not_lt_of_ge hmeet)
        have h := ih hm.tail hle hlt
        rw [habs]
        exact
          { sub := h.sub.cons_cons i
            rest := by
              intro j
              rw [List.mem_cons, h.rest, List.mem_cons]
              constructor
              · rintro (rfl | ⟨hj, hmeet⟩)
                · exact ⟨.inl rfl, hnot⟩
                · exact ⟨.inr hj, hmeet⟩
              · rintro ⟨rfl | hj, hmeet⟩
                · exact .inl rfl
                · exact .inr ⟨hj, hmeet⟩
            apart := by
              intro j hj
              rcases List.mem_cons.1 hj with rfl | hj
              · exact .inl (h.lo j.1.limit hbefore fun k hk => hm.head_before hk)
              · exact h.apart j hj
            le := h.le, lt := h.lt
            lo := fun x hx hk => h.lo x hx fun k hk' => hk k (List.mem_cons_of_mem i hk')
            has := by
              intro a
              rw [h.has a]
              simp [hnot] }
      · -- the key is taken in
        have hmeet : s.Meets i.1.span := ⟨le_of_not_gt hbefore, le_of_not_gt hend⟩
        have habs : absorb s.lo s.hi (i :: m) = absorb (s.join i.1.span).lo (s.join i.1.span).hi m := by
          rw [absorb, if_neg hend, if_neg hbefore]
          rfl
        have hjoin : ∀ j ∈ m, ((s.join i.1.span).Meets j.1.span ↔ s.Meets j.1.span) := fun j hj =>
          meets_join hmeet (hm.head_before hj) hi (hm.base_le (List.mem_cons_of_mem i hj))
        have hle' : (s.join i.1.span).lo ≤ (s.join i.1.span).hi := le_trans (min_le_left _ _) (le_trans hle (le_max_left _ _))
        have hlt' : (s.join i.1.span).hi < 18446744073709551616 := max_lt hlt (hm.limit_lt List.mem_cons_self)
        have h := ih hm.tail hle' hlt'
        rw [habs]
        exact
          { sub := h.sub.cons i
            rest := by
              intro j
              rw [h.rest, List.mem_cons]
              constructor
              · rintro ⟨hj, hn⟩
                exact ⟨.inr hj, fun hs => hn ((hjoin j hj).2 hs)⟩
              · rintro ⟨rfl | hj, hn⟩
                · exact absurd hmeet hn
                · exact ⟨hj, fun hs => hn ((hjoin j hj).1 hs)⟩
            apart := h.apart
            le := h.le, lt := h.lt
            lo := by
              intro x hx hk
              exact h.lo x (lt_min hx (hk i List.mem_cons_self)) fun k hk' => hk k (List.mem_cons_of_mem i hk')
            has := by
              intro a
              rw [h.has a, Span.has_join hmeet]
              constructor
              · rintro ((hs | hi) | ⟨j, hj, hs, ha⟩)
                · exact .inl hs
                · exact .inr ⟨i, List.mem_cons_self, hmeet, hi⟩
                · exact .inr ⟨j, List.mem_cons_of_mem i hj, (hjoin j hj).1 hs, ha⟩
              · rintro (hs | ⟨j, hj, hs, ha⟩)
                · exact .inl (.inl hs)
                · rcases List.mem_cons.1 hj with rfl | hj
                  · exact .inl (.inr ha)
                  · exact .inr ⟨j, hj, (hjoin j hj).2 hs, ha⟩ }

/-- A key with a gap to each key of the map is added at its place. -/
theorem mapInsert_spec {m : AddrRangeMap} (hm : Gapped m) {k : CAddrRange} (hk : k.base + k.size < 18446744073709551616)
    (bCoproc : Bool) (hap : ∀ i ∈ m, i.1.span.Before k.span ∨ k.span.Before i.1.span) :
    Gapped (mapInsert k bCoproc m) ∧ ∀ i, i ∈ mapInsert k bCoproc m ↔ i = (k, bCoproc) ∨ i ∈ m := by
  have hlimit : k.limit = k.base + k.size := u64_of_lt hk
  induction m with
  | nil => exact ⟨Gapped.nil.cons hk fun _ h => absurd h List.not_mem_nil, fun i => by simp [mapInsert]⟩
  | cons i m ih =>
    obtain ⟨hg, hmem⟩ := ih hm.tail fun j hj => hap j (List.mem_cons_of_mem i hj)
    have hi : i.1.base ≤ i.1.limit := hm.base_le List.mem_cons_self
    rcases hap i List.mem_cons_self with hb | hb
    · have hlt : i.1.limit < k.base := hb
      have hins : mapInsert k bCoproc (i :: m) = i :: mapInsert k bCoproc m := by
        rw [mapInsert, if_pos]
        exact decide_eq_true (le_of_lt hlt)
      rw [hins]
      refine ⟨hg.cons (hm.noWrap i List.mem_cons_self) ?_, ?_⟩
      · intro j hj
        rcases (hmem j).1 hj with rfl | hj
        · exact hb
        · exact hm.head_before hj
      · intro j
        rw [List.mem_cons, hmem, List.mem_cons]
        exact or_left_comm
    · have hlt : k.limit < i.1.base := hb
      have hins : mapInsert k bCoproc (i :: m) = (k, bCoproc) :: i :: m := by
        rw [mapInsert, if_neg, if_pos]
        · exact decide_eq_true (le_of_lt hlt)
        · intro hle
          have hle' : i.1.limit ≤ k.base := of_decide_eq_true hle
          omega
      rw [hins]
      refine ⟨hm.cons hk ?_, fun j => List.mem_cons⟩
      intro j hj
      rcases List.mem_cons.1 hj with rfl | hj
      · exact hb
      · exact Span.Before.trans (hm.base_le List.mem_cons_self) hb (hm.head_before hj)

/-- **One insertion.** The keys that the range meets are replaced by one that covers them and the range. -/
theorem insert_spec {m : AddrRangeMap} (hm : Gapped m) {base size : ℕ} (h : base + size < 18446744073709551616)
    (bCoproc : Bool) : Gapped (insert m base size bCoproc) ∧
      ∀ addr flag, find (insert m base size bCoproc) addr = some flag ↔
        (flag = bCoproc ∧ ((⟨base, base + size⟩ : Span ℕ).Has addr ∨
          ∃ i ∈ m, (⟨base, base + size⟩ : Span ℕ).Meets i.1.span ∧ i.1.span.Has addr)) ∨
        ∃ i ∈ m, ¬(⟨base, base + size⟩ : Span ℕ).Meets i.1.span ∧ i.1.span.Has addr ∧ i.2 = flag := by
  have habs := absorb_spec hm (s := ⟨base, base + size⟩) (Nat.le_add_right base size) h
  generalize hr : absorb base (base + size) m = r at habs
  obtain ⟨m', b, e⟩ := r
  have hle : b ≤ e := habs.le
  have hlt : e < 18446744073709551616 := habs.lt
  have hsize : u64 (e + 18446744073709551616 - b) = e - b := by
    unfold u64
    omega
  have hins : insert m base size bCoproc = mapInsert ⟨b, e - b⟩ bCoproc m' := by
    unfold insert
    rw [u64_of_lt h, hr]
    simp only [hsize]
  have hspan : (⟨b, e - b⟩ : CAddrRange).span = ⟨b, e⟩ := by
    have hsum : b + (e - b) = e := by omega
    simp only [CAddrRange.span, CAddrRange.limit, hsum, u64_of_lt hlt]
  have hm' : Gapped m' := ⟨hm.gaps.sublist habs.sub, fun i hi => hm.noWrap i (habs.sub.subset hi)⟩
  have hbound : b + (e - b) < 18446744073709551616 := by omega
  obtain ⟨hg, hmem⟩ := mapInsert_spec hm' (k := ⟨b, e - b⟩) hbound bCoproc (by
    intro i hi
    rw [hspan]
    exact habs.apart i hi)
  rw [hins]
  refine ⟨hg, ?_⟩
  intro addr flag
  rw [hg.find_eq_some]
  constructor
  · rintro ⟨i, hi, hhas, hflag⟩
    rcases (hmem i).1 hi with rfl | hi
    · rw [hspan] at hhas
      exact .inl ⟨hflag.symm, (habs.has addr).1 hhas⟩
    · obtain ⟨hi, hn⟩ := (habs.rest i).1 hi
      exact .inr ⟨i, hi, hn, hhas, hflag⟩
  · rintro (⟨rfl, hhas⟩ | ⟨i, hi, hn, hhas, hflag⟩)
    · refine ⟨_, (hmem _).2 (.inl rfl), ?_, rfl⟩
      rw [hspan]
      exact (habs.has addr).2 hhas
    · exact ⟨i, (hmem i).2 (.inr ((habs.rest i).2 ⟨hi, hn⟩)), hhas, hflag⟩

/-! ## Sequences of calls -/

section

variable {c : RangeCall} {t : CMemTrace} {calls : List RangeCall}

/-- The call inserts the rounded range. -/
theorem setAddressRange_map (h : c.NoWrap) : c.span.lo ≤ c.span.hi ∧ (setAddressRange t c).addrRangeMap =
    insert t.addrRangeMap c.span.lo (c.span.hi - c.span.lo) c.bCoproc := by
  have hhi : (c.pBase + c.size + 63) / 64 * 64 < 18446744073709551616 := h
  have hbase : c.pBase - c.pBase % 64 = c.pBase / 64 * 64 := by omega
  have hsum : u64 (c.size + c.pBase % 64) = c.size + c.pBase % 64 := u64_of_lt (by omega)
  have hsum' : u64 (c.size + c.pBase % 64 + 63) = c.size + c.pBase % 64 + 63 := u64_of_lt (by omega)
  have hsize : (c.size + c.pBase % 64 + 63) / 64 * 64 = (c.pBase + c.size + 63) / 64 * 64 - c.pBase / 64 * 64 := by omega
  refine ⟨?_, ?_⟩
  · show c.pBase / 64 * 64 ≤ (c.pBase + c.size + 63) / 64 * 64
    omega
  · simp only [setAddressRange, RangeCall.span, hbase, hsum, hsum', hsize]

/-- **One call.** -/
theorem setAddressRange_spec (hm : Gapped t.addrRangeMap) (h : c.NoWrap) : Gapped (setAddressRange t c).addrRangeMap ∧
    ∀ addr flag, isValidAddress (setAddressRange t c) addr = some flag ↔
      (flag = c.bCoproc ∧ (c.span.Has addr ∨ ∃ i ∈ t.addrRangeMap, c.span.Meets i.1.span ∧ i.1.span.Has addr)) ∨
      ∃ i ∈ t.addrRangeMap, ¬c.span.Meets i.1.span ∧ i.1.span.Has addr ∧ i.2 = flag := by
  obtain ⟨hle, hmap⟩ := setAddressRange_map (t := t) h
  have hlt : c.span.hi < 18446744073709551616 := h
  have hsum : c.span.lo + (c.span.hi - c.span.lo) = c.span.hi := by omega
  have hspec := @insert_spec _ hm c.span.lo (c.span.hi - c.span.lo) (by omega) c.bCoproc
  rw [hsum, ← hmap] at hspec
  exact hspec

theorem run_append : run (calls ++ [c]) = setAddressRange (run calls) c := by
  unfold run
  rw [List.foldl_append]
  rfl

theorem run_gapped (h : ∀ c ∈ calls, c.NoWrap) : Gapped (run calls).addrRangeMap := by
  induction calls using List.reverseRecOn with
  | nil => exact Gapped.nil
  | append_singleton calls c ih =>
    rw [run_append]
    have hgap := ih fun d hd => h d (List.mem_append_left _ hd)
    exact (setAddressRange_spec hgap (h c (List.mem_append_right _ (List.mem_singleton.2 rfl)))).1

theorem latest_append (addr : ℕ) :
    latest (calls ++ [c]) addr = if c.span.Has addr then some c.bCoproc else latest calls addr := by
  unfold latest
  rw [List.reverse_append]
  by_cases h : c.span.Has addr <;> simp [h]

/-- **The union.** An address is valid if a call has it in its range. -/
theorem isValidAddress_isSome (h : ∀ c ∈ calls, c.NoWrap) (addr : ℕ) :
    (isValidAddress (run calls) addr).isSome = true ↔ ∃ c ∈ calls, c.span.Has addr := by
  induction calls using List.reverseRecOn with
  | nil => simp [run, isValidAddress, find]
  | append_singleton calls c ih =>
    have hcalls : ∀ d ∈ calls, d.NoWrap := fun d hd => h d (List.mem_append_left _ hd)
    have hgap := run_gapped hcalls
    obtain ⟨-, hspec⟩ := setAddressRange_spec hgap (h c (List.mem_append_right _ (List.mem_singleton.2 rfl)))
    have hold : (isValidAddress (run calls) addr).isSome = true ↔ ∃ i ∈ (run calls).addrRangeMap, i.1.span.Has addr := by
      rw [Option.isSome_iff_exists]
      constructor
      · rintro ⟨flag, hf⟩
        obtain ⟨i, hi, hhas, -⟩ := hgap.find_eq_some.1 hf
        exact ⟨i, hi, hhas⟩
      · rintro ⟨i, hi, hhas⟩
        exact ⟨i.2, hgap.find_eq_some.2 ⟨i, hi, hhas, rfl⟩⟩
    have hnew : (isValidAddress (run (calls ++ [c])) addr).isSome = true ↔
        c.span.Has addr ∨ ∃ i ∈ (run calls).addrRangeMap, i.1.span.Has addr := by
      rw [run_append, Option.isSome_iff_exists]
      constructor
      · rintro ⟨flag, hf⟩
        rcases (hspec addr flag).1 hf with ⟨-, hhas | ⟨i, hi, -, hhas⟩⟩ | ⟨i, hi, -, hhas, -⟩
        · exact .inl hhas
        · exact .inr ⟨i, hi, hhas⟩
        · exact .inr ⟨i, hi, hhas⟩
      · rintro (hhas | ⟨i, hi, hhas⟩)
        · exact ⟨c.bCoproc, (hspec addr _).2 (.inl ⟨rfl, .inl hhas⟩)⟩
        · by_cases hmeet : c.span.Meets i.1.span
          · exact ⟨c.bCoproc, (hspec addr _).2 (.inl ⟨rfl, .inr ⟨i, hi, hmeet, hhas⟩⟩)⟩
          · exact ⟨i.2, (hspec addr _).2 (.inr ⟨i, hi, hmeet, hhas, rfl⟩)⟩
    rw [hnew, ← hold, ih hcalls]
    simp only [List.mem_append, List.mem_singleton, or_and_right, exists_or, exists_eq_left]
    exact or_comm

/-- The object answers as the calls say. -/
def Exact (calls : List RangeCall) (t : CMemTrace) : Prop :=
  ∀ addr, addr < 18446744073709551616 → isValidAddress t addr = latest calls addr

/-- A key that the call takes in but does not cover, and that has another flag, gets the wrong one. -/
theorem exact_append (hm : Gapped t.addrRangeMap) (h : c.NoWrap) (hex : Exact calls t) :
    Exact (calls ++ [c]) (setAddressRange t c) ↔ SameFlags t c := by
  obtain ⟨-, hspec⟩ := setAddressRange_spec hm h
  constructor
  · intro hexact i hi hmeet
    by_cases hcov : c.span.Covers i.1.span
    · exact .inr hcov
    · -- an address of the key outside the range of the call
      have hne : i.1.span.lo < i.1.span.hi := by
        refine lt_of_le_of_ne (hm.base_le hi) ?_
        intro he
        exact hcov ⟨by rw [he]; exact hmeet.1, by rw [← he]; exact hmeet.2⟩
      obtain ⟨a, ha, hout⟩ := Span.exists_outside hne hcov
      have halt : a < 18446744073709551616 := lt_trans ha.2 (hm.limit_lt hi)
      have hold : latest calls a = some i.2 := by
        rw [← hex a halt]
        exact hm.find_eq_some.2 ⟨i, hi, ha, rfl⟩
      have hnew := hexact a halt
      rw [latest_append, if_neg hout, hold, (hspec a c.bCoproc).2 (.inl ⟨rfl, .inr ⟨i, hi, hmeet, ha⟩⟩)] at hnew
      exact .inl (Option.some.inj hnew).symm
  · intro hsame addr haddr
    rw [latest_append]
    by_cases hhas : c.span.Has addr
    · rw [if_pos hhas]
      exact (hspec addr _).2 (.inl ⟨rfl, .inl hhas⟩)
    · rw [if_neg hhas, ← hex addr haddr]
      ext flag
      refine (hspec addr flag).trans (Iff.trans ?_ hm.find_eq_some.symm)
      constructor
      · rintro (⟨rfl, hin | ⟨i, hi, hmeet, ha⟩⟩ | ⟨i, hi, -, ha, hflag⟩)
        · exact absurd hin hhas
        · refine ⟨i, hi, ha, (hsame i hi hmeet).resolve_right ?_⟩
          intro hcov
          exact hhas ⟨le_trans hcov.1 ha.1, lt_of_lt_of_le ha.2 hcov.2⟩
        · exact ⟨i, hi, ha, hflag⟩
      · rintro ⟨i, hi, ha, rfl⟩
        by_cases hmeet : c.span.Meets i.1.span
        · have hflag : i.2 = c.bCoproc := by
            refine (hsame i hi hmeet).resolve_right ?_
            intro hcov
            exact hhas ⟨le_trans hcov.1 ha.1, lt_of_lt_of_le ha.2 hcov.2⟩
          exact .inl ⟨hflag, .inr ⟨i, hi, hmeet, ha⟩⟩
        · exact .inr ⟨i, hi, hmeet, ha, rfl⟩

end

/-- **The address map.** After any calls an address is valid exactly if it is in the union of their rounded ranges. The
flag is that of the most recent range with the address, after each of the calls, if and only if every call takes in only
ranges of its own flag or ranges that lie within its own. -/
theorem address_map_exact (calls : List RangeCall) (h : ∀ c ∈ calls, c.NoWrap) :
    (∀ p, p <+: calls → ∀ addr, (isValidAddress (run p) addr).isSome = true ↔ ∃ c ∈ p, c.span.Has addr) ∧
      ((∀ p, p <+: calls → Exact p (run p)) ↔ ∀ p c, p ++ [c] <+: calls → SameFlags (run p) c) := by
  refine ⟨fun p hp => isValidAddress_isSome fun c hc => h c (hp.subset hc), ?_⟩
  constructor
  · intro hexact p c hp
    have hp' : p <+: calls := (List.prefix_append p [c]).trans hp
    have hgap := run_gapped fun d hd => h d (hp'.subset hd)
    have hc := h c (hp.subset (List.mem_append_right _ (List.mem_singleton.2 rfl)))
    have hnext := hexact _ hp
    rw [run_append] at hnext
    exact (exact_append hgap hc (hexact p hp')).1 hnext
  · intro hsame p
    induction p using List.reverseRecOn with
    | nil =>
      intro _ addr _
      rfl
    | append_singleton p c ih =>
      intro hp
      have hp' : p <+: calls := (List.prefix_append p [c]).trans hp
      have hgap := run_gapped fun d hd => h d (hp'.subset hd)
      have hc := h c (hp.subset (List.mem_append_right _ (List.mem_singleton.2 rfl)))
      rw [run_append]
      exact (exact_append hgap hc (ih hp')).2 (hsame p c hp)

theorem address_map_exact_two :
    (isValidAddress (run [⟨100, 200, true, false⟩, ⟨1000, 8, false, true⟩]) 320).isSome = true ↔
      ∃ c ∈ [(⟨100, 200, true, false⟩ : RangeCall), ⟨1000, 8, false, true⟩], c.span.Has 320 :=
  (address_map_exact [⟨100, 200, true, false⟩, ⟨1000, 8, false, true⟩] (by decide)).1 _ (List.prefix_refl _) 320

/-- A host range and a coprocessor range that touch: the host range gets the flag of the other. -/
theorem flag_of_touching_range :
    ¬∀ calls : List RangeCall, (∀ c ∈ calls, c.NoWrap) → Exact calls (run calls) := by
  intro hall
  have h := hall [⟨0, 64, false, false⟩, ⟨64, 64, true, false⟩] (by decide) 0 (by decide)
  revert h
  decide

end OpenHT.Sysc.AddrRange
