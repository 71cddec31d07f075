import Mathlib.Data.Finset.Card
import Mathlib.Data.Finset.Range
import OpenHT.Htl.StructElemNames

/-!
# The packed width of a record

`GetPackedBitWidth` sorts the spans of bits of the elements by their starts and adds up the lengths of what they make
when spans that overlap or touch are joined.

* `insertSpan`, `scanSpans`: the sorted list and the sum.
* `covered`: the bits of some spans.
* `scanSpans_eq`: the sum is the number of bits, in whatever order the spans come.
* `packed_width_exact`: so is the packed width, where the iterator gets through the record.
-/

namespace OpenHT.Htl.StructElem

/-! ## The function -/

structure CSpan where
  fst : ℤ
  lst : ℤ
deriving DecidableEq, Repr

/-- A span goes before the first one that does not start before it. -/
def insertSpan (spanList : List CSpan) (s : CSpan) : List CSpan :=
  match spanList with
  | [] => [s]
  | t :: l => if t.fst < s.fst then t :: insertSpan l s else s :: t :: l

/-- The two loops over the sorted list, from a span on. Where the inner one stops, the outer one goes on. -/
def scanFrom (fst lst : ℤ) : List CSpan → ℤ
  | [] => lst - fst + 1
  | t :: l => if t.fst ≤ lst + 1 then scanFrom fst (max t.lst lst) l else (lst - fst + 1) + scanFrom t.fst t.lst l

def scanSpans : List CSpan → ℤ
  | [] => 0
  | s :: l => scanFrom s.fst s.lst l

/-- The span of the element an iterator is at. -/
def elemSpan (typeWidth : ℕ) (s : CStack) : CSpan :=
  ⟨s.getHeirFieldPos, s.getHeirFieldPos + s.getWidth typeWidth - 1⟩

/-- `GetPackedBitWidth` of a record whose iterator sees the states `l`. `m_packedBitWidth` is what an earlier call has
left, or -1. -/
def getPackedBitWidth (typeWidth : ℕ) (l : List CStack) (packedBitWidth : ℤ) : ℤ :=
  if packedBitWidth > 0 then packedBitWidth
  else scanSpans ((l.map (elemSpan typeWidth)).foldl insertSpan [])

/-! ## The bits -/

/-- The bits of a span. -/
def CSpan.bits (s : CSpan) : Finset ℤ := (Finset.range (s.lst + 1 - s.fst).toNat).image fun (k : ℕ) => s.fst + (k : ℤ)

theorem CSpan.mem_bits {s : CSpan} {b : ℤ} : b ∈ s.bits ↔ s.fst ≤ b ∧ b ≤ s.lst := by
  unfold bits
  rw [Finset.mem_image]
  constructor
  · rintro ⟨k, hk, rfl⟩
    have := Finset.mem_range.1 hk
    omega
  · rintro ⟨h1, h2⟩
    exact ⟨(b - s.fst).toNat, Finset.mem_range.2 (by omega), by omega⟩

theorem CSpan.card_bits {s : CSpan} (h : s.fst ≤ s.lst + 1) : (s.bits.card : ℤ) = s.lst - s.fst + 1 := by
  have hinj : Function.Injective fun k : ℕ => s.fst + (k : ℤ) := by
    intro i j hij
    have hij' : s.fst + (i : ℤ) = s.fst + (j : ℤ) := hij
    omega
  rw [bits, Finset.card_image_of_injective _ hinj, Finset.card_range]
  omega

/-- The bits that are in at least one of some spans. -/
def covered : List CSpan → Finset ℤ
  | [] => ∅
  | s :: l => s.bits ∪ covered l

theorem mem_covered {l : List CSpan} {b : ℤ} : b ∈ covered l ↔ ∃ s ∈ l, s.fst ≤ b ∧ b ≤ s.lst := by
  induction l with
  | nil => simp [covered]
  | cons s l ih => simp [covered, CSpan.mem_bits, ih]

theorem mem_insertSpan {l : List CSpan} {s t : CSpan} : t ∈ insertSpan l s ↔ t = s ∨ t ∈ l := by
  induction l with
  | nil => simp [insertSpan]
  | cons u l ih =>
    unfold insertSpan
    split
    · rw [List.mem_cons, ih, List.mem_cons]
      exact or_left_comm
    · exact List.mem_cons

theorem insertSpan_sorted {l : List CSpan} (h : l.Pairwise fun s t => s.fst ≤ t.fst) (s : CSpan) :
    (insertSpan l s).Pairwise fun s t => s.fst ≤ t.fst := by
  induction l with
  | nil => exact List.pairwise_singleton _ _
  | cons u l ih =>
    obtain ⟨hu, hl⟩ := List.pairwise_cons.1 h
    unfold insertSpan
    split
    · rename_i hlt
      refine List.pairwise_cons.2 ⟨?_, ih hl⟩
      intro t ht
      rcases mem_insertSpan.1 ht with rfl | ht
      · exact le_of_lt hlt
      · exact hu t ht
    · rename_i hge
      refine List.pairwise_cons.2 ⟨?_, h⟩
      intro t ht
      rcases List.mem_cons.1 ht with rfl | ht
      · omega
      · have := hu t ht
        omega

/-- The list that is built has the spans, and is sorted by their starts. -/
theorem spanList_spec (l : List CSpan) : ∀ acc : List CSpan, (acc.Pairwise fun s t => s.fst ≤ t.fst) →
    ((l.foldl insertSpan acc).Pairwise fun s t => s.fst ≤ t.fst) ∧ ∀ t, t ∈ l.foldl insertSpan acc ↔ t ∈ l ∨ t ∈ acc := by
  induction l with
  | nil => exact fun acc h => ⟨h, fun t => by simp⟩
  | cons s l ih =>
    intro acc h
    obtain ⟨hsorted, hmem⟩ := ih (insertSpan acc s) (insertSpan_sorted h s)
    refine ⟨hsorted, fun t => ?_⟩
    rw [List.foldl_cons, hmem, mem_insertSpan, List.mem_cons, or_assoc, or_left_comm]

/-- **The scan.** Behind a span it counts each bit of it, and of the sorted spans that follow, once. -/
theorem scanFrom_eq : ∀ (l : List CSpan) (fst lst : ℤ), fst ≤ lst + 1 → (∀ t ∈ l, t.fst ≤ t.lst + 1) →
    (∀ t ∈ l, fst ≤ t.fst) → (l.Pairwise fun s t => s.fst ≤ t.fst) →
    scanFrom fst lst l = ((⟨fst, lst⟩ : CSpan).bits ∪ covered l).card := by
  intro l
  induction l with
  | nil =>
    intro fst lst hle _ _ _
    have hcard : ((⟨fst, lst⟩ : CSpan).bits.card : ℤ) = lst - fst + 1 := CSpan.card_bits hle
    rw [scanFrom, covered, Finset.union_empty, hcard]
  | cons t l ih =>
    intro fst lst hle hwf hfst hsorted
    obtain ⟨ht, hl⟩ := List.pairwise_cons.1 hsorted
    have hwft := hwf t List.mem_cons_self
    have hwfl : ∀ u ∈ l, u.fst ≤ u.lst + 1 := fun u hu => hwf u (List.mem_cons_of_mem t hu)
    have hft := hfst t List.mem_cons_self
    by_cases hmerge : t.fst ≤ lst + 1
    · -- the two spans have no gap between them
      have hjoin : (⟨fst, lst⟩ : CSpan).bits ∪ covered (t :: l) = (⟨fst, max t.lst lst⟩ : CSpan).bits ∪ covered l := by
        rw [covered, ← Finset.union_assoc]
        congr 1
        ext b
        simp only [Finset.mem_union, CSpan.mem_bits]
        omega
      rw [scanFrom, if_pos hmerge, hjoin]
      exact ih fst (max t.lst lst) (by omega) hwfl (fun u hu => hfst u (List.mem_cons_of_mem t hu)) hl
    · -- all further bits are behind the gap
      have hdisj : Disjoint (⟨fst, lst⟩ : CSpan).bits (covered (t :: l)) := by
        rw [Finset.disjoint_left]
        intro b hb hcov
        have hlst : b ≤ lst := (CSpan.mem_bits.1 hb).2
        obtain ⟨u, hu, hub, -⟩ := mem_covered.1 hcov
        have htu : t.fst ≤ u.fst := by
          rcases List.mem_cons.1 hu with rfl | hu
          · exact le_rfl
          · exact ht u hu
        omega
      have hcard : ((⟨fst, lst⟩ : CSpan).bits.card : ℤ) = lst - fst + 1 := CSpan.card_bits hle
      have hrest := ih t.fst t.lst hwft hwfl ht hl
      rw [scanFrom, if_neg hmerge, Finset.card_union_of_disjoint hdisj, Nat.cast_add, hcard, hrest]
      rfl

/-- **Any list of spans.** The sum over the sorted list is the number of bits in the spans. -/
theorem scanSpans_eq (l : List CSpan) (h : ∀ s ∈ l, s.fst ≤ s.lst + 1) :
    scanSpans (l.foldl insertSpan []) = (covered l).card := by
  obtain ⟨hsorted, hmem⟩ := spanList_spec l [] List.Pairwise.nil
  have hmem' : ∀ t, t ∈ l.foldl insertSpan [] ↔ t ∈ l := fun t => by simp [hmem t]
  have hcov : covered (l.foldl insertSpan []) = covered l := by
    ext b
    simp only [mem_covered, hmem']
  rw [← hcov]
  cases hs : l.foldl insertSpan [] with
  | nil => rfl
  | cons s r =>
    rw [hs] at hsorted hmem'
    obtain ⟨hfst, hr⟩ := List.pairwise_cons.1 hsorted
    have hwf : ∀ t ∈ s :: r, t.fst ≤ t.lst + 1 := fun t ht => h t ((hmem' t).1 ht)
    exact scanFrom_eq r s.fst s.lst (hwf s List.mem_cons_self) (fun t ht => hwf t (List.mem_cons_of_mem s ht)) hfst hr

/-- The width is not negative, so the span of an element is one. -/
theorem elemSpan_wf (typeWidth : ℕ) (s : CStack) : (elemSpan typeWidth s).fst ≤ (elemSpan typeWidth s).lst + 1 := by
  unfold elemSpan
  simp only
  omega

/-- Each call gives the number of bits: what is stored is the result of the call before. -/
theorem getPackedBitWidth_iterate (typeWidth : ℕ) (l : List CStack) (n : ℕ) :
    (getPackedBitWidth typeWidth l)^[n + 1] (-1) = (covered (l.map (elemSpan typeWidth))).card := by
  have hscan : scanSpans ((l.map (elemSpan typeWidth)).foldl insertSpan []) =
      (covered (l.map (elemSpan typeWidth))).card := by
    apply scanSpans_eq
    intro s hs
    obtain ⟨t, -, rfl⟩ := List.mem_map.1 hs
    exact elemSpan_wf typeWidth t
  induction n with
  | zero =>
    rw [Function.iterate_one, getPackedBitWidth, if_neg (by decide), hscan]
  | succ n ih =>
    rw [Function.iterate_succ_apply', ih, getPackedBitWidth, hscan]
    split <;> rfl

/-- Every call of `GetPackedBitWidth` returns the number of bits that are in an element the iterator reports. -/
def PackedExact (typeWidth : ℕ) (fields : Fields) : Prop :=
  ∃ r l, start ⟨true, true⟩ fields = some r ∧ Visits ⟨true, true⟩ r l ∧
    ∀ n, (getPackedBitWidth typeWidth l)^[n + 1] (-1) = (covered (l.map (elemSpan typeWidth))).card

/-- **The packed width.** It is the number of bits in use exactly if the iterator can enter every record among the
fields. -/
theorem packed_width_exact (typeWidth : ℕ) (fields : Fields) :
    PackedExact typeWidth fields ↔ Enterable ⟨true, true⟩ fields := by
  rw [← visits_iff rfl]
  constructor
  · rintro ⟨r, l, hr, hl, -⟩
    exact ⟨r, l, hr, hl⟩
  · rintro ⟨r, l, hr, hl⟩
    exact ⟨r, l, hr, hl, getPackedBitWidth_iterate typeWidth l⟩

/-- An array of 100001 records: the text of the last index has eight characters. -/
theorem index_overflows : ¬∀ (typeWidth : ℕ) (fields : Fields), PackedExact typeWidth fields := by
  intro hall
  obtain ⟨r, l, hr, hl, -⟩ := hall 800008
    (.record ⟨['a'], 8, [100001], 0, by decide⟩ (.int ⟨['x'], 8, [], 0, by decide⟩ (-1) .nil) .nil)
  obtain ⟨hrec, -⟩ := (visits_iff rfl _).1 ⟨r, l, hr, hl⟩
  obtain ⟨-, -, hdims⟩ := hrec rfl
  have := hdims 100001 List.mem_cons_self
  omega

end OpenHT.Htl.StructElem
