import OpenHT.Htfe.DimenIter
import OpenHT.Htl.StructElemNames

/-!
# The elements of an array member

`InsertArrayElements` enters the elements of an array into the table of its members and gives them their positions in
the structure. Its loop counts from the first index on, everything else from the last one.

* `insertArrayElements`: the loop, and the elements it creates.
* `colElems`, `colOffset`: the index vectors in the order of this loop, and their places in it.
* `insert_returns`: what the loop creates.
* `one_order_iff`: the arrays whose elements have their positions in the order of their numbers.
-/

namespace OpenHT.Htfe.ArrayElems

open Odometer RowMajor Fuel Dimen

abbrev Str := List Char

/-- An element: its index vector, its name, and its position in the structure if it has one. -/
structure Elem where
  index : List ℕ
  name : Str
  structPos : Option ℤ
deriving DecidableEq, Repr

/-- The loop over `iterList`: the next index vector, and whether every index has started again. -/
def nextIter : List ℕ → Step (List ℕ)
  | d :: ds, i :: is => if i + 1 = d then (0 :: (nextIter ds is).1, (nextIter ds is).2) else ((i + 1) :: is, false)
  | _, is => (is, true)

/-- The element with the index vector `iterList`. -/
def newElem (name : Str) (structBitPos : ℤ) (iterList : List ℕ) : Elem :=
  ⟨iterList, name ++ Htl.StructElem.indexText iterList, if 0 ≤ structBitPos then some structBitPos else none⟩

/-- The body of the loop, with `structBitPos` and the elements so far. -/
def insertBody (name : Str) (width : ℕ) (s : ℤ × List Elem) (iterList : List ℕ) : (ℤ × List Elem) × Bool :=
  ((if 0 ≤ s.1 then s.1 + width else s.1, s.2 ++ [newElem name s.1 iterList]), false)

/-- `InsertArrayElements` -/
def insertArrayElements (name : Str) (dimenList : List ℕ) (width : ℕ) (structBitPos : ℤ) (n : ℕ) :
    Option (List Elem) :=
  (loop (nextIter dimenList) (insertBody name width) n (zeros dimenList) (structBitPos, [])).map (·.2)

/-! ## The order of the loop -/

/-- The index vectors, the first index counting fastest. -/
def colElems : List ℕ → List (List ℕ)
  | [] => [[]]
  | d :: ds => ((colElems ds).product (List.range d)).map fun p => p.2 :: p.1

attribute [local simp] colElems

/-- The place of an index vector in this order. -/
def colOffset : List ℕ → List ℕ → ℕ
  | d :: ds, i :: is => colOffset ds is * d + i
  | _, _ => 0

attribute [local simp] colOffset

section

variable {dims idx : List ℕ}

theorem mem_colElems : idx ∈ colElems dims ↔ InRange dims idx := by
  induction dims generalizing idx with
  | nil =>
    cases idx with
    | nil => exact iff_of_true List.mem_cons_self trivial
    | cons i is => exact iff_of_false (by simp [colElems]) (fun h => h)
  | cons d ds ih =>
    rw [colElems, List.mem_map]
    cases idx with
    | nil => exact iff_of_false (by simp) (fun h => h)
    | cons i is =>
      constructor
      · rintro ⟨⟨js, j⟩, hmem, heq⟩
        obtain ⟨rfl, rfl⟩ := List.cons.inj heq
        obtain ⟨hjs, hj⟩ := List.pair_mem_product.1 hmem
        exact ⟨List.mem_range.1 hj, ih.1 hjs⟩
      · exact fun h => ⟨(is, i), List.pair_mem_product.2 ⟨ih.2 h.2, List.mem_range.2 h.1⟩, rfl⟩

theorem colElems_nodup (dims : List ℕ) : (colElems dims).Nodup := by
  induction dims with
  | nil => exact List.nodup_singleton _
  | cons d ds ih =>
    refine (ih.product List.nodup_range).map fun p q h => ?_
    obtain ⟨h₁, h₂⟩ := List.cons.inj h
    exact Prod.ext h₂ h₁

theorem colElems_offset (dims : List ℕ) : (colElems dims).map (colOffset dims) = List.range (RowMajor.count dims) := by
  induction dims with
  | nil => rfl
  | cons d ds ih =>
    rw [List.range_eq_range'] at ih
    have hprod := map_product_range ih (List.map_id (List.range d))
    rw [Nat.zero_mul, Nat.mul_comm, ← List.range_eq_range'] at hprod
    rw [colElems, List.map_map]
    exact hprod

/-- **The loop goes through all index vectors.** -/
theorem nextIter_cycle (hd : ∀ d ∈ dims, 0 < d) : Cycle (nextIter dims) (colElems dims) := by
  induction dims with
  | nil => exact rfl
  | cons d ds ih =>
    have hrest := ih fun e he => hd e (List.mem_cons_of_mem _ he)
    refine (carry_cycle hrest (count_cycle (hd d List.mem_cons_self))).map fun p hp => ?_
    have hlt : p.2 < d := List.mem_range.1 (List.pair_mem_product.1 hp).2
    unfold nextIter carry
    by_cases hlast : p.2 + 1 = d
    · have hcount : Odometer.count d p.2 = (0, true) := if_neg (by omega)
      rw [if_pos hlast, hcount]
      rfl
    · have hcount : Odometer.count d p.2 = (p.2 + 1, false) := if_pos (by omega)
      rw [if_neg hlast, hcount]
      rfl

theorem colElems_head (hd : ∀ d ∈ dims, 0 < d) : (colElems dims).head? = some (zeros dims) := by
  induction dims with
  | nil => rfl
  | cons d ds ih =>
    obtain ⟨k, hk⟩ := List.head?_eq_some_iff.1 (ih fun e he => hd e (List.mem_cons_of_mem _ he))
    obtain ⟨n, rfl⟩ : ∃ n, d = n + 1 := ⟨d - 1, by have := hd d List.mem_cons_self; omega⟩
    rw [colElems, hk, List.range_succ_eq_map]
    rfl

end

/-! ## What is created -/

section

variable {dims idx : List ℕ} {name : Str} {width : ℕ} {structBitPos : ℤ}

/-- The element number `k` of the loop. -/
def elemAt (name : Str) (width : ℕ) (structBitPos : ℤ) (k : ℕ) (idx : List ℕ) : Elem :=
  newElem name (if 0 ≤ structBitPos then structBitPos + k * width else structBitPos) idx

/-- Positions go on by the width of an element. -/
theorem insertBody_foldl {l : List (List ℕ)} {u : List ℕ → ℕ} {k : ℕ}
    (hl : l.map u = List.range' k l.length) (acc : List Elem) :
    (l.foldl (fun s i => (insertBody name width s i).1)
      (if 0 ≤ structBitPos then structBitPos + k * width else structBitPos, acc)).2 =
      acc ++ l.map fun idx => elemAt name width structBitPos (u idx) idx := by
  induction l generalizing k acc with
  | nil => exact (List.append_nil acc).symm
  | cons i l ih =>
    rw [List.length_cons, List.range'_succ, List.map_cons] at hl
    obtain ⟨hi, hl⟩ := List.cons.inj hl
    have hnext : (insertBody name width
        (if 0 ≤ structBitPos then structBitPos + k * width else structBitPos, acc) i).1 =
        (if 0 ≤ structBitPos then structBitPos + (k + 1 : ℕ) * width else structBitPos,
          acc ++ [elemAt name width structBitPos (u i) i]) := by
      rw [hi]
      unfold insertBody elemAt
      by_cases hpos : 0 ≤ structBitPos
      · have hk : 0 ≤ (k : ℤ) * width := Int.mul_nonneg (Int.natCast_nonneg k) (Int.natCast_nonneg width)
        have hmul : ((k + 1 : ℕ) : ℤ) * width = k * width + width := by
          rw [Int.natCast_succ, Int.add_mul, Int.one_mul]
        rw [if_pos hpos, if_pos hpos, if_pos (by omega), hmul, Int.add_assoc]
      · rw [if_neg hpos, if_neg hpos, if_neg hpos]
    rw [List.foldl_cons, hnext, ih hl, List.append_assoc]
    rfl

/-- **The loop ends** with an element for each index vector, with positions in the order of the loop. -/
theorem insert_returns (hd : ∀ d ∈ dims, 0 < d) :
    Returns (insertArrayElements name dims width structBitPos)
      ((colElems dims).map fun idx => elemAt name width structBitPos (colOffset dims idx) idx) := by
  have hbody : ∀ s, ∀ i ∈ colElems dims, (insertBody name width s i).2 = false := fun _ _ _ => rfl
  obtain ⟨N, hN⟩ := loop_returns hbody (nextIter_cycle hd) (colElems_head hd) (structBitPos, [])
  have hrange := colElems_offset dims
  have hlen := congrArg List.length hrange
  rw [List.length_map, List.length_range] at hlen
  rw [← hlen, List.range_eq_range'] at hrange
  have hfold : ((colElems dims).foldl (fun s i => (insertBody name width s i).1)
      (if 0 ≤ structBitPos then structBitPos + (0 : ℕ) * width else structBitPos, [])).2 = _ :=
    insertBody_foldl hrange []
  have hstart : (if 0 ≤ structBitPos then structBitPos + (0 : ℕ) * width else structBitPos) = structBitPos := by
    rw [Int.natCast_zero, Int.zero_mul, Int.add_zero, ite_self]
  rw [hstart, List.nil_append] at hfold
  refine ⟨N, fun n hn => ?_⟩
  unfold insertArrayElements
  have hloop : loop (nextIter dims) (insertBody name width) n (zeros dims) (structBitPos, []) = _ := hN n hn
  rw [hloop, Option.map_some, hfold]

end

/-! ## The two orders -/

/-- At most one dimension has more than one element. -/
def Linear (dims : List ℕ) : Prop := (dims.filter fun d => 1 < d).length ≤ 1

instance (dims : List ℕ) : Decidable (Linear dims) := inferInstanceAs (Decidable (_ ≤ _))

section

variable {dims idx : List ℕ} {d : ℕ}

theorem linear_one (ds : List ℕ) : Linear (1 :: ds) ↔ Linear ds := Iff.rfl

theorem linear_cons (hd : 1 < d) (ds : List ℕ) : Linear (d :: ds) ↔ ∀ e ∈ ds, ¬1 < e := by
  have hfilter : (d :: ds).filter (fun d => 1 < d) = d :: ds.filter (fun d => 1 < d) :=
    List.filter_cons_of_pos (decide_eq_true hd)
  unfold Linear
  rw [hfilter, List.length_cons]
  have hnil : (ds.filter fun e => 1 < e).length = 0 ↔ ∀ e ∈ ds, ¬1 < e := by
    rw [List.length_eq_zero_iff, List.filter_eq_nil_iff]
    simp only [decide_eq_true_eq]
  rw [← hnil]
  omega

theorem inRange_ones (hone : ∀ e ∈ dims, ¬1 < e) (h : InRange dims idx) :
    colOffset dims idx = 0 ∧ offset dims idx = 0 := by
  induction dims generalizing idx with
  | nil =>
    cases idx with
    | nil => exact ⟨rfl, rfl⟩
    | cons i is => exact h.elim
  | cons d ds ih =>
    cases idx with
    | nil => exact h.elim
    | cons i is =>
      obtain ⟨hcol, hrow⟩ := ih (fun e he => hone e (List.mem_cons_of_mem _ he)) h.2
      have hd := hone d List.mem_cons_self
      obtain rfl : i = 0 := by
        have := h.1
        omega
      rw [colOffset, offset, hcol, hrow]
      omega

theorem count_ones (hd : ∀ d ∈ dims, 0 < d) (hone : ∀ e ∈ dims, ¬1 < e) : RowMajor.count dims = 1 := by
  induction dims with
  | nil => rfl
  | cons d ds ih =>
    have h₁ := hd d List.mem_cons_self
    have h₂ := hone d List.mem_cons_self
    have hrest := ih (fun e he => hd e (List.mem_cons_of_mem _ he)) fun e he => hone e (List.mem_cons_of_mem _ he)
    change d * RowMajor.count ds = 1
    rw [hrest]
    omega

/-- **With one long dimension** the two orders are the same. -/
theorem colOffset_eq (hd : ∀ d ∈ dims, 0 < d) (hl : Linear dims) (h : InRange dims idx) :
    colOffset dims idx = offset dims idx := by
  induction dims generalizing idx with
  | nil =>
    cases idx with
    | nil => rfl
    | cons i is => exact h.elim
  | cons d ds ih =>
    cases idx with
    | nil => exact h.elim
    | cons i is =>
      have hds : ∀ e ∈ ds, 0 < e := fun e he => hd e (List.mem_cons_of_mem _ he)
      have hpos := hd d List.mem_cons_self
      by_cases hone : d = 1
      · subst hone
        obtain rfl : i = 0 := by
          have := h.1
          omega
        rw [colOffset, offset, ih hds ((linear_one ds).1 hl) h.2]
        omega
      · have hones := (linear_cons (by omega) ds).1 hl
        obtain ⟨hcol, hrow⟩ := inRange_ones hones h.2
        rw [colOffset, offset, hcol, hrow, count_ones hds hones]
        omega

theorem two_le_count (hd : ∀ d ∈ dims, 0 < d) (h : ¬∀ e ∈ dims, ¬1 < e) : 2 ≤ RowMajor.count dims := by
  induction dims with
  | nil => exact (h fun e he => (List.not_mem_nil he).elim).elim
  | cons d ds ih =>
    have hds : ∀ e ∈ ds, 0 < e := fun e he => hd e (List.mem_cons_of_mem _ he)
    have hpos := hd d List.mem_cons_self
    change 2 ≤ d * RowMajor.count ds
    have hcount : 1 ≤ RowMajor.count ds :=
      Nat.one_le_of_lt (offset_lt (zeros_inRange hds))
    by_cases hone : 1 < d
    · exact Nat.le_trans (by omega) (Nat.mul_le_mul hone hcount)
    · have hrest := ih hds fun hall => h fun e he => by
        rcases List.mem_cons.1 he with rfl | he
        · exact hone
        · exact hall e he
      exact Nat.le_trans (by omega) (Nat.mul_le_mul hpos hrest)

theorem colOffset_zeros (dims : List ℕ) : colOffset dims (zeros dims) = 0 := by
  induction dims with
  | nil => rfl
  | cons d ds ih =>
    change colOffset ds (zeros ds) * d + 0 = 0
    rw [ih, Nat.zero_mul]

/-- **With two long dimensions** an element has another place in the loop than its number. -/
theorem exists_colOffset_ne (hd : ∀ d ∈ dims, 0 < d) (hl : ¬Linear dims) :
    ∃ idx, InRange dims idx ∧ colOffset dims idx ≠ offset dims idx := by
  induction dims with
  | nil => exact (hl (Nat.zero_le 1)).elim
  | cons d ds ih =>
    have hds : ∀ e ∈ ds, 0 < e := fun e he => hd e (List.mem_cons_of_mem _ he)
    have hpos := hd d List.mem_cons_self
    by_cases hone : d = 1
    · subst hone
      obtain ⟨idx, hin, hne⟩ := ih hds fun h => hl ((linear_one ds).2 h)
      refine ⟨0 :: idx, ⟨by omega, hin⟩, ?_⟩
      rw [colOffset, offset]
      omega
    · -- the second element of the first index
      have hlong := two_le_count hds fun h => hl ((linear_cons (by omega) ds).2 h)
      refine ⟨1 :: zeros ds, ⟨by omega, zeros_inRange hds⟩, ?_⟩
      rw [colOffset, offset, colOffset_zeros, offset_zeros]
      omega

theorem indexText_inj {p q : List ℕ} (h : Htl.StructElem.indexText p = Htl.StructElem.indexText q) : p = q := by
  rw [← Htl.StructElem.tokText_index, ← Htl.StructElem.tokText_index] at h
  have hok : ∀ idx : List ℕ, ∀ t ∈ idx.map Htl.StructElem.Tok.index, t.Ok := by
    intro idx t ht
    obtain ⟨i, -, rfl⟩ := List.mem_map.1 ht
    exact trivial
  exact List.map_injective_iff.2 (fun i j hij => Htl.StructElem.Tok.index.inj hij)
    (Htl.StructElem.tokText_inj (hok p) (hok q) h)

end

/-! ## One order -/

/-- The elements of a member: one for each index vector, with its number in the position. -/
def Created (name : Str) (dims : List ℕ) (width : ℕ) (structBitPos : ℤ) : Prop :=
  ∃ l, Returns (insertArrayElements name dims width structBitPos) l ∧ (l.map (·.index)).Nodup ∧
    (∀ idx, idx ∈ l.map (·.index) ↔ InRange dims idx) ∧ (l.map (·.name)).Nodup ∧
    ∀ e ∈ l, e.structPos =
      if 0 ≤ structBitPos then some (structBitPos + getDimenElemIdx dims e.index * width) else none

/-- The loop of `DimenIter` over an index list. -/
def visits (dims : List ℕ) (ix : Index) (n : ℕ) : Option (List (List ℕ)) :=
  loop (dimenIter dims (constList ix)) (fun l i => (l ++ [i], false)) n (refList ix) []

/-- The numbers of the elements are the same everywhere, and the order of `DimenIter`. -/
def Numbered (dims : List ℕ) : Prop :=
  (∀ idx, InRange dims idx → getDimenElemIdxOp dims (some (idx.map some)) = getDimenElemIdx dims idx ∧
    calcElemIdx dims idx = getDimenElemIdx dims idx) ∧
  ∃ l, Returns (visits dims (dims.map fun _ => none)) l ∧
    l.map (getDimenElemIdx dims) = List.range (RowMajor.count dims)

/-- `DimenIter` visits what an index list may stand for, each once. -/
def VisitsExactly (dims : List ℕ) : Prop :=
  ∀ ix : Index, ix.length = dims.length → ∃ l, Returns (visits dims ix) l ∧ l.Nodup ∧
    ∀ idx, idx ∈ l ↔ Denotes dims ix idx

/-- **Array elements have one order.** -/
def OneOrder (name : Str) (dims : List ℕ) (width : ℕ) (structBitPos : ℤ) : Prop :=
  Created name dims width structBitPos ∧ Numbered dims ∧ VisitsExactly dims

section

variable {name : Str} {dims : List ℕ} {width : ℕ} {structBitPos : ℤ}

theorem visits_returns (hd : ∀ d ∈ dims, 0 < d) {ix : Index} (hlen : ix.length = dims.length) :
    Returns (visits dims ix) (elems dims ix) := by
  have hbody : ∀ (l : List (List ℕ)), ∀ i ∈ elems dims ix, ((l ++ [i], false) : List (List ℕ) × Bool).2 = false :=
    fun _ _ _ => rfl
  have hloop := @loop_elems dims ix _ (fun l i => (l ++ [i], false)) hd hlen hbody []
  have hfold : ∀ (k acc : List (List ℕ)), k.foldl (fun l i => l ++ [i]) acc = acc ++ k := by
    intro k
    induction k with
    | nil => exact fun acc => (List.append_nil acc).symm
    | cons i k ih => exact fun acc => by rw [List.foldl_cons, ih, List.append_assoc]; rfl
  rw [hfold, List.nil_append] at hloop
  exact hloop

theorem visits_exactly (hd : ∀ d ∈ dims, 0 < d) : VisitsExactly dims := fun ix hlen =>
  ⟨elems dims ix, visits_returns hd hlen, elems_nodup dims ix, fun _ => mem_elems hlen⟩

theorem mapM_some (idx : List ℕ) : (idx.map some).mapM id = some idx := by
  induction idx with
  | nil => rfl
  | cons i is ih =>
    rw [List.map_cons, List.mapM_cons, ih]
    rfl

theorem within_variable (dims : List ℕ) : Within dims (dims.map fun _ => none) := by
  induction dims with
  | nil => trivial
  | cons d ds ih =>
    refine ⟨fun k hk => ?_, ih⟩
    cases hk

theorem numbered (hd : ∀ d ∈ dims, 0 < d) : Numbered dims := by
  have hlen : (dims.map fun _ => (none : Option ℕ)).length = dims.length := List.length_map _
  refine ⟨fun idx _ => ⟨?_, rfl⟩, _, visits_returns hd hlen, ?_⟩
  · unfold getDimenElemIdxOp
    rw [Option.bind_some, mapM_some]
    rfl
  · rw [← elems_variable dims]
    refine List.map_congr_left fun idx hidx => getDimenElemIdx_eq (InRange.length ?_)
    exact Denotes.inRange (within_variable dims) ((mem_elems hlen).1 hidx)

/-- **Exactly when** at most one dimension has more than one element the elements of a structure are in order. -/
theorem created_iff (hd : ∀ d ∈ dims, 0 < d) :
    Created name dims width structBitPos ↔ structBitPos < 0 ∨ width = 0 ∨ Linear dims := by
  have hret : Returns (insertArrayElements name dims width structBitPos) _ := insert_returns hd
  have hindex : ((colElems dims).map fun idx =>
      elemAt name width structBitPos (colOffset dims idx) idx).map (·.index) = colElems dims := by
    rw [List.map_map]
    exact List.map_id _
  have hname : (((colElems dims).map fun idx =>
      elemAt name width structBitPos (colOffset dims idx) idx).map (·.name)).Nodup := by
    rw [List.map_map]
    exact (colElems_nodup dims).map fun p q h => indexText_inj (List.append_cancel_left h)
  -- the position of an element, and the one it should have
  have hpos : ∀ idx, InRange dims idx → ((elemAt name width structBitPos (colOffset dims idx) idx).structPos =
      (if 0 ≤ structBitPos then some (structBitPos + getDimenElemIdx dims idx * width) else none) ↔
        structBitPos < 0 ∨ colOffset dims idx * width = offset dims idx * width) := by
    intro idx hidx
    rw [getDimenElemIdx_eq (InRange.length hidx)]
    unfold elemAt newElem
    dsimp only
    by_cases hneg : 0 ≤ structBitPos
    · have hmul : 0 ≤ ((colOffset dims idx : ℕ) : ℤ) * width :=
        Int.mul_nonneg (Int.natCast_nonneg _) (Int.natCast_nonneg _)
      rw [if_pos hneg, if_pos hneg, if_pos (by omega), Option.some_inj, ← Int.natCast_mul, ← Int.natCast_mul]
      omega
    · rw [if_neg hneg, if_neg hneg, if_neg hneg]
      exact iff_of_true rfl (Or.inl (by omega))
  constructor
  · rintro ⟨l, hl, -, -, -, hall⟩
    obtain rfl := hl.unique hret
    by_cases hlin : Linear dims
    · exact Or.inr (Or.inr hlin)
    · obtain ⟨idx, hidx, hne⟩ := exists_colOffset_ne hd hlin
      have hmem := List.mem_map_of_mem (f := fun idx => elemAt name width structBitPos (colOffset dims idx) idx)
        (mem_colElems.2 hidx)
      rcases (hpos idx hidx).1 (hall _ hmem) with h | h
      · exact Or.inl h
      · refine Or.inr (Or.inl ?_)
        by_cases hw : width = 0
        · exact hw
        · exact (hne (Nat.eq_of_mul_eq_mul_right (Nat.pos_of_ne_zero hw) h)).elim
  · intro hcond
    refine ⟨_, hret, ?_, ?_, hname, ?_⟩
    · rw [hindex]
      exact colElems_nodup dims
    · intro idx
      rw [hindex]
      exact mem_colElems
    · intro e he
      obtain ⟨idx, hidx, rfl⟩ := List.mem_map.1 he
      have hin := mem_colElems.1 hidx
      refine (hpos idx hin).2 ?_
      rcases hcond with h | h | h
      · exact Or.inl h
      · rw [h, Nat.mul_zero, Nat.mul_zero]
        exact Or.inr rfl
      · rw [colOffset_eq hd h hin]
        exact Or.inr rfl

end

/-- **One order, exactly**: for a member of a structure whose elements have a width, if and only if at most one
dimension has more than one element. -/
theorem one_order_iff (name : Str) {dims : List ℕ} (hd : ∀ d ∈ dims, 0 < d) (width : ℕ) (structBitPos : ℤ) :
    OneOrder name dims width structBitPos ↔ structBitPos < 0 ∨ width = 0 ∨ Linear dims := by
  have hcreated : Created name dims width structBitPos ↔ _ := created_iff hd
  rw [← hcreated]
  exact and_iff_left ⟨numbered hd, visits_exactly hd⟩

theorem one_order_iff_demo :
    OneOrder ['m'] [1, 4, 1] 8 16 ↔ (16 : ℤ) < 0 ∨ 8 = 0 ∨ Linear [1, 4, 1] :=
  one_order_iff ['m'] (by decide) 8 16

/-- **Columns before rows**: the elements of `m[2][3]` have other positions than their numbers. -/
theorem columns_first : ¬∀ (name : Str) (dims : List ℕ) (width : ℕ) (structBitPos : ℤ), (∀ d ∈ dims, 0 < d) →
    OneOrder name dims width structBitPos := by
  intro hall
  have hcond := (created_iff (by decide)).1 (hall ['m'] [2, 3] 8 0 (by decide)).1
  exact absurd hcond (by decide)

end OpenHT.Htfe.ArrayElems
