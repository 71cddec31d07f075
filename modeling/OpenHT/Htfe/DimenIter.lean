import OpenHT.Lib.Odometer
import OpenHT.Lib.RowMajor

/-!
# Indices of array identifiers

`CHtfeIdent` numbers the elements of an array in `GetDimenElemIdx` and `CalcElemIdx`, and steps through them with
`DimenIter`, where some indices may be constant.

* `getDimenElemIdx`, `calcElemIdx`, `dimenIter`: the functions of the source.
* `Denotes`, `elems`: the elements that an index list with constant and variable indices may stand for.
* `dimenIter_cycle`: `DimenIter` goes through them, in row-major order.
-/

namespace OpenHT.Htfe.Dimen

open Odometer RowMajor

/-- An index list: constant indices, and variable ones. -/
abbrev Index := List (Option ℕ)

/-- The loop that sums up the indices, from the last dimension to the first: `elemIdx` and `idxMul`. -/
def elemIdxLoop : List ℕ → List ℕ → ℕ × ℕ
  | d :: ds, i :: is => ((elemIdxLoop ds is).1 + (elemIdxLoop ds is).2 * i, (elemIdxLoop ds is).2 * d)
  | _, _ => (0, 1)

/-- `GetDimenElemIdx` of a `refList` -/
def getDimenElemIdx (dimenList refList : List ℕ) : ℕ := (elemIdxLoop dimenList refList).1

/-- `GetDimenElemIdx` of an operand; a variable index, or no operand at all, gives -1. -/
def getDimenElemIdxOp (dimenList : List ℕ) (pOperand : Option Index) : ℤ :=
  match pOperand.bind fun indexList => indexList.mapM id with
  | some is => (elemIdxLoop dimenList is).1
  | none => -1

/-- `CalcElemIdx` of an element with the indices `m_indexList`. -/
def calcElemIdx (dimenList indexList : List ℕ) : ℕ := (elemIdxLoop dimenList indexList).1

/-- `DimenIter`: the last variable index counts, and one before it when all behind it have started again. -/
def dimenIter : List ℕ → List Bool → Step (List ℕ)
  | d :: ds, bConst :: cs, i :: is =>
    if (dimenIter ds cs is).2 then
      if bConst then (i :: (dimenIter ds cs is).1, true)
      else ((count d i).1 :: (dimenIter ds cs is).1, (count d i).2)
    else (i :: (dimenIter ds cs is).1, false)
  | _, _, is => (is, true)

/-- `constList` of an operand's index list. -/
def constList (ix : Index) : List Bool := ix.map (·.isSome)

/-- `refList` before the first step: the constant indices, and 0. -/
def refList (ix : Index) : List ℕ := ix.map (·.getD 0)

/-! ## The elements of an index list -/

/-- `i` may be what an index of a dimension of `d` elements stands for. -/
def DenotesOne (d : ℕ) : Option ℕ → ℕ → Prop
  | some k, i => i = k
  | none, i => i < d

/-- The index vector may be what the index list stands for. -/
def Denotes : List ℕ → Index → List ℕ → Prop
  | [], [], [] => True
  | d :: ds, c :: cs, i :: is => DenotesOne d c i ∧ Denotes ds cs is
  | _, _, _ => False

/-- Every constant index is one of the array. -/
def Within : List ℕ → Index → Prop
  | [], [] => True
  | d :: ds, c :: cs => (∀ k ∈ c, k < d) ∧ Within ds cs
  | _, _ => False

/-- The values of an index. -/
def choices (d : ℕ) : Option ℕ → List ℕ
  | some k => [k]
  | none => List.range d

/-- The index vectors of an index list, in row-major order. -/
def elems : List ℕ → Index → List (List ℕ)
  | d :: ds, c :: cs => ((choices d c).product (elems ds cs)).map fun p => p.1 :: p.2
  | _, _ => [[]]

section

variable {dims idx : List ℕ} {ix : Index} {d : ℕ}

theorem mem_choices {c : Option ℕ} {i : ℕ} : i ∈ choices d c ↔ DenotesOne d c i := by
  cases c with
  | some k => exact List.mem_singleton
  | none => exact List.mem_range

theorem mem_elems (hlen : ix.length = dims.length) : idx ∈ elems dims ix ↔ Denotes dims ix idx := by
  induction dims generalizing ix idx with
  | nil =>
    obtain rfl := List.length_eq_zero_iff.1 hlen
    cases idx with
    | nil => exact iff_of_true List.mem_cons_self trivial
    | cons i is => exact iff_of_false (by simp [elems]) (fun h => h)
  | cons d ds ih =>
    cases ix with
    | nil => cases hlen
    | cons c cs =>
      rw [elems, List.mem_map]
      cases idx with
      | nil => exact iff_of_false (by simp) (fun h => h)
      | cons i is =>
        have his : is ∈ elems ds cs ↔ Denotes ds cs is := ih (Nat.succ.inj hlen)
        have hden : Denotes (d :: ds) (c :: cs) (i :: is) ↔ i ∈ choices d c ∧ is ∈ elems ds cs := by
          rw [mem_choices, his]
          exact Iff.rfl
        rw [hden]
        constructor
        · rintro ⟨⟨j, js⟩, hmem, heq⟩
          obtain ⟨rfl, rfl⟩ := List.cons.inj heq
          exact List.pair_mem_product.1 hmem
        · exact fun h => ⟨(i, is), List.pair_mem_product.2 h, rfl⟩

theorem choices_nodup (d : ℕ) (c : Option ℕ) : (choices d c).Nodup := by
  cases c with
  | some k => exact List.nodup_singleton k
  | none => exact List.nodup_range

theorem elems_nodup (dims : List ℕ) (ix : Index) : (elems dims ix).Nodup := by
  induction dims generalizing ix with
  | nil => exact List.nodup_singleton _
  | cons d ds ih =>
    cases ix with
    | nil => exact List.nodup_singleton _
    | cons c cs =>
      refine ((choices_nodup d c).product (ih cs)).map fun p q h => ?_
      obtain ⟨h₁, h₂⟩ := List.cons.inj h
      exact Prod.ext h₁ h₂

/-- What an index list with indices of the array stands for are elements of it. -/
theorem Denotes.inRange (hw : Within dims ix) (h : Denotes dims ix idx) : InRange dims idx := by
  induction dims generalizing ix idx with
  | nil =>
    cases ix with
    | nil =>
      cases idx with
      | nil => trivial
      | cons i is => exact h
    | cons c cs => exact hw.elim
  | cons d ds ih =>
    cases ix with
    | nil => exact hw.elim
    | cons c cs =>
      cases idx with
      | nil => exact h.elim
      | cons i is =>
        refine ⟨?_, ih hw.2 h.2⟩
        cases c with
        | some k =>
          have hik : i = k := h.1
          rw [hik]
          exact hw.1 k rfl
        | none => exact h.1

/-! ## `DimenIter` -/

theorem choices_cycle (hd : 0 < d) (c : Option ℕ) :
    Cycle (if c.isSome then fixed else count d) (choices d c) := by
  cases c with
  | some k => exact fixed_cycle k
  | none => exact count_cycle hd

/-- **`DimenIter` goes through the elements of an index list**, and starts again after the last one. -/
theorem dimenIter_cycle (hd : ∀ d ∈ dims, 0 < d) (hlen : ix.length = dims.length) :
    Cycle (dimenIter dims (constList ix)) (elems dims ix) := by
  induction dims generalizing ix with
  | nil =>
    obtain rfl := List.length_eq_zero_iff.1 hlen
    exact rfl
  | cons d ds ih =>
    cases ix with
    | nil => cases hlen
    | cons c cs =>
      have hrest := ih (fun e he => hd e (List.mem_cons_of_mem _ he)) (Nat.succ.inj hlen)
      refine (carry_cycle (choices_cycle (hd d List.mem_cons_self) c) hrest).map fun p _ => ?_
      change dimenIter (d :: ds) (c.isSome :: constList cs) (p.1 :: p.2) = _
      unfold dimenIter carry
      by_cases hdone : (dimenIter ds (constList cs) p.2).2 = true
      · rw [if_pos hdone, if_pos hdone]
        cases c with
        | some k => rfl
        | none => rfl
      · rw [if_neg hdone, if_neg hdone]

theorem choices_head (hd : 0 < d) (c : Option ℕ) : ∃ l, choices d c = c.getD 0 :: l := by
  cases c with
  | some k => exact ⟨[], rfl⟩
  | none =>
    obtain ⟨n, rfl⟩ : ∃ n, d = n + 1 := ⟨d - 1, by omega⟩
    exact ⟨(List.range n).map Nat.succ, List.range_succ_eq_map⟩

theorem elems_head (hd : ∀ d ∈ dims, 0 < d) (hlen : ix.length = dims.length) :
    (elems dims ix).head? = some (refList ix) := by
  induction dims generalizing ix with
  | nil =>
    obtain rfl := List.length_eq_zero_iff.1 hlen
    rfl
  | cons d ds ih =>
    cases ix with
    | nil => cases hlen
    | cons c cs =>
      obtain ⟨l, hl⟩ := choices_head (hd d List.mem_cons_self) c
      have hrest := ih (fun e he => hd e (List.mem_cons_of_mem _ he)) (Nat.succ.inj hlen)
      obtain ⟨k, hk⟩ := List.head?_eq_some_iff.1 hrest
      rw [elems, hl, hk]
      rfl

/-- **A loop over the elements of an index list** that is not left before its end. -/
theorem loop_elems {σ : Type} {body : σ → List ℕ → σ × Bool} (hd : ∀ d ∈ dims, 0 < d)
    (hlen : ix.length = dims.length) (hbody : ∀ s, ∀ i ∈ elems dims ix, (body s i).2 = false) (s : σ) :
    Fuel.Returns (fun n => loop (dimenIter dims (constList ix)) body n (refList ix) s)
      ((elems dims ix).foldl (fun s i => (body s i).1) s) :=
  loop_returns hbody (dimenIter_cycle hd hlen) (elems_head hd hlen) s

/-! ## The order of the elements -/

theorem elemIdxLoop_eq (h : idx.length = dims.length) : elemIdxLoop dims idx = (offset dims idx, RowMajor.count dims) := by
  induction dims generalizing idx with
  | nil =>
    obtain rfl := List.length_eq_zero_iff.1 h
    rfl
  | cons d ds ih =>
    cases idx with
    | nil => cases h
    | cons i is =>
      rw [elemIdxLoop, ih (Nat.succ.inj h)]
      refine Prod.ext ?_ (Nat.mul_comm _ _)
      change offset ds is + RowMajor.count ds * i = i * RowMajor.count ds + offset ds is
      rw [Nat.mul_comm, Nat.add_comm]

theorem getDimenElemIdx_eq (h : idx.length = dims.length) : getDimenElemIdx dims idx = offset dims idx :=
  congrArg Prod.fst (elemIdxLoop_eq h)

theorem InRange.length (h : InRange dims idx) : idx.length = dims.length := by
  induction dims generalizing idx with
  | nil =>
    cases idx with
    | nil => rfl
    | cons i is => exact h.elim
  | cons d ds ih =>
    cases idx with
    | nil => exact h.elim
    | cons i is => exact congrArg Nat.succ (ih h.2)

/-- Without constant indices `DimenIter` meets the elements in the order of their numbers. -/
theorem elems_variable (dims : List ℕ) :
    (elems dims (dims.map fun _ => none)).map (offset dims) = List.range (RowMajor.count dims) := by
  induction dims with
  | nil => rfl
  | cons d ds ih =>
    have hrange : (List.range d).map id = List.range' 0 d := by
      rw [List.map_id, List.range_eq_range']
    have hprod := map_product_range hrange ih
    rw [Nat.zero_mul, ← List.range_eq_range'] at hprod
    rw [List.map_cons, elems, List.map_map]
    exact hprod

end

end OpenHT.Htfe.Dimen
