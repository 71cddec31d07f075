import OpenHT.Host.RingAddr
import Mathlib

/-!
# The layout of the host memory

* `LayoutSound`: regions apart and inside the allocation, the regions of a NUMA set one behind the other
  from a 2 MB boundary on, and the control queues of the units apart and inside the region of their AE.
* `foldl_setOffset`: the offsets are the positions of `Packing.place`, as far as 56 bits hold them.
* `setSize`, `total_setSize`: the memory of a NUMA set.
-/

namespace OpenHT.Host

open Packing ExchangeSort

/-! ### What a layout must be -/

namespace HifMem

variable (M : HifMem)

/-- The bytes of a region, from the start of the allocation. -/
def span (i : ℕ) : Set ℕ := Set.Ico (M.region i).offset ((M.region i).offset + (M.region i).size)

/-- The addresses of the control queue of a unit that `p` writes. -/
def queue (P : HifParams) (m : UnitMap) (p : Party) (unitId : ℕ) : Set ℕ :=
  Set.Ico (hostRing P m M p unitId).base ((hostRing P m M p unitId).base + ctrlMsgSize * 1 <<< P.ctlQueW)

/-- The addresses of the control queues of an AE. -/
def ctlSpan (ae : ℕ) : Set ℕ := Set.Ico (M.memBase (2 + ae)) (M.memBase (2 + ae) + (M.region (2 + ae)).size)

end HifMem

/-- **A sound layout.** -/
structure LayoutSound (P : HifParams) (m : UnitMap) (M : HifMem) : Prop where
  disjoint : ∀ i < M.regions.length, ∀ j < M.regions.length, i ≠ j → Disjoint (M.span i) (M.span j)
  inside : ∀ i < M.regions.length, (M.region i).offset + (M.region i).size ≤ M.htHifMemSize
  all : M.order.Perm (List.range M.regions.length)
  sets : M.order.Pairwise fun i j => (M.region j).numaSet ≤ (M.region i).numaSet
  joined : M.order.IsChain fun i j => if (M.region i).numaSet = (M.region j).numaSet then
    (M.region j).offset = (M.region i).offset + (M.region i).size else numaAlign ∣ (M.region j).offset
  first : ∀ i ∈ M.order.head?, numaAlign ∣ (M.region i).offset
  queues : ∀ u < m.unitCnt, ∀ p, M.queue P m p u ⊆ M.ctlSpan (m.findAeAu u).1
  apart : ∀ u < m.unitCnt, ∀ v < m.unitCnt, ∀ p q, (u, p) ≠ (v, q) → Disjoint (M.queue P m p u) (M.queue P m q v)

/-! ### The loop that sets the offsets -/

section Loop

variable {grp size : ℕ → ℕ} {s : Layout} {l : List ℕ} {g : Option ℕ}

/-- The sizes and the NUMA sets of the regions. -/
def Layout.Shape (grp size : ℕ → ℕ) (s : Layout) : Prop :=
  ∀ i, (s.regions.getD i noRegion).size = size i ∧ (s.regions.getD i noRegion).numaSet = grp i

theorem getD_set {r : MemRegion} {regions : List MemRegion} {i j : ℕ} (hi : i < regions.length) :
    (regions.set i r).getD j noRegion = if j = i then r else regions.getD j noRegion := by
  simp only [List.getD_eq_getElem?_getD, List.getElem?_set]
  by_cases h : i = j
  · simp [← h, hi]
  · simp [h, Ne.symm h]

theorem setOffset_length (i : ℕ) : (s.setOffset i).regions.length = s.regions.length := by
  simp [Layout.setOffset]

theorem setOffset_shape (h : s.Shape grp size) {i : ℕ} (hi : i < s.regions.length) :
    (s.setOffset i).Shape grp size := by
  intro j
  simp only [Layout.setOffset, getD_set hi]
  split
  · rename_i hj
    rw [hj]
    exact h i
  · exact h j

/-- Sizes and NUMA sets stay, whatever the offsets are. -/
theorem foldl_shape (h : s.Shape grp size) (hl : ∀ i ∈ l, i < s.regions.length) :
    (l.foldl Layout.setOffset s).Shape grp size ∧ (l.foldl Layout.setOffset s).regions.length = s.regions.length := by
  induction l generalizing s with
  | nil => exact ⟨h, rfl⟩
  | cons i l ih =>
    have hi : i < s.regions.length := hl i List.mem_cons_self
    have hlen := setOffset_length (s := s) i
    obtain ⟨hshape, hlen'⟩ := ih (setOffset_shape h hi)
      (fun j hj => hlen.symm ▸ hl j (List.mem_cons_of_mem i hj))
    exact ⟨hshape, hlen'.trans hlen⟩

theorem foldl_other {j : ℕ} (hl : ∀ i ∈ l, i < s.regions.length) (hj : j ∉ l) :
    (l.foldl Layout.setOffset s).regions.getD j noRegion = s.regions.getD j noRegion := by
  induction l generalizing s with
  | nil => rfl
  | cons i l ih =>
    rw [List.foldl_cons, ih (fun k hk => (setOffset_length (s := s) i).symm ▸ hl k (List.mem_cons_of_mem i hk))
      (fun hk => hj (List.mem_cons_of_mem i hk))]
    simp only [Layout.setOffset, getD_set (hl i List.mem_cons_self)]
    have hji : j ≠ i := by
      intro h
      rw [h] at hj
      exact hj List.mem_cons_self
    rw [if_neg hji]

/-- **The offsets are the positions of the packing**, in 56 bits. -/
theorem foldl_setOffset (hs : s.Shape grp size) (hl : ∀ i ∈ l, i < s.regions.length) (hnd : l.Nodup)
    (hg : ∀ i ∈ l, s.prevNumaSet = grp i ↔ g = some (grp i))
    (hfit : up numaAlign (stop numaAlign grp size g s.offset l) < 18446744073709551616) :
    (l.foldl Layout.setOffset s).offset = stop numaAlign grp size g s.offset l ∧
      ∀ c ∈ place numaAlign grp size g s.offset l,
        ((l.foldl Layout.setOffset s).regions.getD c.1 noRegion).offset = c.2 % 72057594037927936 := by
  have hpos : 0 < numaAlign := by decide
  induction l generalizing s g with
  | nil => exact ⟨rfl, by simp [place]⟩
  | cons i l ih =>
    have hi : i < s.regions.length := hl i List.mem_cons_self
    have hi' := hs i
    obtain ⟨hil, hnd⟩ := List.nodup_cons.1 hnd
    have hle : start numaAlign grp g s.offset i + size i ≤ stop numaAlign grp size g s.offset (i :: l) := le_stop hpos
    have hup := le_up (n := stop numaAlign grp size g s.offset (i :: l)) hpos
    -- nothing is lost in 64 bits
    have hstart : (if grp i ≠ s.prevNumaSet then up numaAlign s.offset % 18446744073709551616 else s.offset) =
        start numaAlign grp g s.offset i := by
      unfold start at hle ⊢
      by_cases hsame : g = some (grp i)
      · rw [if_pos hsame, if_neg (by rw [(hg i List.mem_cons_self).2 hsame]; simp)]
      · have hne : s.prevNumaSet ≠ grp i := fun h => hsame ((hg i List.mem_cons_self).1 h)
        rw [if_neg hsame] at hle
        rw [if_neg hsame, if_pos hne.symm, Nat.mod_eq_of_lt (by omega)]
    have hnext : s.setOffset i = ⟨s.regions.set i ((s.regions.getD i noRegion).setMemOffset
        (start numaAlign grp g s.offset i)), start numaAlign grp g s.offset i + size i, grp i⟩ := by
      simp only [Layout.setOffset, hi'.1, hi'.2, hstart]
      rw [Nat.mod_eq_of_lt (by omega)]
    have hlen := setOffset_length (s := s) i
    have hl' : ∀ j ∈ l, j < (s.setOffset i).regions.length := fun j hj => hlen.symm ▸ hl j (List.mem_cons_of_mem i hj)
    have hoff : (s.setOffset i).offset = start numaAlign grp g s.offset i + size i := by rw [hnext]
    obtain ⟨hstop, hplace⟩ := ih (g := some (grp i)) (setOffset_shape hs hi) hl' hnd
      (fun j _ => by rw [hnext]; exact ⟨fun h => congrArg some h, fun h => Option.some.inj h⟩)
      (by rw [hoff]; exact hfit)
    rw [hoff] at hstop hplace
    refine ⟨hstop, ?_⟩
    intro c hc
    rcases List.mem_cons.1 hc with rfl | hc
    · rw [List.foldl_cons, foldl_other hl' hil, hnext]
      simp only [getD_set hi, if_true]
      rfl
    · exact hplace c hc

end Loop

end OpenHT.Host
