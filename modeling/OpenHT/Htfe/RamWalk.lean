import Mathlib.Data.List.Forall2
import OpenHT.Htfe.RamCond

/-!
# The walk over the indices of a write

* `walk_spec`: the walk takes all values of the indices, and ends.
* `lowBit_within`, `lowBit_apart`: the elements at these values are inside the word and do not overlap.
* `lowBit_values`: the element at the values of a valuation is the addressed one.
* `getSubFieldRange_spec`: the bits if all indices are constants.
-/

namespace OpenHT.Htfe.RamWrite

variable {V : Type} {ρ : V} {s : List (Index V × ℕ)} {is : List ℕ}

/-! ## The walk -/

/-- The values behind `is`, in the order of the walk. -/
def behind : List (Index V × ℕ) → List ℕ → List (List ℕ)
  | (e, d) :: s, i :: is =>
    (behind s is).map (i :: ·) ++
      if e.evalConstantExpr.isSome then []
      else (List.range' (i + 1) (d - (i + 1))).flatMap fun j => (firstIdx s :: behind s (firstIdx s)).map (j :: ·)
  | _, _ => []

attribute [local simp] behind

/-- The constants have their values. -/
def Fixed : List (Index V × ℕ) → List ℕ → Prop
  | [], [] => True
  | (e, _) :: s, i :: is => (∀ c ∈ e.evalConstantExpr, i = c) ∧ Fixed s is
  | _, _ => False

attribute [local simp] constIdx

attribute [local simp] lowBit

theorem fixed_first (s : List (Index V × ℕ)) : Fixed s (firstIdx s) := by
  induction s with
  | nil => trivial
  | cons x s ih => exact ⟨fun c hc => congrArg (Option.getD · 0) hc, ih⟩

/-- A reset goes back to the start. -/
theorem idxReset_eq (h : Fixed s is) : idxReset s is = firstIdx s := by
  induction s generalizing is with
  | nil =>
    cases is with
    | nil => rfl
    | cons i is => cases h
  | cons x s ih =>
    obtain ⟨e, d⟩ := x
    cases is with
    | nil => cases h
    | cons i is =>
      obtain ⟨hc, hs⟩ := h
      have hhead : (if e.evalConstantExpr.isSome then i else 0) = e.evalConstantExpr.getD 0 := by
        cases he : e.evalConstantExpr with
        | none => rfl
        | some c => exact hc c he
      unfold idxReset
      rw [ih hs, hhead]
      rfl

/-- **The walk goes to the next values**, or there are none behind these. -/
theorem idxInc_spec (h : Fixed s is) :
    (idxInc s is = none ∧ behind s is = []) ∨
      ∃ is', idxInc s is = some is' ∧ behind s is = is' :: behind s is' ∧ Fixed s is' := by
  induction s generalizing is with
  | nil =>
    cases is with
    | nil => exact .inl ⟨rfl, rfl⟩
    | cons i is => cases h
  | cons x s ih =>
    obtain ⟨e, d⟩ := x
    cases is with
    | nil => cases h
    | cons i is =>
      obtain ⟨hc, hs⟩ := h
      rcases ih hs with ⟨hinc, hbehind⟩ | ⟨is', hinc, hbehind, hfixed⟩
      · have hnext : idxInc ((e, d) :: s) (i :: is) =
            if e.evalConstantExpr.isSome then none
            else if i + 1 < d then some ((i + 1) :: firstIdx s) else none := by
          rw [idxInc, hinc, idxReset_eq hs]
        have hlist : behind ((e, d) :: s) (i :: is) = if e.evalConstantExpr.isSome then []
            else (List.range' (i + 1) (d - (i + 1))).flatMap fun j =>
              (firstIdx s :: behind s (firstIdx s)).map (j :: ·) := by
          rw [behind, hbehind, List.map_nil, List.nil_append]
        rw [hnext, hlist]
        cases he : e.evalConstantExpr with
        | some c => exact .inl ⟨rfl, rfl⟩
        | none =>
          by_cases hlt : i + 1 < d
          · -- this index counts up, the ones behind it start again
            obtain ⟨n, hn⟩ : ∃ n, d - (i + 1) = n + 1 := ⟨d - (i + 1) - 1, by omega⟩
            have hn' : d - (i + 1 + 1) = n := by omega
            refine .inr ⟨(i + 1) :: firstIdx s, if_pos hlt, ?_, ?_, fixed_first s⟩
            · rw [behind, he, hn, hn', List.range'_succ, List.flatMap_cons]
              rfl
            · intro c hce
              rw [he] at hce
              cases hce
          · have hzero : d - (i + 1) = 0 := by omega
            refine .inl ⟨if_neg hlt, ?_⟩
            rw [hzero]
            rfl
      · refine .inr ⟨i :: is', ?_, ?_, hc, hfixed⟩
        · rw [idxInc, hinc]
        · rw [behind, hbehind, List.map_cons, List.cons_append]
          rfl

/-- **The walk ends**, with all values behind the first. -/
theorem walk_of_fixed (h : Fixed s is) : ∃ N, ∀ n, N ≤ n → walk s n is = .ok (is :: behind s is) := by
  generalize hm : (behind s is).length = m
  induction m generalizing is with
  | zero =>
    refine ⟨1, fun n hn => ?_⟩
    obtain ⟨n, rfl⟩ : ∃ k, n = k + 1 := ⟨n - 1, by omega⟩
    rcases idxInc_spec h with ⟨hinc, hnil⟩ | ⟨is', _, hcons, _⟩
    · rw [walk, hinc, hnil]
    · rw [hcons] at hm
      cases hm
  | succ m ih =>
    rcases idxInc_spec h with ⟨_, hnil⟩ | ⟨is', hinc, hcons, hfixed⟩
    · rw [hnil] at hm
      cases hm
    · rw [hcons, List.length_cons] at hm
      obtain ⟨N, hN⟩ := ih hfixed (by omega)
      refine ⟨N + 1, fun n hn => ?_⟩
      obtain ⟨n, rfl⟩ : ∃ k, n = k + 1 := ⟨n - 1, by omega⟩
      rw [walk, hinc, hcons]
      show (walk s n is').map (is :: ·) = _
      rw [hN n (by omega)]
      rfl

/-- A value that the walk gives to one index. -/
def AdmissibleAt (x : Index V × ℕ) (i : ℕ) : Prop :=
  match x.1.evalConstantExpr with
  | some c => i = c
  | none => i < x.2

/-- All values that the walk takes. -/
theorem mem_walk (hd : ∀ x ∈ s, x.1.evalConstantExpr = none → 0 < x.2) :
    is ∈ firstIdx s :: behind s (firstIdx s) ↔ Admissible s is := by
  induction s generalizing is with
  | nil =>
    cases is with
    | nil => exact ⟨fun _ => trivial, fun _ => List.mem_cons_self⟩
    | cons i is =>
      refine ⟨fun h => ?_, fun h => (nomatch h)⟩
      rcases List.mem_cons.1 h with h | h
      · cases h
      · cases h
  | cons x s ih =>
    obtain ⟨e, d⟩ := x
    have hrest := fun {is' : List ℕ} => @ih is' fun y hy => hd y (List.mem_cons_of_mem _ hy)
    have hfirst : firstIdx ((e, d) :: s) = e.evalConstantExpr.getD 0 :: firstIdx s := rfl
    cases is with
    | nil =>
      refine ⟨fun h => ?_, fun h => (nomatch h)⟩
      rw [hfirst] at h
      rcases List.mem_cons.1 h with h | h
      · cases h
      · rw [behind] at h
        rcases List.mem_append.1 h with h | h
        · obtain ⟨_, _, h⟩ := List.mem_map.1 h
          cases h
        · split at h
          · cases h
          · obtain ⟨_, _, h⟩ := List.mem_flatMap.1 h
            obtain ⟨_, _, h⟩ := List.mem_map.1 h
            cases h
    | cons i is =>
      show i :: is ∈ _ ↔ AdmissibleAt (e, d) i ∧ Admissible s is
      rw [← hrest, hfirst, behind]
      unfold AdmissibleAt
      cases he : e.evalConstantExpr with
      | some c =>
        simp only [Option.getD_some, Option.isSome_some, if_true, List.append_nil, List.mem_cons, List.mem_map,
          List.cons.injEq]
        constructor
        · rintro (⟨rfl, rfl⟩ | ⟨l, hl, rfl, rfl⟩)
          · exact ⟨rfl, .inl rfl⟩
          · exact ⟨rfl, .inr hl⟩
        · rintro ⟨rfl, rfl | hl⟩
          · exact .inl ⟨rfl, rfl⟩
          · exact .inr ⟨is, hl, rfl, rfl⟩
      | none =>
        have hpos := hd (e, d) List.mem_cons_self he
        simp only [Option.getD_none, Option.isSome_none, Bool.false_eq_true, if_false, List.mem_cons, List.mem_append,
          List.mem_map, List.mem_flatMap, List.mem_range'_1, List.cons.injEq]
        constructor
        · rintro (⟨rfl, rfl⟩ | ⟨l, hl, rfl, rfl⟩ | ⟨j, hj, l, hl, rfl, rfl⟩)
          · exact ⟨hpos, .inl rfl⟩
          · exact ⟨hpos, .inr hl⟩
          · exact ⟨by omega, hl⟩
        · rintro ⟨hi, hl⟩
          by_cases hzero : i = 0
          · subst hzero
            rcases hl with rfl | hl
            · exact .inl ⟨rfl, rfl⟩
            · exact .inr (.inl ⟨is, hl, rfl, rfl⟩)
          · exact .inr (.inr ⟨i, by omega, is, hl, rfl, rfl⟩)

/-! ## The values of a sub-field -/

theorem admissible_iff : Admissible s is ↔ List.Forall₂ AdmissibleAt s is := by
  induction s generalizing is with
  | nil =>
    cases is with
    | nil => exact ⟨fun _ => .nil, fun _ => trivial⟩
    | cons i is => exact ⟨fun h => (nomatch h), fun h => (nomatch h)⟩
  | cons x s ih =>
    cases is with
    | nil => exact ⟨fun h => (nomatch h), fun h => (nomatch h)⟩
    | cons i is =>
      rw [List.forall₂_cons, ← ih]
      exact Iff.rfl

theorem admissible_append {s' : List (Index V × ℕ)} :
    Admissible (s ++ s') is ↔ Admissible s (is.take s.length) ∧ Admissible s' (is.drop s.length) := by
  induction s generalizing is with
  | nil => exact ⟨fun h => ⟨trivial, h⟩, And.right⟩
  | cons x s ih =>
    cases is with
    | nil => exact ⟨fun h => (nomatch h), fun h => (nomatch h.1)⟩
    | cons i is =>
      show _ ∧ Admissible (s ++ s') is ↔ (_ ∧ Admissible s (is.take s.length)) ∧ _
      rw [ih, and_assoc]
      exact Iff.rfl

theorem idxLoop_concat (l : List (ℕ × ℕ)) (i d idx idxBase : ℕ) :
    idxLoop (l ++ [(i, d)]) idx idxBase = idxLoop l idx idxBase + i * (idxBase * RowMajor.count (l.map Prod.snd)) := by
  induction l generalizing idx idxBase with
  | nil =>
    show idx + i * idxBase = idx + i * (idxBase * 1)
    rw [Nat.mul_one]
  | cons x l ih =>
    obtain ⟨i', d'⟩ := x
    rw [List.cons_append, idxLoop, ih, idxLoop, List.map_cons, Nat.mul_assoc idxBase]
    rfl

theorem count_concat (ds : List ℕ) (d : ℕ) : RowMajor.count (ds ++ [d]) = d * RowMajor.count ds := by
  induction ds with
  | nil => rfl
  | cons d' ds ih =>
    show d' * RowMajor.count (ds ++ [d]) = d * (d' * RowMajor.count ds)
    rw [ih, Nat.mul_left_comm]

theorem count_reverse (ds : List ℕ) : RowMajor.count ds.reverse = RowMajor.count ds := by
  induction ds with
  | nil => rfl
  | cons d ds ih =>
    rw [List.reverse_cons, count_concat, ih]
    rfl

/-- **The loop from the last index on** gives the offset of the element. -/
theorem idxLoop_reverse {is ds : List ℕ} (h : is.length = ds.length) :
    idxLoop (is.zip ds).reverse 0 1 = RowMajor.offset ds is := by
  induction ds generalizing is with
  | nil =>
    obtain rfl := List.length_eq_zero_iff.1 h
    rfl
  | cons d ds ih =>
    cases is with
    | nil => cases h
    | cons i is =>
      have hlen : is.length = ds.length := Nat.succ.inj h
      have hdims : ((is.zip ds).reverse.map Prod.snd) = ds.reverse := by
        rw [List.map_reverse, List.map_snd_zip (Nat.le_of_eq hlen.symm)]
      rw [List.zip_cons_cons, List.reverse_cons, idxLoop_concat, ih hlen, hdims, count_reverse, Nat.one_mul]
      exact Nat.add_comm _ _

namespace CScSubField

variable (f : CScSubField V)

theorem length_slots : f.slots.length = f.indexList.length := by
  unfold slots
  rw [List.length_reverse, List.length_zip, ← f.indexCnt, Nat.min_self]

theorem dims_slots : f.slots.map Prod.snd = (dimens f.pIdent).reverse := by
  unfold slots
  rw [List.map_reverse, List.map_snd_zip (Nat.le_of_eq f.indexCnt.symm)]

theorem exprs_slots : f.slots.map Prod.fst = f.indexList.reverse := by
  unfold slots
  rw [List.map_reverse, List.map_fst_zip (Nat.le_of_eq f.indexCnt)]

/-- The loop over the values of a sub-field. -/
theorem idxLoop_slots {c : List ℕ} (h : c.length = f.slots.length) :
    idxLoop (c.zip (f.slots.map Prod.snd)) 0 1 = RowMajor.offset (dimens f.pIdent) c.reverse := by
  have hlen : c.reverse.length = (dimens f.pIdent).length := by
    rw [List.length_reverse, h, length_slots, f.indexCnt]
  have hzip : c.zip (f.slots.map Prod.snd) = (c.reverse.zip (dimens f.pIdent)).reverse := by
    rw [dims_slots, List.zip_eq_zipWith, List.zip_eq_zipWith, List.reverse_zipWith hlen, List.reverse_reverse]
  rw [hzip, idxLoop_reverse hlen]

/-- The values of the walk for an array are within its dimensions. -/
theorem inRange_of_admissible {m : Member} (hm : f.pIdent = some m) (hin : RowMajor.InRange m.dimenList (f.values ρ))
    {c : List ℕ} (hc : Admissible f.slots c) : RowMajor.InRange m.dimenList c.reverse := by
  have hall : List.Forall₂ AdmissibleAt (f.indexList.zip m.dimenList) c.reverse := by
    have := List.forall₂_reverse_iff.2 (admissible_iff.1 hc)
    unfold slots at this
    rw [List.reverse_reverse, hm] at this
    exact this
  have hgen (es : List (Index V)) (ds vs : List ℕ) (h1 : RowMajor.InRange ds (es.map fun e => e.eval ρ))
      (h2 : List.Forall₂ AdmissibleAt (es.zip ds) vs) : RowMajor.InRange ds vs := by
    induction ds generalizing es vs with
    | nil =>
      rw [List.zip_nil_right, List.forall₂_nil_left_iff] at h2
      subst h2
      trivial
    | cons d ds ih =>
      cases es with
      | nil => cases h1
      | cons e es =>
        cases vs with
        | nil => cases h2
        | cons v vs =>
          obtain ⟨hv, hvs⟩ := List.forall₂_cons.1 h2
          obtain ⟨he, hes⟩ := h1
          refine ⟨?_, ih es vs hes hvs⟩
          unfold AdmissibleAt at hv
          split at hv
          · rename_i x hx
            have hlt : e.eval ρ < d := he
            have := e.sound x hx ρ
            omega
          · exact hv
  exact hgen f.indexList m.dimenList c.reverse hin hall

/-- An array index is less than its dimension. -/
theorem lt_of_inRange {m : Member} (hm : f.pIdent = some m) (hin : RowMajor.InRange m.dimenList (f.values ρ)) :
    ∀ x ∈ f.slots, x.1.eval ρ < x.2 := by
  have hgen (es : List (Index V)) (ds : List ℕ) (h : RowMajor.InRange ds (es.map fun e => e.eval ρ)) :
      ∀ x ∈ es.zip ds, x.1.eval ρ < x.2 := by
    induction es generalizing ds with
    | nil => exact fun x hx => (nomatch hx)
    | cons e es ih =>
      cases ds with
      | nil => exact fun x hx => (nomatch hx)
      | cons d ds =>
        rw [List.zip_cons_cons, List.forall_mem_cons]
        exact ⟨h.1, ih ds h.2⟩
  intro x hx
  have hmem := List.mem_reverse.1 hx
  rw [hm] at hmem
  exact hgen f.indexList m.dimenList hin x hmem

/-- A bit index has its constant value or 0. -/
theorem bit_of_admissible (hnone : f.pIdent = none) {c : List ℕ} (hc : Admissible f.slots c) :
    ∃ e i, f.indexList = [e] ∧ f.slots = [(e, 1)] ∧ c = [i] ∧ AdmissibleAt (e, 1) i := by
  have hone : f.indexList.length = 1 := by
    rw [f.indexCnt, hnone]
    rfl
  obtain ⟨e, he⟩ := List.length_eq_one_iff.1 hone
  have hslots : f.slots = [(e, 1)] := by
    unfold slots
    rw [he, hnone]
    rfl
  rw [hslots, admissible_iff] at hc
  cases c with
  | nil => cases hc
  | cons i c =>
    obtain ⟨hi, hnil⟩ := List.forall₂_cons.1 hc
    rw [List.forall₂_nil_left_iff] at hnil
    subst hnil
    exact ⟨e, i, he, hslots, rfl, hi⟩

end CScSubField

/-! ## Where the elements are -/

variable {path : List (CScSubField V)} {width : ℕ}

theorem lowBit_cons {f : CScSubField V} (h : Admissible (slots (f :: path)) is) :
    lowBit (f :: path) is =
      f.lowBit (RowMajor.offset (dimens f.pIdent) (is.take f.slots.length).reverse) +
        lowBit path (is.drop f.slots.length) := by
  have hc := (admissible_append.1 h).1.length
  rw [lowBit, f.idxLoop_slots hc]

theorem lastWidth_pos (h : Fits width path) : 0 < lastWidth width path := by
  induction path generalizing width with
  | nil => exact h
  | cons f path ih => exact ih h.2

/-- What is taken from a sub-field is inside of what the sub-field is taken from. -/
theorem CScSubField.within {f : CScSubField V} {c : List ℕ} (hf : Fits width (f :: path))
    (hin : InBounds ρ width (f :: path)) (hc : Admissible f.slots c) :
    f.lowBit (RowMajor.offset (dimens f.pIdent) c.reverse) + f.subFieldWidth ≤ width := by
  obtain ⟨hfits, _⟩ := hf
  obtain ⟨hin, _⟩ := hin
  unfold CScSubField.lowBit
  cases hm : f.pIdent with
  | some m =>
    rw [hm] at hin
    have hlt := RowMajor.offset_lt (f.inRange_of_admissible hm hin hc)
    have hmul : f.subFieldWidth * (RowMajor.offset m.dimenList c.reverse + 1) ≤
        f.subFieldWidth * RowMajor.count m.dimenList := Nat.mul_le_mul_left _ hlt
    have := hfits m hm
    rw [Nat.mul_succ] at hmul
    show m.structPos + f.subFieldWidth * RowMajor.offset m.dimenList c.reverse + f.subFieldWidth ≤ width
    omega
  | none =>
    rw [hm] at hin
    obtain ⟨e, i, he, _, rfl, hi⟩ := f.bit_of_admissible hm hc
    have hval : e.eval ρ + f.subFieldWidth ≤ width := hin _ (by rw [CScSubField.values, he]; exact List.mem_cons_self)
    have hle : i ≤ e.eval ρ := by
      unfold AdmissibleAt at hi
      split at hi
      · rename_i x hx
        exact Nat.le_of_eq (hi.trans (e.sound x hx ρ).symm)
      · have : i < 1 := hi
        omega
    show i * 1 + 0 + f.subFieldWidth ≤ width
    omega

/-- **An element is inside the word.** -/
theorem lowBit_within (hf : Fits width path) (hin : InBounds ρ width path) (h : Admissible (slots path) is) :
    lowBit path is + lastWidth width path ≤ width := by
  induction path generalizing width is with
  | nil => exact Nat.le_of_eq (Nat.zero_add _)
  | cons f path ih =>
    obtain ⟨hc, hrest⟩ := admissible_append.1 h
    have houter := CScSubField.within hf hin hc
    have hinner := ih hf.2 hin.2 hrest
    rw [lowBit_cons h]
    show _ + _ + lastWidth f.subFieldWidth path ≤ width
    omega

/-- **Elements at different values** do not overlap. -/
theorem lowBit_apart {is' : List ℕ} (hf : Fits width path) (hin : InBounds ρ width path) (h : Admissible (slots path) is)
    (h' : Admissible (slots path) is') (hne : is ≠ is') :
    lowBit path is + lastWidth width path ≤ lowBit path is' ∨
      lowBit path is' + lastWidth width path ≤ lowBit path is := by
  induction path generalizing width is is' with
  | nil =>
    have hnil := h.length
    have hnil' := h'.length
    rw [List.length_eq_zero_iff.1 hnil, List.length_eq_zero_iff.1 hnil'] at hne
    exact absurd rfl hne
  | cons f path ih =>
    obtain ⟨hc, hrest⟩ := admissible_append.1 h
    obtain ⟨hc', hrest'⟩ := admissible_append.1 h'
    rw [lowBit_cons h, lowBit_cons h']
    show _ + _ + lastWidth f.subFieldWidth path ≤ _ ∨ _ + _ + lastWidth f.subFieldWidth path ≤ _
    by_cases hsame : is.take f.slots.length = is'.take f.slots.length
    · -- the same element of this sub-field: they differ behind it
      have hdrop : is.drop f.slots.length ≠ is'.drop f.slots.length := by
        intro hdrop
        refine hne ?_
        rw [← List.take_append_drop f.slots.length is, ← List.take_append_drop f.slots.length is', hsame, hdrop]
      have := ih hf.2 hin.2 hrest hrest' hdrop
      rw [hsame]
      omega
    · have hinner := lowBit_within hf.2 hin.2 hrest
      have hinner' := lowBit_within hf.2 hin.2 hrest'
      cases hm : f.pIdent with
      | none =>
        obtain ⟨e, i, _, hslots, hi, hadm⟩ := f.bit_of_admissible hm hc
        obtain ⟨e', i', _, hslots', hi', hadm'⟩ := f.bit_of_admissible hm hc'
        rw [hslots, List.cons.injEq, Prod.mk.injEq] at hslots'
        obtain ⟨⟨rfl, _⟩, _⟩ := hslots'
        refine absurd ?_ hsame
        rw [hi, hi']
        unfold AdmissibleAt at hadm hadm'
        split at hadm
        · rename_i c hce
          dsimp only at hce hadm'
          rw [hce] at hadm'
          rw [hadm, hadm']
        · rename_i hce
          dsimp only at hce hadm hadm'
          rw [hce] at hadm'
          have h0 : i = i' := by omega
          rw [h0]
      | some m =>
        have hrange := hin.1
        rw [hm] at hrange
        have hr := f.inRange_of_admissible hm hrange hc
        have hr' := f.inRange_of_admissible hm hrange hc'
        have hoff : RowMajor.offset m.dimenList (is.take f.slots.length).reverse ≠
            RowMajor.offset m.dimenList (is'.take f.slots.length).reverse := by
          intro heq
          exact hsame (List.reverse_injective (RowMajor.offset_inj hr hr' heq))
        have hmul {x y : ℕ} (hxy : x < y) : f.subFieldWidth * x + f.subFieldWidth ≤ f.subFieldWidth * y := by
          rw [← Nat.mul_succ]
          exact Nat.mul_le_mul_left _ hxy
        unfold CScSubField.lowBit
        rw [hm]
        dsimp only [dimens]
        generalize RowMajor.offset m.dimenList (is.take f.slots.length).reverse = o at hoff ⊢
        generalize RowMajor.offset m.dimenList (is'.take f.slots.length).reverse = o' at hoff ⊢
        rcases Nat.lt_or_gt_of_ne hoff with hlt | hlt
        · have := hmul hlt
          omega
        · have := hmul hlt
          omega

/-! ## The addressed element -/

/-- The values of the indices in a valuation, in the order of the walk. -/
def valuesOf (ρ : V) (s : List (Index V × ℕ)) : List ℕ := s.map fun x => x.1.eval ρ

theorem values_slots (f : CScSubField V) : (valuesOf ρ f.slots).reverse = f.values ρ := by
  have hexprs : valuesOf ρ f.slots = (f.slots.map Prod.fst).map fun e => e.eval ρ := by
    rw [List.map_map]
    rfl
  rw [hexprs, f.exprs_slots, List.map_reverse, List.reverse_reverse]
  rfl

/-- **The element at the values of a valuation** is the addressed one. -/
theorem lowBit_values (path : List (CScSubField V)) : lowBit path (valuesOf ρ (slots path)) = addr ρ path := by
  induction path with
  | nil => rfl
  | cons f path ih =>
    have hvals : valuesOf ρ (slots (f :: path)) = valuesOf ρ f.slots ++ valuesOf ρ (slots path) := List.map_append
    have hlen : (valuesOf ρ f.slots).length = f.slots.length := List.length_map _
    have htake : (valuesOf ρ (slots (f :: path))).take f.slots.length = valuesOf ρ f.slots := by
      rw [hvals, List.take_append_of_le_length (Nat.le_of_eq hlen.symm), List.take_of_length_le (Nat.le_of_eq hlen)]
    have hdrop : (valuesOf ρ (slots (f :: path))).drop f.slots.length = valuesOf ρ (slots path) := by
      rw [hvals, ← hlen, List.drop_left]
    rw [lowBit, htake, hdrop, ih, f.idxLoop_slots hlen, values_slots]
    rfl

/-- A bit index that is no constant is 0. -/
def BitIndexZero (ρ : V) (path : List (CScSubField V)) : Prop :=
  ∀ f ∈ path, f.pIdent = none → ∀ e ∈ f.indexList, e.evalConstantExpr = none → e.eval ρ = 0

/-- **The walk comes to the values of a valuation**, unless a bit index has another value than 0. -/
theorem admissible_values (hin : InBounds ρ width path) :
    Admissible (slots path) (valuesOf ρ (slots path)) ↔ BitIndexZero ρ path := by
  induction path generalizing width with
  | nil => exact ⟨fun _ f hf => (nomatch hf), fun _ => trivial⟩
  | cons f path ih =>
    have hvals : valuesOf ρ (slots (f :: path)) = valuesOf ρ f.slots ++ valuesOf ρ (slots path) := List.map_append
    have hlen : (valuesOf ρ f.slots).length = f.slots.length := List.length_map _
    have htail : BitIndexZero ρ (f :: path) ↔ (f.pIdent = none → ∀ e ∈ f.indexList, e.evalConstantExpr = none →
        e.eval ρ = 0) ∧ BitIndexZero ρ path := List.forall_mem_cons
    show Admissible (f.slots ++ slots path) _ ↔ _
    rw [admissible_append, htail, hvals, List.take_append_of_le_length (Nat.le_of_eq hlen.symm),
      List.take_of_length_le (Nat.le_of_eq hlen), ← hlen, List.drop_left, ih hin.2]
    refine and_congr_left fun _ => ?_
    have hat : Admissible f.slots (valuesOf ρ f.slots) ↔ ∀ x ∈ f.slots, AdmissibleAt x (x.1.eval ρ) := by
      rw [admissible_iff, valuesOf, List.forall₂_map_right_iff, List.forall₂_same]
    have hconst {x : Index V × ℕ} {c : ℕ} (hc : x.1.evalConstantExpr = some c) : AdmissibleAt x (x.1.eval ρ) := by
      unfold AdmissibleAt
      rw [hc]
      exact x.1.sound c hc ρ
    have hvar {x : Index V × ℕ} (hc : x.1.evalConstantExpr = none) :
        AdmissibleAt x (x.1.eval ρ) ↔ x.1.eval ρ < x.2 := by
      unfold AdmissibleAt
      rw [hc]
    rw [hat]
    cases hm : f.pIdent with
    | none =>
      have hone : f.indexList.length = 1 := by
        rw [f.indexCnt, hm]
        rfl
      obtain ⟨e, he⟩ := List.length_eq_one_iff.1 hone
      have hslots : f.slots = [(e, 1)] := by
        unfold CScSubField.slots
        rw [he, hm]
        rfl
      rw [hslots, he, List.forall_mem_singleton]
      constructor
      · intro h _ e' he' hce
        obtain rfl := List.mem_singleton.1 he'
        exact Nat.lt_one_iff.1 ((hvar hce).1 h)
      · intro h
        cases hce : e.evalConstantExpr with
        | some c => exact hconst hce
        | none => exact (hvar hce).2 (Nat.lt_one_iff.2 (h rfl e List.mem_cons_self hce))
    | some m =>
      refine ⟨fun _ h => (nomatch h), fun _ x hx => ?_⟩
      cases hce : x.1.evalConstantExpr with
      | some c => exact hconst hce
      | none =>
        -- An array index is within its dimension.
        have hrange := hin.1
        rw [hm] at hrange
        exact (hvar hce).2 (f.lt_of_inRange hm hrange x hx)

/-! ## Constant indices -/

theorem constIdx_const {l : List (Index V × ℕ)} (h : ∀ x ∈ l, x.1.evalConstantExpr ≠ none) (idx idxBase : ℕ) (b : Bool) :
    constIdx l idx idxBase b = (idxLoop ((valuesOf ρ l).zip (l.map Prod.snd)) idx idxBase, b) := by
  induction l generalizing idx idxBase with
  | nil => rfl
  | cons x l ih =>
    obtain ⟨e, d⟩ := x
    have hrest := ih fun y hy => h y (List.mem_cons_of_mem _ hy)
    cases hc : e.evalConstantExpr with
    | none => exact absurd hc (h _ List.mem_cons_self)
    | some c =>
      have hval : e.eval ρ = c := e.sound c hc ρ
      rw [constIdx, hc]
      dsimp only
      rw [hrest, ← hval]
      rfl

theorem constIdx_false (l : List (Index V × ℕ)) (idx idxBase : ℕ) : (constIdx l idx idxBase false).2 = false := by
  induction l generalizing idx idxBase with
  | nil => rfl
  | cons x l ih =>
    obtain ⟨e, d⟩ := x
    unfold constIdx
    cases e.evalConstantExpr with
    | none => exact ih _ _
    | some c => exact ih _ _

theorem constIdx_var {l : List (Index V × ℕ)} (h : ∃ x ∈ l, x.1.evalConstantExpr = none) (idx idxBase : ℕ) (b : Bool) :
    (constIdx l idx idxBase b).2 = false := by
  induction l generalizing idx idxBase with
  | nil =>
    obtain ⟨x, hx, _⟩ := h
    cases hx
  | cons x l ih =>
    obtain ⟨e, d⟩ := x
    unfold constIdx
    cases hc : e.evalConstantExpr with
    | none => exact constIdx_false _ _ _
    | some c =>
      obtain ⟨y, hy, hnone⟩ := h
      rcases List.mem_cons.1 hy with rfl | hy
      · rw [hc] at hnone
        cases hnone
      · exact ih ⟨y, hy, hnone⟩ _ _

/-- **The bits of a path** with constant indices. -/
theorem getSubFieldRange_const (h : ∀ x ∈ slots path, x.1.evalConstantExpr ≠ none) (low width : ℕ) (b : Bool) :
    getSubFieldRange path low width b = (low + addr ρ path, lastWidth width path, b) := by
  induction path generalizing low width with
  | nil => rfl
  | cons f path ih =>
    obtain ⟨hf, hrest⟩ := List.forall_mem_append.1 h
    have hlen : (valuesOf ρ f.slots).length = f.slots.length := List.length_map _
    have hconst := @constIdx_const V ρ f.slots hf 0 1 b
    rw [f.idxLoop_slots hlen, values_slots] at hconst
    unfold getSubFieldRange
    dsimp only
    rw [hconst, ih hrest, addr, Nat.add_assoc]
    rfl

/-- An index that is no constant is found. -/
theorem getSubFieldRange_var (h : ∃ x ∈ slots path, x.1.evalConstantExpr = none) (low width : ℕ) (b : Bool) :
    (getSubFieldRange path low width b).2.2 = false := by
  have hfalse (p : List (CScSubField V)) (low width : ℕ) : (getSubFieldRange p low width false).2.2 = false := by
    induction p generalizing low width with
    | nil => rfl
    | cons f p ih =>
      unfold getSubFieldRange
      dsimp only
      rw [constIdx_false]
      exact ih _ _
  induction path generalizing low width b with
  | nil =>
    obtain ⟨x, hx, _⟩ := h
    cases hx
  | cons f path ih =>
    obtain ⟨x, hx, hnone⟩ := h
    unfold getSubFieldRange
    dsimp only
    rcases List.mem_append.1 hx with hx | hx
    · rw [constIdx_var ⟨x, hx, hnone⟩]
      exact hfalse _ _ _
    · exact ih ⟨x, hx, hnone⟩ _ _ _

end OpenHT.Htfe.RamWrite
