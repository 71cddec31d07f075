import OpenHT.Htfe.VarInit

/-!
# The state of the loop over an initializer

The index vector is always the one of the number of values so far, so that the state is a list of values.

* `indexAt`: the index vector of an element; `dimenIter_indexAt`: the next one.
* `placed`: the assignments of values; `placed_assigns`: every element is assigned once.
* `stateAt`: the state after some values.
* `fill_after`, `closeBrace_after`, `closeBrace_open`: what a closing brace fills.
* `go_expr`, `go_lbrace`, `go_comma_value`: the steps of the loop.
-/

namespace OpenHT.Htfe.VarInit

open RowMajor Dimen

variable {V : Type}

/-! ## Index vectors -/

/-- The index vector of an element, in row-major order. -/
def indexAt : List ℕ → ℕ → List ℕ
  | [], _ => []
  | d :: ds, p => p / RowMajor.count ds % d :: indexAt ds p

section Index

variable {dims ds pre : List ℕ} {d p q : ℕ}

theorem indexAt_cons (d : ℕ) (ds : List ℕ) (p : ℕ) :
    indexAt (d :: ds) p = p / RowMajor.count ds % d :: indexAt ds p := rfl

theorem count_cons (d : ℕ) (ds : List ℕ) : RowMajor.count (d :: ds) = d * RowMajor.count ds := rfl

theorem count_pos (h : ∀ d ∈ dims, 0 < d) : 0 < RowMajor.count dims := by
  induction dims with
  | nil => exact Nat.zero_lt_one
  | cons d ds ih =>
    rw [count_cons]
    exact Nat.mul_pos (h d List.mem_cons_self) (ih fun e he => h e (List.mem_cons_of_mem _ he))

theorem indexAt_length (dims : List ℕ) (p : ℕ) : (indexAt dims p).length = dims.length := by
  induction dims with
  | nil => rfl
  | cons d ds ih => rw [indexAt_cons, List.length_cons, ih, List.length_cons]

theorem indexAt_zero (dims : List ℕ) : indexAt dims 0 = dims.map fun _ => 0 := by
  induction dims with
  | nil => rfl
  | cons d ds ih => rw [indexAt_cons, ih, Nat.zero_div, Nat.zero_mod, List.map_cons]

theorem indexAt_getElem? (pre ds : List ℕ) (d p : ℕ) :
    (indexAt (pre ++ d :: ds) p)[pre.length]? = some (p / RowMajor.count ds % d) := by
  induction pre with
  | nil => rfl
  | cons e pre ih => exact ih

/-- The whole rows of an array of lower dimension are at its first element. -/
theorem indexAt_dvd (h : RowMajor.count ds ∣ p) (hpos : ∀ d ∈ ds, 0 < d) : ∀ i ∈ indexAt ds p, i = 0 := by
  induction ds with
  | nil => exact fun i hi => absurd hi List.not_mem_nil
  | cons d ds ih =>
    have hpos' : ∀ e ∈ ds, 0 < e := fun e he => hpos e (List.mem_cons_of_mem _ he)
    obtain ⟨k, rfl⟩ := h
    intro i hi
    rcases List.mem_cons.1 hi with rfl | hi
    · rw [count_cons, Nat.mul_assoc, Nat.mul_comm (RowMajor.count ds) k, ← Nat.mul_assoc,
        Nat.mul_div_cancel _ (count_pos hpos'), Nat.mul_mod_right]
    · refine ih ?_ hpos' i hi
      rw [count_cons]
      exact Dvd.dvd.mul_right (Nat.dvd_mul_left _ _) _

/-- The first index does not count above its dimension. -/
theorem indexAt_lead {d e : ℕ} (hd : p < d * RowMajor.count ds) (he : p < e * RowMajor.count ds) :
    indexAt (d :: ds) p = indexAt (e :: ds) p := by
  have hlt : p / RowMajor.count ds < d := Nat.div_lt_of_lt_mul (Nat.mul_comm _ d ▸ hd)
  have hlt' : p / RowMajor.count ds < e := Nat.div_lt_of_lt_mul (Nat.mul_comm _ e ▸ he)
  rw [indexAt_cons, indexAt_cons, Nat.mod_eq_of_lt hlt, Nat.mod_eq_of_lt hlt']

/-- A digit counts modulo its dimension. -/
theorem count_mod (hd : 0 < d) (k : ℕ) :
    (Odometer.count d (k % d)).1 = (k + 1) % d ∧ (Odometer.count d (k % d)).2 = decide ((k + 1) % d = 0) := by
  have hlt := Nat.mod_lt k hd
  have hsucc : (k + 1) % d = (k % d + 1) % d := by rw [Nat.mod_add_mod]
  rw [hsucc]
  unfold Odometer.count
  by_cases h : k % d + 1 < d
  · rw [if_pos h, Nat.mod_eq_of_lt h]
    exact ⟨rfl, (decide_eq_false (Nat.succ_ne_zero _)).symm⟩
  · have hend : k % d + 1 = d := by omega
    rw [if_neg h, hend, Nat.mod_self]
    exact ⟨rfl, rfl⟩

/-- **The next index vector.** -/
theorem dimenIter_indexAt (hpos : ∀ d ∈ dims, 0 < d) (p : ℕ) :
    dimenIter dims (constList dims) (indexAt dims p) =
      (indexAt dims (p + 1), decide (RowMajor.count dims ∣ p + 1)) := by
  induction dims with
  | nil =>
    have hone : RowMajor.count [] ∣ p + 1 := Nat.one_dvd _
    simp only [hone, decide_true]
    rfl
  | cons d ds ih =>
    have hd := hpos d List.mem_cons_self
    have hpos' : ∀ e ∈ ds, 0 < e := fun e he => hpos e (List.mem_cons_of_mem _ he)
    have hS := count_pos hpos'
    have hih := ih hpos'
    have hconst : constList (d :: ds) = false :: constList ds := rfl
    rw [hconst, indexAt_cons, dimenIter, hih]
    by_cases hdvd : RowMajor.count ds ∣ p + 1
    · have hsucc : (p + 1) / RowMajor.count ds = p / RowMajor.count ds + 1 := Nat.succ_div_of_dvd hdvd
      have hp : p + 1 = (p / RowMajor.count ds + 1) * RowMajor.count ds := by
        rw [← hsucc, Nat.div_mul_cancel hdvd]
      have hround : RowMajor.count (d :: ds) ∣ p + 1 ↔ (p / RowMajor.count ds + 1) % d = 0 := by
        rw [hp, count_cons, ← Nat.dvd_iff_mod_eq_zero]
        exact Nat.mul_dvd_mul_iff_right hS
      rw [if_pos (decide_eq_true hdvd), if_neg Bool.false_ne_true, indexAt_cons, hsucc]
      obtain ⟨hfirst, hsecond⟩ := count_mod hd (p / RowMajor.count ds)
      rw [hfirst, hsecond, decide_eq_decide.2 hround]
    · have hsame : (p + 1) / RowMajor.count ds = p / RowMajor.count ds := Nat.succ_div_of_not_dvd hdvd
      have hnot : ¬ RowMajor.count (d :: ds) ∣ p + 1 := fun h => hdvd (Dvd.dvd.trans (Nat.dvd_mul_left _ _) h)
      rw [if_neg (by rw [decide_eq_false hdvd]; exact Bool.false_ne_true), indexAt_cons, hsame, decide_eq_false hnot]

theorem indexAt_inRange (hpos : ∀ d ∈ dims, 0 < d) (p : ℕ) : InRange dims (indexAt dims p) := by
  induction dims with
  | nil => trivial
  | cons d ds ih =>
    exact ⟨Nat.mod_lt _ (hpos d List.mem_cons_self), ih fun e he => hpos e (List.mem_cons_of_mem _ he)⟩

theorem offset_indexAt (hpos : ∀ d ∈ dims, 0 < d) (p : ℕ) : offset dims (indexAt dims p) = p % RowMajor.count dims := by
  induction dims with
  | nil => exact (Nat.mod_one p).symm
  | cons d ds ih =>
    have hpos' : ∀ e ∈ ds, 0 < e := fun e he => hpos e (List.mem_cons_of_mem _ he)
    rw [indexAt_cons, offset, ih hpos', count_cons, Nat.mul_comm d, Nat.mod_mul, Nat.add_comm, Nat.mul_comm (p / _ % d)]

end Index

/-! ## States -/

/-- The assignments of the first elements. -/
def placed (dims : List ℕ) (vs : List V) : List (List ℕ × V) := vs.zipIdx.map fun p => (indexAt dims p.2, p.1)

theorem placed_concat (dims : List ℕ) (vs : List V) (v : V) :
    placed dims (vs ++ [v]) = placed dims vs ++ [(indexAt dims vs.length, v)] := by
  rw [placed, placed, List.zipIdx_append, List.map_append, Nat.zero_add]
  rfl

theorem placed_fst (dims : List ℕ) (vs : List V) :
    (placed dims vs).map Prod.fst = (List.range vs.length).map (indexAt dims) := by
  have hcomp : (Prod.fst ∘ fun p : V × ℕ => (indexAt dims p.2, p.1)) = indexAt dims ∘ Prod.snd := rfl
  rw [placed, List.map_map, hcomp, ← List.map_map, List.zipIdx_map_snd, List.range_eq_range']

/-- **Every element is assigned once.** -/
theorem placed_assigns {dims : List ℕ} {vs : List V} (hpos : ∀ d ∈ dims, 0 < d) (hlen : vs.length = RowMajor.count dims) :
    Assigns (placed dims vs) dims vs := by
  have hoffset : ∀ p < RowMajor.count dims, offset dims (indexAt dims p) = p := fun p hp => by
    rw [offset_indexAt hpos, Nat.mod_eq_of_lt hp]
  refine ⟨?_, fun idx => ?_, fun p hp => ?_⟩
  · rw [placed_fst, hlen]
    refine List.Nodup.map_on (fun p hp q hq heq => ?_) List.nodup_range
    rw [← hoffset p (List.mem_range.1 hp), heq, hoffset q (List.mem_range.1 hq)]
  · rw [placed_fst, hlen, List.mem_map]
    constructor
    · rintro ⟨p, -, rfl⟩
      exact indexAt_inRange hpos p
    · intro h
      have hlt := offset_lt h
      exact ⟨offset dims idx, List.mem_range.2 hlt, offset_inj (indexAt_inRange hpos _) h (hoffset _ hlt)⟩
  · obtain ⟨⟨v, i⟩, hmem, rfl⟩ := List.mem_map.1 hp
    have hget := List.mem_zipIdx_iff_getElem?.1 hmem
    have hi : i < RowMajor.count dims := hlen ▸ (List.getElem?_eq_some_iff.1 hget).1
    rw [hoffset i hi, hget]

/-- The leading dimension makes no difference. -/
theorem placed_lead {ds : List ℕ} {d e : ℕ} {vs : List V} (hd : vs.length ≤ d * RowMajor.count ds)
    (he : vs.length ≤ e * RowMajor.count ds) : placed (d :: ds) vs = placed (e :: ds) vs := by
  apply List.map_congr_left
  rintro ⟨v, i⟩ hmem
  have hi : i < vs.length := (List.getElem?_eq_some_iff.1 (List.mem_zipIdx_iff_getElem?.1 hmem)).1
  rw [indexAt_lead (Nat.lt_of_lt_of_le hi hd) (Nat.lt_of_lt_of_le hi he)]

/-- The state after some values. -/
def stateAt (dims : List ℕ) (lvl : ℕ) (vs : List V) : State V := ⟨lvl, indexAt dims vs.length, placed dims vs⟩

section Place

variable {dims ds pre : List ℕ} {d b q : ℕ}

/-- An index within a part of the array that begins at `b`. -/
theorem index_within (hb : d * RowMajor.count ds ∣ b) (hS : 0 < RowMajor.count ds) :
    (b + q) / RowMajor.count ds % d = q / RowMajor.count ds % d := by
  obtain ⟨c, rfl⟩ := hb
  have hmul : d * RowMajor.count ds * c + q = q + RowMajor.count ds * (d * c) := by ring
  rw [hmul, Nat.add_mul_div_left _ _ hS, Nat.add_mul_mod_self_left]

/-- The index is 0 at the end of the part, and not before it, from the second row on. -/
theorem index_eq_zero (hb : d * RowMajor.count ds ∣ b) (hS : 0 < RowMajor.count ds) (hge : RowMajor.count ds ≤ q)
    (hle : q ≤ d * RowMajor.count ds) : (b + q) / RowMajor.count ds % d = 0 ↔ q = d * RowMajor.count ds := by
  rw [index_within hb hS]
  have hone : 1 ≤ q / RowMajor.count ds := (Nat.one_le_div_iff hS).2 hge
  constructor
  · intro h
    apply Nat.le_antisymm hle
    apply Nat.le_of_not_lt
    intro hlt
    have hrow : q / RowMajor.count ds < d := Nat.div_lt_of_lt_mul (Nat.mul_comm _ d ▸ hlt)
    rw [Nat.mod_eq_of_lt hrow] at h
    omega
  · intro h
    rw [h, Nat.mul_div_cancel _ hS, Nat.mod_self]

theorem count_append (pre ds : List ℕ) : RowMajor.count (pre ++ ds) = RowMajor.count pre * RowMajor.count ds := by
  induction pre with
  | nil => exact (Nat.one_mul _).symm
  | cons e pre ih => rw [List.cons_append, count_cons, count_cons, ih, Nat.mul_assoc]

end Place

section Steps

variable [Zero V] {dims ds pre : List ℕ} {d b q lvl : ℕ} {vs : List V} {bAuto : Bool} {ts : List (Token V)}

omit [Zero V] in
theorem insert_after (hpos : ∀ d ∈ dims, 0 < d) (lvl : ℕ) (vs : List V) (v : V) :
    (stateAt dims lvl vs).insert dims v = stateAt dims lvl (vs ++ [v]) := by
  simp only [State.insert, stateAt, dimenIter_indexAt hpos, placed_concat, List.length_append,
    List.length_singleton]

/-- **Filling.** From the second row on, a part is filled to its end. -/
theorem fill_after (hdims : dims = pre ++ d :: ds) (hpos : ∀ d ∈ dims, 0 < d) (lvl : ℕ)
    (hb : d * RowMajor.count ds ∣ b) (hlen : vs.length = b + q) (hge : RowMajor.count ds ≤ q)
    (hle : q ≤ d * RowMajor.count ds) {n : ℕ} (hn : d * RowMajor.count ds - q < n) :
    fill dims pre.length n (stateAt dims lvl vs) =
      some (stateAt dims lvl (vs ++ List.replicate (d * RowMajor.count ds - q) 0)) := by
  have hS : 0 < RowMajor.count ds := by
    apply count_pos
    intro e he
    exact hpos e (hdims ▸ List.mem_append_right _ (List.mem_cons_of_mem _ he))
  have hindex : ∀ p, (indexAt dims p)[pre.length]? = some (p / RowMajor.count ds % d) := fun p => by
    rw [hdims, indexAt_getElem?]
  induction n generalizing vs q with
  | zero => exact absurd hn (Nat.not_lt_zero _)
  | succ n ih =>
    have hfirst : (stateAt dims lvl vs).refList[pre.length]? = some ((b + q) / RowMajor.count ds % d) := by
      rw [stateAt, hlen, hindex]
    rw [fill, hfirst, Option.bind_some]
    by_cases hend : q = d * RowMajor.count ds
    · rw [if_pos ((index_eq_zero hb hS hge hle).2 hend), hend, Nat.sub_self, List.replicate_zero, List.append_nil]
    · obtain ⟨k, hk⟩ : ∃ k, d * RowMajor.count ds - q = k + 1 := ⟨d * RowMajor.count ds - q - 1, by omega⟩
      have hlen' : (vs ++ [0]).length = b + (q + 1) := by rw [List.length_append, List.length_singleton, hlen, Nat.add_assoc]
      have hstep := ih hlen' (by omega) (by omega) (by omega)
      have hk' : d * RowMajor.count ds - (q + 1) = k := by omega
      rw [if_neg fun h => hend ((index_eq_zero hb hS hge hle).1 h), insert_after hpos, hstep, hk, hk',
        List.append_assoc, List.replicate_succ]
      rfl

/-- **A closing brace** of a part that has a full row. -/
theorem closeBrace_after (hdims : dims = pre ++ d :: ds) (hpos : ∀ d ∈ dims, 0 < d)
    (hb : d * RowMajor.count ds ∣ b) (hlen : vs.length = b + q) (hge : RowMajor.count ds ≤ q)
    (hle : q ≤ d * RowMajor.count ds) (hauto : pre = [] → bAuto = false) :
    closeBrace dims bAuto (stateAt dims (pre.length + 1) vs) =
      some (stateAt dims pre.length (vs ++ List.replicate (d * RowMajor.count ds - q) 0)) := by
  have hnot : (decide (pre.length = 0) && bAuto) = false := by
    cases pre with
    | nil => rw [hauto rfl, Bool.and_false]
    | cons e pre => rfl
  have hcount : d * RowMajor.count ds ≤ RowMajor.count dims := by
    rw [hdims, count_append, count_cons]
    apply Nat.le_mul_of_pos_left
    exact count_pos fun e he => hpos e (hdims ▸ List.mem_append_left _ he)
  have hfill := fill_after hdims hpos pre.length hb hlen hge hle (by omega : _ < RowMajor.count dims + 1)
  rw [closeBrace]
  simp only [stateAt, Nat.add_sub_cancel, hnot, Bool.false_and, Bool.false_eq_true, if_false]
  exact hfill

/-- The closing brace of an array without a leading dimension, at the end of a row. -/
theorem closeBrace_open (hdims : dims = d :: ds) (hpos : ∀ d ∈ dims, 0 < d) (hlen : RowMajor.count ds ∣ vs.length) :
    closeBrace dims true (stateAt dims 1 vs) = some (stateAt dims 0 vs) := by
  have hzero : (indexAt dims vs.length).tail.all (· = 0) = true := by
    rw [List.all_eq_true, hdims]
    intro i hi
    exact decide_eq_true (indexAt_dvd hlen (fun e he => hpos e (hdims ▸ List.mem_cons_of_mem _ he)) i hi)
  rw [closeBrace]
  simp only [stateAt, Nat.sub_self, decide_true, Bool.true_and, hzero, if_true]

attribute [local simp] go

theorem go_expr (hpos : ∀ d ∈ dims, 0 < d) (v : V) :
    go dims bAuto (.expr v :: ts) .item (stateAt dims lvl vs) = go dims bAuto ts .afterValue (stateAt dims lvl (vs ++ [v])) := by
  simp only [go, insert_after hpos]

theorem go_lbrace (hdims : dims = pre ++ d :: ds) (hzero : vs.length / RowMajor.count ds % d = 0) :
    go dims bAuto (.lbrace :: ts) .item (stateAt dims pre.length vs) =
      go dims bAuto ts .item (stateAt dims (pre.length + 1) vs) := by
  have hindex : (stateAt dims pre.length vs).refList[pre.length]? = some 0 := by
    rw [stateAt, hdims, indexAt_getElem?, hzero]
  have hlvl : (stateAt dims pre.length vs).openBraceLvl = pre.length := rfl
  simp only [go, hlvl, hindex, ne_eq, not_true_eq_false, and_false, if_false]
  rfl

/-- An opening brace in the middle of a row. -/
theorem go_lbrace_error (hdims : dims = pre ++ d :: ds) (hne : vs.length / RowMajor.count ds % d ≠ 0) :
    go dims bAuto (.lbrace :: ts) .item (stateAt dims pre.length vs) = some .error := by
  have hindex : (stateAt dims pre.length vs).refList[pre.length]? = some (vs.length / RowMajor.count ds % d) := by
    rw [stateAt, hdims, indexAt_getElem?]
  have hlvl : (stateAt dims pre.length vs).openBraceLvl = pre.length := rfl
  have hlt : pre.length < (stateAt dims pre.length vs).refList.length := by
    rw [stateAt, indexAt_length, hdims, List.length_append, List.length_cons]
    omega
  simp only [go, hlvl, hindex, ne_eq, Option.some.injEq, hne, not_false_eq_true, hlt, and_self, if_true]

theorem go_rbrace {place : Place} (hplace : place ≠ .item) {s : State V} (hlvl : s.openBraceLvl ≠ 0) :
    go dims bAuto (.rbrace :: ts) place s = (closeBrace dims bAuto s).bind (go dims bAuto ts .afterBrace) := by
  cases place with
  | item => exact absurd rfl hplace
  | afterValue | afterBrace => simp only [go, hlvl, if_false]

theorem go_comma_brace (hlvl : lvl ≠ 0) :
    go dims bAuto (.comma :: ts) .afterBrace (stateAt dims lvl vs) = go dims bAuto ts .item (stateAt dims lvl vs) := by
  have hafter : (stateAt dims lvl vs).openBraceLvl = lvl := rfl
  have hplace : ¬ Place.afterBrace = .afterValue := fun h => Place.noConfusion h
  simp only [go, hafter, hlvl, hplace, false_and, if_false]

theorem go_comma_value (hdims : dims = pre ++ d :: ds) :
    go dims bAuto (.comma :: ts) .afterValue (stateAt dims (pre.length + 1) vs) =
      if vs.length / RowMajor.count ds % d = 0 then some .error
      else go dims bAuto ts .item (stateAt dims (pre.length + 1) vs) := by
  have hlvl : (stateAt dims (pre.length + 1) vs).openBraceLvl = pre.length + 1 := rfl
  have hindex : (stateAt dims (pre.length + 1) vs).refList[pre.length]? = some (vs.length / RowMajor.count ds % d) := by
    rw [stateAt, hdims, indexAt_getElem?]
  have hlen : ¬ (stateAt dims (pre.length + 1) vs).refList.length < pre.length + 1 := by
    rw [stateAt, indexAt_length, hdims, List.length_append, List.length_cons]
    omega
  simp only [go, hlvl, Nat.succ_ne_zero, if_false, Nat.add_sub_cancel, hindex, true_and, hlen, false_or,
    Option.some.injEq]

end Steps

end OpenHT.Htfe.VarInit
