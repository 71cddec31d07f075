import Mathlib.Algebra.BigOperators.Group.List.Basic
import Mathlib.Algebra.Order.Group.Nat
import Mathlib.Tactic.Ring

/-!
# Packing in order, each group on a boundary

Items are placed one behind the other; where the group changes, the next multiple of the alignment is taken.

* `up`: the next multiple.
* `place`, `stop`: the positions, and the first free position behind all items.
* `place_pairwise`, `place_chain`: items are apart, neighbours of one group touch, a group starts on a boundary.
* `exists_cover`: a multiple of the alignment below the end is inside an item.
* `stop_append`, `stop_group`: the end, group by group.
-/

namespace OpenHT.Packing

/-- The next multiple of `a`. -/
def up (a n : ℕ) : ℕ := (n + a - 1) / a * a

variable {a m n : ℕ}

theorem le_up (ha : 0 < a) : n ≤ up a n := by
  have h : n + a - 1 < (n + a - 1) / a * a + a := Nat.lt_div_mul_add ha
  unfold up
  omega

theorem dvd_up : a ∣ up a n := Nat.dvd_mul_left a _

theorem up_le (ha : 0 < a) (h : n ≤ m) (hm : a ∣ m) : up a n ≤ m := by
  obtain ⟨k, rfl⟩ := hm
  have hdiv : (n + a - 1) / a ≤ k := by
    have hlt : (n + a - 1) / a < k + 1 := by
      rw [Nat.div_lt_iff_lt_mul ha]
      calc n + a - 1 < a * k + a := by omega
        _ = (k + 1) * a := by ring
    omega
  calc (n + a - 1) / a * a ≤ k * a := Nat.mul_le_mul_right a hdiv
    _ = a * k := Nat.mul_comm k a

theorem up_of_dvd (ha : 0 < a) (h : a ∣ n) : up a n = n := Nat.le_antisymm (up_le ha (Nat.le_refl n) h) (le_up ha)

theorem up_lt (ha : 0 < a) : up a n < n + a := by
  have h : up a n ≤ n + a - 1 := Nat.div_mul_le_self (n + a - 1) a
  omega

theorem up_add (ha : 0 < a) (h : a ∣ m) : up a (m + n) = m + up a n := by
  obtain ⟨k, rfl⟩ := h
  unfold up
  have hsum : a * k + n + a - 1 = n + a - 1 + a * k := by omega
  rw [hsum, Nat.add_mul_div_left _ _ ha]
  ring

section Items

variable {α γ : Type*} [DecidableEq γ] {grp : α → γ} {size : α → ℕ} {g : Option γ} {off x : ℕ} {l l' : List α}

/-- The position of the next item. -/
def start (a : ℕ) (grp : α → γ) (g : Option γ) (off : ℕ) (i : α) : ℕ := if g = some (grp i) then off else up a off

def place (a : ℕ) (grp : α → γ) (size : α → ℕ) : Option γ → ℕ → List α → List (α × ℕ)
  | _, _, [] => []
  | g, off, i :: l =>
    (i, start a grp g off i) :: place a grp size (some (grp i)) (start a grp g off i + size i) l

attribute [local simp] place

def stop (a : ℕ) (grp : α → γ) (size : α → ℕ) : Option γ → ℕ → List α → ℕ
  | _, off, [] => off
  | g, off, i :: l => stop a grp size (some (grp i)) (start a grp g off i + size i) l

attribute [local simp] stop

theorem le_start (ha : 0 < a) (i : α) : off ≤ start a grp g off i := by
  unfold start
  split
  · exact Nat.le_refl _
  · exact le_up ha

theorem place_fst : (place a grp size g off l).map Prod.fst = l := by
  induction l generalizing g off with
  | nil => rfl
  | cons i l ih => simp [place, ih]

theorem le_place (ha : 0 < a) {c : α × ℕ} (hc : c ∈ place a grp size g off l) : off ≤ c.2 := by
  induction l generalizing g off with
  | nil => simp [place] at hc
  | cons i l ih =>
    have hi : off ≤ start a grp g off i := le_start ha i
    rcases List.mem_cons.1 hc with rfl | hc
    · exact hi
    · have hle := ih hc
      omega

/-- **An item ends where a later one starts, or before.** -/
theorem place_pairwise (ha : 0 < a) : (place a grp size g off l).Pairwise fun c d => c.2 + size c.1 ≤ d.2 := by
  induction l generalizing g off with
  | nil => exact List.Pairwise.nil
  | cons i l ih => exact List.pairwise_cons.2 ⟨fun d hd => le_place ha hd, ih⟩

theorem le_stop (ha : 0 < a) : off ≤ stop a grp size g off l := by
  induction l generalizing g off with
  | nil => exact Nat.le_refl _
  | cons i l ih =>
    have hi : off ≤ start a grp g off i := le_start ha i
    have hle : start a grp g off i + size i ≤ stop a grp size g off (i :: l) := ih
    omega

theorem place_stop (ha : 0 < a) {c : α × ℕ} (hc : c ∈ place a grp size g off l) :
    c.2 + size c.1 ≤ stop a grp size g off l := by
  induction l generalizing g off with
  | nil => simp [place] at hc
  | cons i l ih =>
    rcases List.mem_cons.1 hc with rfl | hc
    · exact le_stop ha
    · exact ih hc

/-- What neighbours have: in one group they touch, and a new group starts on a boundary. -/
def Joined (a : ℕ) (grp : α → γ) (size : α → ℕ) (c d : α × ℕ) : Prop :=
  if grp c.1 = grp d.1 then d.2 = c.2 + size c.1 else a ∣ d.2

theorem place_chain : (place a grp size g off l).IsChain (Joined a grp size) := by
  induction l generalizing g off with
  | nil => exact List.IsChain.nil
  | cons i l ih =>
    cases l with
    | nil => exact List.IsChain.singleton _
    | cons j l =>
      refine List.IsChain.cons_cons ?_ ih
      simp only [Joined, start, Option.some.injEq]
      split
      · rfl
      · exact dvd_up

/-- **A multiple of the alignment in front of an item** is inside an earlier one. -/
theorem exists_cover (ha : 0 < a) (hx : a ∣ x) (hlo : off ≤ x) {k : ℕ} {d : α × ℕ}
    (hd : (place a grp size g off l)[k]? = some d) (hhi : x < d.2) :
    ∃ j < k, ∃ c, (place a grp size g off l)[j]? = some c ∧ c.2 ≤ x ∧ x < c.2 + size c.1 := by
  induction l generalizing g off k with
  | nil => simp [place] at hd
  | cons i l ih =>
    have hstart : start a grp g off i ≤ x := by
      unfold start
      split
      · exact hlo
      · exact up_le ha hlo hx
    cases k with
    | zero =>
      have heq : d = (i, start a grp g off i) := by simpa [place] using hd.symm
      rw [heq] at hhi
      simp only at hhi
      omega
    | succ k =>
      by_cases hin : x < start a grp g off i + size i
      · exact ⟨0, by omega, _, rfl, hstart, hin⟩
      · obtain ⟨j, hj, c, hc, hcov⟩ := ih (not_lt.1 hin) hd
        exact ⟨j + 1, by omega, c, hc, hcov⟩

/-- The last item ends at the end. -/
theorem exists_last (hl : l ≠ []) :
    ∃ c ∈ place a grp size g off l, c.1 = l.getLast hl ∧ c.2 + size c.1 = stop a grp size g off l := by
  induction l generalizing g off with
  | nil => exact absurd rfl hl
  | cons i l ih =>
    cases l with
    | nil => exact ⟨_, List.mem_cons_self, rfl, rfl⟩
    | cons j l =>
      obtain ⟨c, hc, hlast, hstop⟩ := ih (List.cons_ne_nil j l)
      exact ⟨c, List.mem_cons_of_mem _ hc, hlast.trans (List.getLast_cons (List.cons_ne_nil j l)).symm, hstop⟩

end Items

/-! ### Groups in descending order -/

section Groups

variable {α : Type*} {grp : α → ℕ} {size : α → ℕ} {b t k off : ℕ} {l : List α}

/-- The size of a group. -/
def total (grp : α → ℕ) (size : α → ℕ) (l : List α) (k : ℕ) : ℕ := ((l.filter fun i => grp i = k).map size).sum

theorem total_cons (i : α) :
    total grp size (i :: l) k = (if grp i = k then size i else 0) + total grp size l k := by
  unfold total
  by_cases h : grp i = k <;> simp [h]

theorem total_eq_zero (h : ∀ i ∈ l, grp i ≠ k) : total grp size l k = 0 := by
  have hnil : l.filter (fun i => grp i = k) = [] := by
    rw [List.filter_eq_nil_iff]
    simpa using h
  rw [total, hnil]
  rfl

theorem total_perm {l' : List α} (h : l.Perm l') : total grp size l k = total grp size l' k :=
  ((h.filter _).map size).sum_eq

theorem total_append {l' : List α} : total grp size (l ++ l') k = total grp size l k + total grp size l' k := by
  simp [total]

theorem total_map {β : Type*} (f : β → α) (l : List β) :
    total grp size (l.map f) k = total (fun x => grp (f x)) (fun x => size (f x)) l k := by
  simp only [total, List.filter_map, List.map_map]
  rfl

theorem total_congr {grp' : α → ℕ} {size' : α → ℕ} (h : ∀ i ∈ l, grp i = grp' i ∧ size i = size' i) :
    total grp size l k = total grp' size' l k := by
  induction l with
  | nil => rfl
  | cons i l ih =>
    obtain ⟨hg, hs⟩ := h i List.mem_cons_self
    rw [total_cons, total_cons, hg, hs, ih fun j hj => h j (List.mem_cons_of_mem i hj)]

/-- Items of one size. -/
theorem total_const (c : ℕ) : total grp (fun _ => c) l k = (l.filter fun i => grp i = k).length * c := by
  simp [total, List.map_const']

theorem stop_same (h : ∀ i ∈ l, grp i = k) : stop a grp size (some k) off l = off + total grp size l k := by
  induction l generalizing off with
  | nil => rfl
  | cons i l ih =>
    have hi : grp i = k := h i List.mem_cons_self
    have hstart : start a grp (some k) off i = off := by rw [start, hi, if_pos rfl]
    rw [stop, hi, hstart, ih (fun j hj => h j (List.mem_cons_of_mem i hj)), total_cons, if_pos hi]
    omega

/-- **The last group** is packed behind a boundary. -/
theorem stop_last (g : Option ℕ) (hg : g ≠ some k) (hs : l.Pairwise fun i j => grp j ≤ grp i)
    (hle : ∀ i ∈ l, k ≤ grp i) (hk : ∃ i ∈ l, grp i = k) :
    ∃ b, a ∣ b ∧ stop a grp size g off l = b + total grp size l k := by
  induction l generalizing g off with
  | nil => simp at hk
  | cons i l ih =>
    obtain ⟨hi, hs⟩ := List.pairwise_cons.1 hs
    by_cases hik : grp i = k
    · refine ⟨up a off, dvd_up, ?_⟩
      have hrest : ∀ j ∈ l, grp j = k := by
        intro j hj
        have hj1 := hi j hj
        have hj2 := hle j (List.mem_cons_of_mem i hj)
        omega
      have hstart : start a grp g off i = up a off := by rw [start, hik, if_neg hg]
      rw [stop, hik, hstart, stop_same hrest, total_cons, if_pos hik]
      omega
    · obtain ⟨j, hj, hjk⟩ := hk
      rcases List.mem_cons.1 hj with rfl | hj
      · exact absurd hjk hik
      · rw [stop, total_cons, if_neg hik, Nat.zero_add]
        exact ih _ (fun h => hik (Option.some.inj h)) hs (fun x hx => hle x (List.mem_cons_of_mem i hx)) ⟨j, hj, hjk⟩

/-- The groups below `n`, each rounded up. -/
def rounded (a : ℕ) (f : ℕ → ℕ) (n : ℕ) : ℕ := ((List.range n).map fun k => up a (f k)).sum

theorem rounded_succ (f : ℕ → ℕ) (n : ℕ) : rounded a f (n + 1) = rounded a f n + up a (f n) := by
  simp [rounded, List.range_succ]

theorem rounded_congr {f f' : ℕ → ℕ} {n : ℕ} (h : ∀ k < n, f k = f' k) : rounded a f n = rounded a f' n := by
  unfold rounded
  congr 1
  refine List.map_congr_left fun k hk => ?_
  rw [h k (List.mem_range.1 hk)]

theorem rounded_zeros (ha : 0 < a) {f : ℕ → ℕ} {m n : ℕ} (hmn : m ≤ n) (h : ∀ k, m ≤ k → k < n → f k = 0) :
    rounded a f n = rounded a f m := by
  induction n, hmn using Nat.le_induction with
  | base => rfl
  | succ n hmn ih =>
    rw [rounded_succ, ih (fun k hk hkn => h k hk (by omega)), h n hmn (by omega),
      up_of_dvd ha (dvd_zero a), Nat.add_zero]

/-- Groups below that of the first item. -/
theorem rounded_below (i : α) : rounded a (total grp size (i :: l)) (grp i) = rounded a (total grp size l) (grp i) := by
  refine rounded_congr fun j hj => ?_
  rw [total_cons, if_neg (by omega), Nat.zero_add]

/-- The first item is of the highest group. -/
theorem rounded_cons (ha : 0 < a) {i : α} {n : ℕ} (hi : ∀ j ∈ l, grp j ≤ grp i) (hn : grp i < n) :
    rounded a (total grp size (i :: l)) n =
      rounded a (total grp size l) (grp i) + up a (size i + total grp size l (grp i)) := by
  have hzero : ∀ j, grp i + 1 ≤ j → j < n → total grp size (i :: l) j = 0 := by
    intro j hj _
    refine total_eq_zero fun x hx hxj => ?_
    rcases List.mem_cons.1 hx with rfl | hx
    · omega
    · have hxi := hi x hx
      omega
  rw [rounded_zeros ha (show grp i + 1 ≤ n by omega) hzero, rounded_succ, rounded_below, total_cons, if_pos rfl]

theorem up_stop_aux (ha : 0 < a) (hb : a ∣ b) (hs : l.Pairwise fun i j => grp j ≤ grp i) (hle : ∀ i ∈ l, grp i ≤ k) :
    up a (stop a grp size (some k) (b + t) l) =
      b + up a (t + total grp size l k) + rounded a (total grp size l) k := by
  induction l generalizing k b t with
  | nil =>
    have hz : rounded a (total grp size []) k = 0 := rounded_zeros ha (Nat.zero_le k) fun _ _ _ => rfl
    rw [hz]
    exact up_add ha hb
  | cons i l ih =>
    obtain ⟨hi, hs⟩ := List.pairwise_cons.1 hs
    have hik : grp i ≤ k := hle i List.mem_cons_self
    by_cases heq : grp i = k
    · have hstart : start a grp (some k) (b + t) i = b + t := by rw [start, heq, if_pos rfl]
      have hbelow : rounded a (total grp size (i :: l)) (grp i) = rounded a (total grp size l) (grp i) :=
        rounded_below i
      rw [heq] at hbelow
      rw [stop, hstart, heq, Nat.add_assoc, ih hb hs (fun j hj => heq ▸ hi j hj), total_cons, if_pos heq, hbelow,
        Nat.add_assoc t]
    · have hstart : start a grp (some k) (b + t) i = b + up a t := by
        rw [start, if_neg (fun h => heq (Option.some.inj h).symm), up_add ha hb]
      have hzero : total grp size (i :: l) k = 0 := by
        refine total_eq_zero fun x hx hxk => ?_
        rcases List.mem_cons.1 hx with rfl | hx
        · exact heq hxk
        · have hxi := hi x hx
          omega
      rw [stop, hstart, ih (Nat.dvd_add hb dvd_up) hs hi, hzero, rounded_cons ha hi (by omega), Nat.add_zero]
      omega

/-- **The end, rounded up**, is the sum of the groups, each rounded up. -/
theorem up_stop (ha : 0 < a) (hs : l.Pairwise fun i j => grp j ≤ grp i) {n : ℕ} (hlt : ∀ i ∈ l, grp i < n) :
    up a (stop a grp size none 0 l) = rounded a (total grp size l) n := by
  cases l with
  | nil =>
    have hz : rounded a (total grp size []) n = 0 := rounded_zeros ha (Nat.zero_le n) fun _ _ _ => rfl
    rw [hz]
    exact up_of_dvd ha (dvd_zero a)
  | cons i l =>
    obtain ⟨hi, hs⟩ := List.pairwise_cons.1 hs
    have hstart : start a grp none 0 i = 0 := by
      rw [start, if_neg (by simp), up_of_dvd ha (dvd_zero a)]
    rw [stop, hstart, up_stop_aux ha (dvd_zero a) hs hi, rounded_cons ha hi (hlt i List.mem_cons_self)]
    omega

end Groups

end OpenHT.Packing
