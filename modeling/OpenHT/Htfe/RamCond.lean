import OpenHT.Htfe.RamWrite
import Mathlib.Data.List.Basic

/-!
# The condition of a write enable

The index expressions are put into the comparisons of the text one after the other, each where its number stands. An
index that is a literal puts a number of its own there.

* `Harmless`: no literal stands for the number of a later index with another value.
* `condition_harmless`: the condition then compares the indices with their values.
* `condition_broken`: otherwise it is false for all values.
-/

namespace OpenHT.Htfe.RamWrite

namespace CondExpr

variable {V : Type} {ρ : V} {m : ℕ} {e : Index V}

/-- The comparisons of a condition, with their right sides. -/
abbrev Comparisons (V : Type) := List (CondExpr V × ℕ)

def replaceFirst (m : ℕ) (e : Index V) : Comparisons V → Option (Comparisons V)
  | [] => none
  | (a, v) :: l => if a.isConst m then some ((operand e, v) :: l) else (replaceFirst m e l).map ((a, v) :: ·)

attribute [local simp] replaceFirst

def replaceEach : ℕ → List (Index V) → Comparisons V → Option (Comparisons V)
  | _, [], l => some l
  | m, e :: es, l => replaceFirst m e l >>= replaceEach (m + 1) es

attribute [local simp] CondExpr.eval CondExpr.replaceEqualEqualOp1

theorem replace_join (t : CondExpr V) (l : Comparisons V) :
    replaceEqualEqualOp1 m e (join t l) =
      match replaceEqualEqualOp1 m e t with
      | some t' => some (join t' l)
      | none => (replaceFirst m e l).map (join t) := by
  induction l generalizing t with
  | nil =>
    unfold join replaceFirst
    cases replaceEqualEqualOp1 m e t with
    | none => rfl
    | some t' => rfl
  | cons p l ih =>
    obtain ⟨a, v⟩ := p
    unfold join
    rw [ih, replaceFirst]
    simp only [replaceEqualEqualOp1]
    cases replaceEqualEqualOp1 m e t with
    | some t' => rfl
    | none =>
      by_cases ha : a.isConst m = true
      · rw [if_pos ha, if_pos ha]
        rfl
      · rw [if_neg ha, if_neg ha, Option.map_none, Option.map_map]
        rfl

/-- The search through the tree is one through the list. -/
theorem replace_joinAll {l : Comparisons V} {t : CondExpr V} (h : joinAll l = some t) :
    replaceEqualEqualOp1 m e t = replaceFirst m e l >>= joinAll := by
  cases l with
  | nil => cases h
  | cons p l =>
    obtain ⟨a, v⟩ := p
    obtain rfl : join (equalEqual a (constant v)) l = t := Option.some.inj h
    rw [replace_join, replaceFirst]
    unfold replaceEqualEqualOp1
    by_cases ha : a.isConst m = true
    · rw [if_pos ha, if_pos ha]
      rfl
    · rw [if_neg ha, if_neg ha, Option.map_eq_bind, Option.map_eq_bind, Option.bind_eq_bind, Option.bind_assoc]
      rfl

theorem joinAll_of_ne {l : Comparisons V} (h : l ≠ []) : ∃ t, joinAll l = some t := by
  cases l with
  | nil => exact absurd rfl h
  | cons p l => exact ⟨_, rfl⟩

theorem replaceAll_joinAll (es : List (Index V)) {idx : ℕ} {l : Comparisons V} {t : CondExpr V}
    (h : joinAll l = some t) : replaceAll idx es t = replaceEach idx es l >>= joinAll := by
  induction es generalizing idx l t with
  | nil => exact h.symm
  | cons e es ih =>
    unfold replaceAll replaceEach
    rw [replace_joinAll h]
    cases hl : replaceFirst idx e l with
    | none => rfl
    | some l' =>
      have hne : l' ≠ [] := by
        rintro rfl
        cases l with
        | nil => cases hl
        | cons p l =>
          unfold replaceFirst at hl
          split at hl
          · cases hl
          · cases hr : replaceFirst idx e l with
            | none => rw [hr] at hl; cases hl
            | some r => rw [hr] at hl; cases hl
      obtain ⟨t', ht'⟩ := joinAll_of_ne hne
      show (joinAll l' >>= replaceAll (idx + 1) es) = replaceEach (idx + 1) es l' >>= joinAll
      rw [ht']
      exact ih ht'

theorem eval_join (t : CondExpr V) (l : Comparisons V) :
    (join t l).eval ρ ≠ 0 ↔ t.eval ρ ≠ 0 ∧ ∀ p ∈ l, p.1.eval ρ = p.2 := by
  induction l generalizing t with
  | nil =>
    refine ⟨fun h => ⟨h, fun _ hp => (nomatch hp)⟩, And.left⟩
  | cons p l ih =>
    obtain ⟨a, v⟩ := p
    unfold join
    rw [ih, List.forall_mem_cons, ← and_assoc]
    refine and_congr_left fun _ => ?_
    simp only [eval]
    by_cases ht : t.eval ρ = 0
    · simp [ht]
    · by_cases ha : a.eval ρ = v
      · simp [ht, ha]
      · simp [ha]

/-- **The value of a condition**: all comparisons hold. -/
theorem eval_joinAll {l : Comparisons V} {t : CondExpr V} (h : joinAll l = some t) :
    t.eval ρ ≠ 0 ↔ ∀ p ∈ l, p.1.eval ρ = p.2 := by
  cases l with
  | nil => cases h
  | cons p l =>
    obtain ⟨a, v⟩ := p
    obtain rfl : join (equalEqual a (constant v)) l = t := Option.some.inj h
    rw [eval_join, List.forall_mem_cons]
    refine and_congr_left fun _ => ?_
    simp only [eval]
    by_cases ha : a.eval ρ = v
    · simp [ha]
    · simp [ha]

/-- **The first comparison with the number** gets the expression. -/
theorem replaceFirst_spec (m : ℕ) (e : Index V) (l : Comparisons V) {s : ℕ} (hs : s < l.length)
    (hm : l[s].1.isConst m = true) :
    ∃ k, ∃ hk : k < l.length, k ≤ s ∧ l[k].1.isConst m = true ∧
      replaceFirst m e l = some (l.set k (operand e, l[k].2)) := by
  induction l generalizing s with
  | nil => cases hs
  | cons p l ih =>
    obtain ⟨a, v⟩ := p
    unfold replaceFirst
    by_cases ha : a.isConst m = true
    · exact ⟨0, Nat.zero_lt_succ _, Nat.zero_le _, ha, if_pos ha⟩
    · cases s with
      | zero => exact absurd hm ha
      | succ s =>
        obtain ⟨k, hk, hks, hkm, hset⟩ := ih (Nat.lt_of_succ_lt_succ hs) hm
        refine ⟨k + 1, Nat.succ_lt_succ hk, Nat.succ_le_succ hks, hkm, ?_⟩
        rw [if_neg ha, hset]
        rfl

end CondExpr

open CondExpr

variable {V : Type} {ρ : V} {es : List (Index V)} {is : List ℕ} {j : ℕ} {l : Comparisons V}

/-- The index is a literal with this value. -/
def Index.Literal (e : Index V) (c : ℕ) : Prop := e.isConstValue = true ∧ e.evalConstantExpr = some c

theorem Index.Literal.eval {e : Index V} {c : ℕ} (h : e.Literal c) (ρ : V) : e.eval ρ = c := e.sound c h.2 ρ

theorem isConst_operand {e : Index V} {m : ℕ} : (operand e).isConst m = true ↔ e.Literal m := by
  unfold isConst Index.Literal
  rw [Bool.and_eq_true, beq_iff_eq]

theorem isConst_constant {V : Type} {c m : ℕ} : (constant c : CondExpr V).isConst m = true ↔ c = m := by
  unfold isConst
  rw [beq_iff_eq]

/-- A literal with the number of a later index before `j` stands for that index' value. -/
def HarmlessTo (ρ : V) (es : List (Index V)) (j : ℕ) : Prop :=
  ∀ k t (hk : k < es.length) (ht : t < es.length), k < t → t < j → es[k].Literal t → es[t].eval ρ = t

/-- The comparisons after the first `j` expressions are put in. -/
structure Patched (es : List (Index V)) (is : List ℕ) (j : ℕ) (l : Comparisons V) : Prop where
  length : l.length = es.length
  right : l.map Prod.snd = is
  ahead : ∀ s (hs : s < l.length), j ≤ s → l[s].1 = constant s

/-- So far each comparison has the value of its own index on the left. -/
structure Aligned (ρ : V) (es : List (Index V)) (j : ℕ) (l : Comparisons V) : Prop where
  value : ∀ s (hs : s < l.length) (he : s < es.length), s < j → l[s].1.eval ρ = es[s].eval ρ
  shape : ∀ s (hs : s < l.length) (he : s < es.length), s < j →
    l[s].1 = constant s ∨ l[s].1 = operand es[s] ∨ ∃ t < j, es[s].Literal t

/-- Index `j` has lost its own comparison: the number is still there, and the expression is where a literal was. -/
structure Broken (es : List (Index V)) (j : ℕ) (l : Comparisons V) : Prop where
  number : ∃ hj : j < l.length, l[j].1 = constant j
  moved : ∀ hj : j < es.length, es[j].isConstValue = false →
    ∃ s, ∃ hs : s < l.length, ∃ he : s < es.length, es[s].Literal j ∧ l[s].1 = operand es[j]

namespace Patched

/-- The number of the next index is still there, so that the search finds one. -/
theorem finds (h : Patched es is j l) (hj : j < es.length) :
    ∃ k, ∃ hk : k < l.length, k ≤ j ∧ l[k].1.isConst j = true ∧
      replaceFirst j es[j] l = some (l.set k (operand es[j], l[k].2)) := by
  have hjl : j < l.length := h.length ▸ hj
  exact replaceFirst_spec j es[j] l hjl (h.ahead j hjl (Nat.le_refl j) ▸ isConst_constant.2 rfl)

theorem set (h : Patched es is j l) {k : ℕ} (hk : k < l.length) (hkj : k ≤ j) (a : CondExpr V) :
    Patched es is (j + 1) (l.set k (a, l[k].2)) := by
  refine ⟨?_, ?_, ?_⟩
  · rw [List.length_set]
    exact h.length
  · rw [List.map_set, ← h.right]
    refine List.ext_getElem (by simp) fun t h1 h2 => ?_
    rw [List.getElem_set]
    split
    · rename_i heq
      subst heq
      rw [List.getElem_map]
    · rfl
  · intro s hs hjs
    rw [List.getElem_set_ne (by omega)]
    exact h.ahead s _ (by omega)

end Patched

/-- A comparison before `j` that matches the number `j` still has its own index, which is a literal. -/
theorem Aligned.matched (ha : Aligned ρ es j l) {k : ℕ} (hk : k < l.length) (he : k < es.length) (hkj : k < j)
    (hm : l[k].1.isConst j = true) : es[k].Literal j ∧ l[k].1 = operand es[k] := by
  rcases ha.shape k hk he hkj with hs | hs | ⟨t, ht, hlit⟩
  · rw [hs, isConst_constant] at hm
    omega
  · rw [hs, isConst_operand] at hm
    exact ⟨hm, hs⟩
  · -- The value of the comparison is that of the literal, which is another number.
    have hval := ha.value k hk he hkj
    rw [hlit.eval] at hval
    have hnum : l[k].1.eval ρ = j := by
      cases hx : l[k].1 with
      | constant c =>
        rw [hx, isConst_constant] at hm
        exact hm
      | operand e =>
        rw [hx, isConst_operand] at hm
        exact hm.eval ρ
      | equalEqual a b =>
        rw [hx] at hm
        cases hm
      | ampersandAmpersand a b =>
        rw [hx] at hm
        cases hm
    omega

/-- **An index with its own value** keeps the comparisons in line. -/
theorem Aligned.step (h : Patched es is j l) (ha : Aligned ρ es j l) (hj : j < es.length)
    (hval : ∀ k (hk : k < es.length), k < j → es[k].Literal j → es[j].eval ρ = j) :
    ∃ l', replaceFirst j es[j] l = some l' ∧ Patched es is (j + 1) l' ∧ Aligned ρ es (j + 1) l' := by
  obtain ⟨k, hk, hkj, hm, hset⟩ := h.finds hj
  have hke : k < es.length := h.length ▸ hk
  refine ⟨_, hset, h.set hk hkj _, ?_⟩
  have hother (s : ℕ) (hs : s < (l.set k (operand es[j], l[k].2)).length) (hne : k ≠ s) :
      ∃ hsl : s < l.length, (l.set k (operand es[j], l[k].2))[s] = l[s] :=
    ⟨by simpa using hs, List.getElem_set_ne hne _⟩
  by_cases heq : k = j
  · subst heq
    refine ⟨?_, ?_⟩
    · intro s hs he hsj
      by_cases hsk : k = s
      · subst hsk
        rw [List.getElem_set_self]
        rfl
      · obtain ⟨hsl, hsame⟩ := hother s hs hsk
        rw [hsame]
        exact ha.value s _ he (by omega)
    · intro s hs he hsj
      by_cases hsk : k = s
      · subst hsk
        rw [List.getElem_set_self]
        exact .inr (.inl rfl)
      · obtain ⟨hsl, hsame⟩ := hother s hs hsk
        rw [hsame]
        rcases ha.shape s hsl he (by omega) with h1 | h1 | ⟨t, ht, h1⟩
        · exact .inl h1
        · exact .inr (.inl h1)
        · exact .inr (.inr ⟨t, by omega, h1⟩)
  · -- The expression goes to the place of a literal with its number, and has the same value.
    have hlt : k < j := by omega
    obtain ⟨hlit, _⟩ := ha.matched hk hke hlt hm
    have hown := hval k hke hlt hlit
    refine ⟨?_, ?_⟩
    · intro s hs he hsj
      by_cases hsk : k = s
      · subst hsk
        rw [List.getElem_set_self]
        show es[j].eval ρ = es[k].eval ρ
        rw [hown, hlit.eval]
      · obtain ⟨hsl, hsame⟩ := hother s hs hsk
        rw [hsame]
        by_cases hsj' : s = j
        · subst hsj'
          rw [h.ahead s _ (Nat.le_refl s)]
          exact hown.symm
        · exact ha.value s _ he (by omega)
    · intro s hs he hsj
      by_cases hsk : k = s
      · subst hsk
        exact .inr (.inr ⟨j, Nat.lt_succ_self j, hlit⟩)
      · obtain ⟨hsl, hsame⟩ := hother s hs hsk
        rw [hsame]
        by_cases hsj' : s = j
        · subst hsj'
          exact .inl (h.ahead s _ (Nat.le_refl s))
        · rcases ha.shape s hsl he (by omega) with h1 | h1 | ⟨t, ht, h1⟩
          · exact .inl h1
          · exact .inr (.inl h1)
          · exact .inr (.inr ⟨t, by omega, h1⟩)

/-- **An index with another value** than the number that a literal before it has loses its comparison. -/
theorem Aligned.breaks (h : Patched es is j l) (ha : Aligned ρ es j l) (hj : j < es.length) {k : ℕ}
    (hk : k < es.length) (hkj : k < j) (hlit : es[k].Literal j) :
    ∃ l', replaceFirst j es[j] l = some l' ∧ Patched es is (j + 1) l' ∧ Broken es j l' := by
  have hkl : k < l.length := h.length.symm ▸ hk
  have hjl : j < l.length := h.length.symm ▸ hj
  -- The literal is still in its own comparison.
  have hkm : l[k].1.isConst j = true := by
    rcases ha.shape k hkl hk hkj with hs | hs | ⟨t, ht, hlit'⟩
    · have hval := ha.value k hkl hk hkj
      rw [hs, hlit.eval] at hval
      simp only [eval] at hval
      omega
    · rw [hs]
      exact isConst_operand.2 hlit
    · have := hlit.2.symm.trans hlit'.2
      cases this
      omega
  obtain ⟨s, hs, hsk, hm, hset⟩ := replaceFirst_spec j es[j] l hkl hkm
  have hse : s < es.length := h.length ▸ hs
  obtain ⟨hslit, _⟩ := ha.matched hs hse (by omega) hm
  refine ⟨_, hset, h.set hs (by omega) _, ?_, ?_⟩
  · refine ⟨by simpa using hjl, ?_⟩
    rw [List.getElem_set_ne (by omega)]
    exact h.ahead j hjl (Nat.le_refl j)
  · intro _ _
    refine ⟨s, by simpa using hs, hse, hslit, ?_⟩
    rw [List.getElem_set_self]

/-- A later step leaves it so. -/
theorem Broken.step {m : ℕ} (h : Patched es is m l) (hb : Broken es j l) (hjm : j < m) (hm : m < es.length) :
    ∃ l', replaceFirst m es[m] l = some l' ∧ Patched es is (m + 1) l' ∧ Broken es j l' := by
  obtain ⟨k, hk, hkm, hmatch, hset⟩ := h.finds hm
  obtain ⟨hj, hnum⟩ := hb.number
  refine ⟨_, hset, h.set hk hkm _, ?_, ?_⟩
  · have hne : k ≠ j := by
      rintro rfl
      rw [hnum, isConst_constant] at hmatch
      omega
    refine ⟨by simpa using hj, ?_⟩
    rw [List.getElem_set_ne hne]
    exact hnum
  · intro hje hnot
    obtain ⟨s, hs, hse, hlit, hop⟩ := hb.moved hje hnot
    have hne : k ≠ s := by
      rintro rfl
      rw [hop, isConst_operand] at hmatch
      rw [hmatch.1] at hnot
      cases hnot
    refine ⟨s, by simpa using hs, hse, hlit, ?_⟩
    rw [List.getElem_set_ne hne]
    exact hop

/-! ## All expressions -/

theorem replaceEach_aligned (hval : HarmlessTo ρ es es.length) {n : ℕ} (hn : j + n = es.length) (h : Patched es is j l)
    (ha : Aligned ρ es j l) :
    ∃ l', replaceEach j (es.drop j) l = some l' ∧ Patched es is es.length l' ∧ Aligned ρ es es.length l' := by
  induction n generalizing j l with
  | zero =>
    obtain rfl : j = es.length := hn
    rw [List.drop_length]
    exact ⟨l, rfl, h, ha⟩
  | succ n ih =>
    have hj : j < es.length := by omega
    obtain ⟨l₁, hstep, h₁, ha₁⟩ := ha.step h hj fun k hk hkj hlit => hval k j hk hj hkj hj hlit
    obtain ⟨l', hrest, hfinal⟩ := ih (by omega) h₁ ha₁
    refine ⟨l', ?_, hfinal⟩
    rw [List.drop_eq_getElem_cons hj]
    unfold replaceEach
    rw [hstep]
    exact hrest

theorem replaceEach_broken {m n : ℕ} (hn : m + n = es.length) (hjm : j < m) (h : Patched es is m l) (hb : Broken es j l) :
    ∃ l', replaceEach m (es.drop m) l = some l' ∧ Patched es is es.length l' ∧ Broken es j l' := by
  induction n generalizing m l with
  | zero =>
    obtain rfl : m = es.length := hn
    rw [List.drop_length]
    exact ⟨l, rfl, h, hb⟩
  | succ n ih =>
    have hm : m < es.length := by omega
    obtain ⟨l₁, hstep, h₁, hb₁⟩ := hb.step h hjm hm
    obtain ⟨l', hrest, hfinal⟩ := ih (by omega) (by omega) h₁ hb₁
    refine ⟨l', ?_, hfinal⟩
    rw [List.drop_eq_getElem_cons hm]
    unfold replaceEach
    rw [hstep]
    exact hrest

/-- The first index that loses its comparison. -/
theorem replaceEach_to_broken (hfirst : HarmlessTo ρ es j) (hj : j < es.length) {k : ℕ} (hk : k < es.length) (hkj : k < j)
    (hlit : es[k].Literal j) {m n : ℕ} (hn : m + n = j) (h : Patched es is m l) (ha : Aligned ρ es m l) :
    ∃ l', replaceEach m (es.drop m) l = some l' ∧ Patched es is es.length l' ∧ Broken es j l' := by
  induction n generalizing m l with
  | zero =>
    obtain rfl : m = j := hn
    obtain ⟨l₁, hstep, h₁, hb⟩ := ha.breaks h hj hk hkj hlit
    obtain ⟨l', hrest, hfinal⟩ := replaceEach_broken (n := es.length - (m + 1)) (by omega) (Nat.lt_succ_self m) h₁ hb
    refine ⟨l', ?_, hfinal⟩
    rw [List.drop_eq_getElem_cons hj]
    unfold replaceEach
    rw [hstep]
    exact hrest
  | succ n ih =>
    have hm : m < es.length := by omega
    obtain ⟨l₁, hstep, h₁, ha₁⟩ := ha.step h hm fun t ht htm hlit' => hfirst t m ht hm htm (by omega) hlit'
    obtain ⟨l', hrest, hfinal⟩ := ih (by omega) h₁ ha₁
    refine ⟨l', ?_, hfinal⟩
    rw [List.drop_eq_getElem_cons hm]
    unfold replaceEach
    rw [hstep]
    exact hrest

/-! ## The condition -/

/-- Values that the walk gives to the indices: a constant keeps its value. -/
def Admissible : List (Index V × ℕ) → List ℕ → Prop
  | [], [] => True
  | (e, d) :: s, i :: is =>
    (match e.evalConstantExpr with
      | some c => i = c
      | none => i < d) ∧ Admissible s is
  | _, _ => False

variable {s : List (Index V × ℕ)}

theorem Admissible.length (h : Admissible s is) : is.length = s.length := by
  induction s generalizing is with
  | nil =>
    cases is with
    | nil => rfl
    | cons i is => cases h
  | cons x s ih =>
    cases is with
    | nil => cases h
    | cons i is => exact congrArg (· + 1) (ih h.2)

theorem Admissible.constant (h : Admissible s is) {t c : ℕ} (ht : t < s.length) (hi : t < is.length)
    (hc : s[t].1.evalConstantExpr = some c) : is[t] = c := by
  induction s generalizing is t with
  | nil => cases ht
  | cons x s ih =>
    cases is with
    | nil => cases hi
    | cons i is =>
      obtain ⟨hx, hs⟩ := h
      cases t with
      | zero =>
        rw [List.getElem_cons_zero] at hc ⊢
        rw [hc] at hx
        exact hx
      | succ t => exact ih hs (Nat.lt_of_succ_lt_succ ht) (Nat.lt_of_succ_lt_succ hi) hc

/-- No literal stands for the number of a later index with another value. -/
def Harmless (ρ : V) (es : List (Index V)) : Prop := HarmlessTo ρ es es.length

/-- Before the first index that does harm there is none. -/
theorem exists_first (h : ¬Harmless ρ es) :
    ∃ j, ∃ hj : j < es.length, HarmlessTo ρ es j ∧ es[j].eval ρ ≠ j ∧
      ∃ k, ∃ hk : k < es.length, k < j ∧ es[k].Literal j := by
  have hzero : HarmlessTo ρ es 0 := fun _ _ _ _ _ ht => absurd ht (Nat.not_lt_zero _)
  have hstep : ∀ n, ¬HarmlessTo ρ es n → ∃ j, HarmlessTo ρ es j ∧ ¬HarmlessTo ρ es (j + 1) := by
    intro n hn
    induction n with
    | zero => exact absurd hzero hn
    | succ n ih =>
      by_cases hprev : HarmlessTo ρ es n
      · exact ⟨n, hprev, hn⟩
      · exact ih hprev
  obtain ⟨j, hj, hnot⟩ := hstep _ h
  have hharm : ¬∀ k t (hk : k < es.length) (ht : t < es.length), k < t → t < j + 1 → es[k].Literal t →
      es[t].eval ρ = t := hnot
  simp only [not_forall] at hharm
  obtain ⟨k, t, hk, ht, hkt, htj, hlit, hne⟩ := hharm
  have heq : t = j := by
    by_cases hlt : t < j
    · exact absurd (hj k t hk ht hkt hlt hlit) hne
    · omega
  subst heq
  exact ⟨t, ht, hj, hne, k, hk, hkt, hlit⟩

/-- The comparisons of the text. -/
theorem patched_text (hlen : is.length = es.length) :
    Patched es is 0 (((List.range is.length).map constant).zip is) := by
  have hzip : (((List.range is.length).map (constant : ℕ → CondExpr V)).zip is).length = is.length := by simp
  refine ⟨hzip.trans hlen, ?_, ?_⟩
  · rw [List.map_snd_zip]
    simp
  · intro t ht _
    rw [List.getElem_zip]
    simp

theorem condition_of_replaceEach (hne : is ≠ []) {l' : Comparisons V}
    (h : replaceEach 0 (s.map Prod.fst) (((List.range is.length).map constant).zip is) = some l')
    (hl' : l'.length = is.length) :
    ∃ cond, condition s is = .ok cond ∧ (cond.eval ρ ≠ 0 ↔ ∀ p ∈ l', p.1.eval ρ = p.2) := by
  have hpos : 0 < is.length := List.length_pos_iff.2 hne
  have hstart : ((List.range is.length).map (constant : ℕ → CondExpr V)).zip is ≠ [] := by
    intro hnil
    have hzip := congrArg List.length hnil
    rw [List.length_zip, List.length_map, List.length_range, Nat.min_self, List.length_nil] at hzip
    omega
  obtain ⟨t, ht⟩ := joinAll_of_ne hstart
  have hnot : l' ≠ [] := by
    rintro rfl
    rw [List.length_nil] at hl'
    omega
  obtain ⟨cond, hcond⟩ := joinAll_of_ne hnot
  refine ⟨cond, ?_, eval_joinAll hcond⟩
  unfold condition ofText
  rw [ht]
  have hall := @replaceAll_joinAll V (s.map Prod.fst) 0 _ _ ht
  rw [h] at hall
  have hboth : (some t >>= replaceAll 0 (s.map Prod.fst)) = some cond := hall.trans hcond
  rw [hboth]

/-- **The condition compares the indices with their values.** -/
theorem condition_harmless (hs : s ≠ []) (hlen : is.length = s.length) (hval : Harmless ρ (s.map Prod.fst)) :
    ∃ cond, condition s is = .ok cond ∧ (cond.eval ρ ≠ 0 ↔ is = s.map fun x => x.1.eval ρ) := by
  have hpos : 0 < s.length := List.length_pos_iff.2 hs
  have hne : is ≠ [] := by
    rintro rfl
    rw [List.length_nil] at hlen
    omega
  have hes : is.length = (s.map Prod.fst).length := by rw [hlen, List.length_map]
  have hzero : Aligned ρ (s.map Prod.fst) 0 (((List.range is.length).map constant).zip is) :=
    ⟨fun _ _ _ h => absurd h (Nat.not_lt_zero _), fun _ _ _ h => absurd h (Nat.not_lt_zero _)⟩
  obtain ⟨l', hrep, hp, ha⟩ := replaceEach_aligned hval (Nat.zero_add _) (patched_text hes) hzero
  have hl' : l'.length = is.length := hp.length.trans hes.symm
  obtain ⟨cond, hcond, heval⟩ := @condition_of_replaceEach V ρ is s hne l' hrep hl'
  refine ⟨cond, hcond, heval.trans ?_⟩
  have hright (t : ℕ) (ht : t < l'.length) (hi : t < is.length) : l'[t].2 = is[t] := by
    have hlt : t < (l'.map Prod.snd).length := by simpa using ht
    have hmap : (l'.map Prod.snd)[t] = is[t] := by simp only [hp.right]
    rwa [List.getElem_map] at hmap
  have hleft (t : ℕ) (ht : t < l'.length) (hts : t < s.length) : l'[t].1.eval ρ = s[t].1.eval ρ := by
    have := ha.value t ht (by simpa using hts) (by simpa using hts)
    rwa [List.getElem_map] at this
  constructor
  · intro hall
    refine List.ext_getElem (by simpa using hlen) fun t h1 h2 => ?_
    have ht : t < l'.length := by omega
    rw [List.getElem_map, ← hleft t ht (by omega), hall _ (List.getElem_mem ht), hright t ht h1]
  · rintro heq p hmem
    obtain ⟨t, ht, rfl⟩ := List.getElem_of_mem hmem
    have hts : t < s.length := by omega
    rw [hleft t ht hts, hright t ht (by omega)]
    simp only [heq, List.getElem_map]

/-- **The condition is false** for all values that the indices are given. -/
theorem condition_broken (hadm : Admissible s is) (hval : ¬Harmless ρ (s.map Prod.fst)) :
    ∃ cond, condition s is = .ok cond ∧ cond.eval ρ = 0 := by
  have hlen := hadm.length
  have hes : is.length = (s.map Prod.fst).length := by rw [hlen, List.length_map]
  obtain ⟨j, hj, hfirst, hother, k, hk, hkj, hlit⟩ := exists_first hval
  have hne : is ≠ [] := by
    rintro rfl
    rw [List.length_nil] at hes
    omega
  have hzero : Aligned ρ (s.map Prod.fst) 0 (((List.range is.length).map constant).zip is) :=
    ⟨fun _ _ _ h => absurd h (Nat.not_lt_zero _), fun _ _ _ h => absurd h (Nat.not_lt_zero _)⟩
  obtain ⟨l', hrep, hp, hb⟩ :=
    replaceEach_to_broken hfirst hj hk hkj hlit (Nat.zero_add j) (patched_text hes) hzero
  have hl' : l'.length = is.length := hp.length.trans hes.symm
  obtain ⟨cond, hcond, heval⟩ := @condition_of_replaceEach V ρ is s hne l' hrep hl'
  refine ⟨cond, hcond, Classical.byContradiction fun htrue => ?_⟩
  have hall := heval.1 htrue
  have hright (t : ℕ) (ht : t < l'.length) (hi : t < is.length) : l'[t].2 = is[t] := by
    have hlt : t < (l'.map Prod.snd).length := by simpa using ht
    have hmap : (l'.map Prod.snd)[t] = is[t] := by simp only [hp.right]
    rwa [List.getElem_map] at hmap
  obtain ⟨hjl, hnum⟩ := hb.number
  have hjs : j < s.length := by simpa using hj
  have hji : j < is.length := by omega
  have hjval : is[j] = j := by
    have := hall _ (List.getElem_mem hjl)
    rw [hnum, hright j hjl hji] at this
    exact this.symm
  rw [List.getElem_map] at hother
  cases hc : s[j].1.evalConstantExpr with
  | some c =>
    -- A constant has its value in every iteration.
    have := hadm.constant hjs hji hc
    rw [hjval] at this
    exact hother ((s[j].1.sound c hc ρ).trans this.symm)
  | none =>
    have hnot : (s.map Prod.fst)[j].isConstValue = false := by
      rw [List.getElem_map]
      cases hb' : s[j].1.isConstValue with
      | false => rfl
      | true =>
        have := s[j].1.leaf hb'
        rw [hc] at this
        cases this
    obtain ⟨t, ht, hte, htlit, hop⟩ := hb.moved hj hnot
    have hts : t < s.length := by simpa using hte
    have hti : t < is.length := by omega
    have hval := hall _ (List.getElem_mem ht)
    rw [hop, hright t ht hti, List.getElem_map] at hval
    rw [List.getElem_map] at htlit
    rw [hadm.constant hts hti htlit.2] at hval
    exact hother hval

end OpenHT.Htfe.RamWrite
