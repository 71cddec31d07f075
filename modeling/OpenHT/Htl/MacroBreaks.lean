import Mathlib.Data.List.Induction
import OpenHT.Lib.Padded
import OpenHT.Htl.MacroArgs

/-!
# Breaks in the arguments of a macro

* `lines`: the arguments over several lines, as the scan reads them: the first character of a further line is taken
  without a look at it.
* `collects`, `lines_collects`: the characters of the argument that is read.
* `space_shift`: a break inside an argument leaves out a space that the joined text has.
* `lines_harmless`, `harmless_of_lines`: the scan finds the arguments of the joined text if and only if all breaks are
  harmless.
-/

namespace OpenHT.Htl.MacroArgs

open Strip (Str)

/-! ## Spaces -/

def AllSpace (l : Str) : Prop := ∀ c ∈ l, c = ' '

attribute [local simp] Delimited

attribute [local simp] line

theorem allSpace_append {a b : Str} : AllSpace (a ++ b) ↔ AllSpace a ∧ AllSpace b := List.forall_mem_append

theorem allSpace_cons {c : Char} {t : Str} : AllSpace (c :: t) ↔ c = ' ' ∧ AllSpace t := List.forall_mem_cons

theorem trimmed_concat_space (x : Str) : trimmed (x ++ [' ']) = trimmed x := by simp [trimmed]

theorem trimmed_concat {x : Str} {c : Char} (h : c ≠ ' ') : trimmed (x ++ [c]) = x ++ [c] := by simp [trimmed, h]

theorem trimmed_append_space {x y : Str} (h : AllSpace y) : trimmed (x ++ y) = trimmed x := by
  induction y generalizing x with
  | nil => rw [List.append_nil]
  | cons c y ih =>
    obtain ⟨rfl, hy⟩ := allSpace_cons.1 h
    rw [List.append_cons, ih hy, trimmed_concat_space]

/-- The end that is cut off. -/
theorem trimmed_split (x : Str) : ∃ y, x = trimmed x ++ y ∧ AllSpace y := by
  induction x using List.reverseRecOn with
  | nil => exact ⟨[], rfl, fun _ h => nomatch h⟩
  | append_singleton x c ih =>
    by_cases hc : c = ' '
    · obtain ⟨y, hy, hspace⟩ := ih
      refine ⟨y ++ [c], ?_, allSpace_append.2 ⟨hspace, fun d hd => ?_⟩⟩
      · rw [hc, trimmed_concat_space, ← List.append_assoc, ← hy]
      · rw [List.mem_singleton.1 hd, hc]
    · exact ⟨[], by rw [trimmed_concat hc, List.append_nil], fun _ h => nomatch h⟩

theorem trimmed_of_space {y : Str} (h : AllSpace y) : trimmed y = [] := by
  have := @trimmed_append_space [] y h
  exact this

theorem trimmed_append {x y : Str} (h : ¬AllSpace y) : trimmed (x ++ y) = x ++ trimmed y := by
  induction y using List.reverseRecOn with
  | nil => exact absurd (fun _ h => nomatch h) h
  | append_singleton y c ih =>
    by_cases hc : c = ' '
    · have hy : ¬AllSpace y := fun hy => h (allSpace_append.2 ⟨hy, fun d hd => by rw [List.mem_singleton.1 hd, hc]⟩)
      rw [hc, trimmed_concat_space, ← List.append_assoc, trimmed_concat_space, ih hy]
    · rw [trimmed_concat hc, ← List.append_assoc, trimmed_concat hc, List.append_assoc]

/-- What is left is not only spaces. -/
theorem not_space_trimmed {y : Str} (h : ¬AllSpace y) : ¬AllSpace (trimmed y) := by
  intro ht
  obtain ⟨z, hz, hspace⟩ := trimmed_split y
  rw [hz] at h
  exact h (allSpace_append.2 ⟨ht, hspace⟩)

theorem trimmed_eq_nil {y : Str} : trimmed y = [] ↔ AllSpace y := by
  refine ⟨fun h => ?_, trimmed_of_space⟩
  obtain ⟨z, hz, hspace⟩ := trimmed_split y
  rw [h] at hz
  rw [hz]
  exact hspace

theorem trimmed_length_le (x : Str) : (trimmed x).length ≤ x.length := by
  obtain ⟨y, hy, -⟩ := trimmed_split x
  have := congrArg List.length hy
  rw [List.length_append] at this
  omega

theorem push_of_space {args : List Str} {x : Str} (h : AllSpace x) : push args x = args :=
  if_pos (trimmed_of_space h)

theorem push_of_not_space {args : List Str} {x : Str} (h : ¬AllSpace x) : push args x = args ++ [trimmed x] :=
  if_neg fun ht => h (trimmed_eq_nil.1 ht)

theorem push_extends (args : List Str) (x : Str) : args <+: push args x := by
  unfold push
  split
  · exact List.prefix_refl _
  · exact List.prefix_append _ _

/-- Two arguments in the same place of a list. -/
theorem trimmed_eq_of_push {args args' : List Str} {x y : Str} (hx : ¬AllSpace x) (hy : ¬AllSpace y)
    (h : push args x <+: args') (h' : push args y <+: args') : trimmed x = trimmed y := by
  rw [push_of_not_space hx] at h
  rw [push_of_not_space hy] at h'
  have hlen : (args ++ [trimmed x]).length = (args ++ [trimmed y]).length := by simp
  have heq := (List.prefix_of_prefix_length_le h h' (Nat.le_of_eq hlen)).eq_of_length hlen
  exact List.singleton_inj.1 (List.append_cancel_left heq)

/-- **A break inside an argument.** The text with a space at each break, and the one without: where what is behind `x` in
both is the same up to spaces at the end, it is nothing but spaces. -/
theorem space_shift {x r j yc yj : Str} {c : Char} (hpad : Padded ' ' (c :: r) j) (hc : c :: yc <+: c :: r)
    (hj : yj <+: j) (h : trimmed (x ++ c :: yc) = trimmed (x ++ ' ' :: yj)) : AllSpace (c :: yc) ∧ AllSpace yj := by
  have hle := trimmed_length_le x
  by_cases hyj : AllSpace yj
  · refine ⟨?_, hyj⟩
    apply Classical.byContradiction
    intro hcode
    rw [trimmed_append hcode, trimmed_append_space (allSpace_cons.2 ⟨rfl, hyj⟩)] at h
    have hpos : trimmed (c :: yc) ≠ [] := fun h => hcode (trimmed_eq_nil.1 h)
    have hlen := congrArg List.length h
    rw [List.length_append] at hlen
    exact hpos (List.length_eq_zero_iff.1 (by omega))
  · have hjoined : trimmed (x ++ ' ' :: yj) = x ++ ' ' :: trimmed yj := by
      rw [List.append_cons, trimmed_append hyj, List.append_assoc]
      rfl
    rw [hjoined] at h
    by_cases hcode : AllSpace (c :: yc)
    · rw [trimmed_append_space hcode] at h
      have hlen := congrArg List.length h
      rw [List.length_append, List.length_cons] at hlen
      omega
    · rw [trimmed_append hcode] at h
      have hw := List.append_cancel_left h
      obtain ⟨z, hz, -⟩ := trimmed_split (c :: yc)
      rw [hw, List.cons_append] at hz
      obtain ⟨rfl, hyc⟩ := List.cons.inj hz
      obtain ⟨s, hs⟩ := hc
      have hr : trimmed yj <+: r := ⟨z ++ s, by
        rw [← List.append_assoc, ← hyc]
        exact (List.cons.inj hs).2⟩
      obtain ⟨z', hz', -⟩ := trimmed_split yj
      have hyj' : trimmed yj <+: yj := ⟨z', hz'.symm⟩
      exact absurd (hpad.shift hr (hyj'.trans hj)) (not_space_trimmed hyj)

/-! ## The scan over lines -/

inductive LinesEnd
  | found (args : List Str) (rest : Str) (ls : List Str)
  | overread
  | beyond

variable (v : ℕ → Bool)

/-- The arguments over several lines, as the scan reads them; `beyond` if it needs a further one. -/
def lines : LineEnd → List Str → LinesEnd
  | .found args r, ls => .found args r ls
  | .ends _ _, [] => .beyond
  | .ends _ _, [] :: _ => .overread
  | .ends args s, (c :: t) :: ls => lines (line v args (.inside (s.text ++ [c]) s.level) t) ls

variable {v}

attribute [local simp] line

theorem line_append (a b : Str) : ∀ (args : List Str) (s : At), line v args s (a ++ b) =
    match line v args s a with
    | .found args' r => .found args' (r ++ b)
    | .ends args' s' => line v args' s' b := by
  induction a with
  | nil => exact fun args s => rfl
  | cons c a ih =>
    intro args s
    rw [List.cons_append, line, line]
    split
    · split
      · rfl
      · exact ih _ _
    · split
      · exact ih _ _
      · exact ih _ _

/-- A character inside an argument. -/
theorem line_inside {args : List Str} {x : Str} {l : ℕ} {c : Char} (t : Str)
    (h : ¬(l = 0 ∧ delimiter (v args.length) c = true)) :
    line v args (.inside x l) (c :: t) = line v args (.inside (x ++ [c]) (depth c l)) t := by
  have hd : ¬((At.inside x l).level = 0 ∧ delimiter (v args.length) c = true) := h
  rw [line, if_neg hd]
  rfl

theorem line_delimiter {args : List Str} {s : At} {c : Char} (t : Str) (hl : s.level = 0)
    (h : delimiter (v args.length) c = true) :
    line v args s (c :: t) = if c = ')' then .found (push args s.text) t else line v (push args s.text) .start t := by
  rw [line, if_pos ⟨hl, h⟩]

theorem not_delimiter_blank {b : Bool} {c : Char} (h : isBlank c = true) : delimiter b c = false := by
  unfold isBlank at h
  rcases Bool.or_eq_true_iff.1 h with h | h
  · rw [of_decide_eq_true h]
    cases b <;> rfl
  · rw [of_decide_eq_true h]
    cases b <;> rfl

theorem line_blank {args : List Str} {c : Char} (t : Str) (h : isBlank c = true) :
    line v args .start (c :: t) = line v args .start t := by
  have hdelim : ¬(At.start.level = 0 ∧ delimiter (v args.length) c = true) := by
    rw [not_delimiter_blank h]
    exact fun h => Bool.noConfusion h.2
  have hblank : (At.start.isStart && isBlank c) = true := h
  rw [line, if_neg hdelim, if_pos hblank]

/-- The first character of an argument. -/
theorem line_first {args : List Str} {c : Char} (t : Str) (h : isBlank c = false)
    (hd : delimiter (v args.length) c = false) :
    line v args .start (c :: t) = line v args (.inside [c] (depth c 0)) t := by
  have hdelim : ¬(At.start.level = 0 ∧ delimiter (v args.length) c = true) := by
    rw [hd]
    exact fun h => Bool.noConfusion h.2
  have hblank : ¬(At.start.isStart && isBlank c) = true := by
    rw [h]
    exact Bool.false_ne_true
  rw [line, if_neg hdelim, if_neg hblank]
  rfl

def LineEnd.args : LineEnd → List Str
  | .found args _ => args
  | .ends args _ => args

/-- The arguments that were found stay. -/
theorem line_args (t : Str) : ∀ (args : List Str) (s : At), args <+: (line v args s t).args := by
  induction t with
  | nil => exact fun args s => List.prefix_refl _
  | cons c t ih =>
    intro args s
    rw [line]
    split
    · split
      · exact push_extends _ _
      · exact (push_extends _ _).trans (ih _ _)
    · split
      · exact ih _ _
      · exact ih _ _

theorem line_extends {t r : Str} {args args' : List Str} {s : At} (h : line v args s t = .found args' r) :
    args <+: args' := by
  have hargs := @line_args v t args s
  rw [h] at hargs
  exact hargs

theorem lines_extends (ls : List Str) : ∀ {e : LineEnd} {args' : List Str} {r : Str} {ls' : List Str},
    lines v e ls = .found args' r ls' → e.args <+: args' := by
  induction ls with
  | nil =>
    intro e args' r ls' h
    cases e with
    | found args r' =>
      obtain ⟨rfl, -, -⟩ := LinesEnd.found.inj h
      exact List.prefix_refl _
    | ends args s => cases h
  | cons l ls ih =>
    intro e args' r ls' h
    cases e with
    | found args r' =>
      obtain ⟨rfl, -, -⟩ := LinesEnd.found.inj h
      exact List.prefix_refl _
    | ends args s =>
      cases l with
      | nil => cases h
      | cons c t => exact (line_args t args _).trans (ih h)

theorem depth_space (l : ℕ) : depth ' ' l = l := rfl

/-- **The argument that is read**, in one line. If it goes on with spaces only, it is not inside parentheses. -/
theorem collects (t : Str) : ∀ {args args' : List Str} {x r : Str} {l : ℕ},
    line v args (.inside x l) t = .found args' r →
      ∃ y, y <+: t ∧ push args (x ++ y) <+: args' ∧ (AllSpace y → l = 0) := by
  induction t with
  | nil =>
    intro args args' x r l h
    cases h
  | cons c t ih =>
    intro args args' x r l h
    by_cases hd : l = 0 ∧ delimiter (v args.length) c = true
    · refine ⟨[], List.nil_prefix, ?_, fun _ => hd.1⟩
      rw [@line_delimiter v args (.inside x l) c t hd.1 hd.2] at h
      rw [List.append_nil]
      split at h
      · obtain ⟨rfl, -⟩ := LineEnd.found.inj h
        exact List.prefix_refl _
      · exact line_extends h
    · rw [line_inside t hd] at h
      obtain ⟨y, hy, hpush, hspace⟩ := ih h
      refine ⟨c :: y, (List.prefix_cons_inj c).2 hy, ?_, fun hall => ?_⟩
      · rw [List.append_cons]
        exact hpush
      · obtain ⟨rfl, hrest⟩ := allSpace_cons.1 hall
        exact hspace hrest

theorem delimited_space {b : Bool} {t : Str} {ls : List Str} : Delimited b (' ' :: t) ls ↔ Delimited b t ls := by
  cases ls with
  | nil => simp [Delimited]
  | cons l ls => simp [Delimited]

theorem delimited_cons {b : Bool} {c : Char} {t : Str} {ls : List Str} (h : c ≠ ' ') :
    Delimited b (c :: t) ls ↔ delimiter b c = true := by
  cases ls with
  | nil => simp [Delimited, h]
  | cons l ls => simp [Delimited, h]

theorem delimited_nil {b : Bool} {l : Str} {ls : List Str} :
    Delimited b [] (l :: ls) ↔ ∃ t, l = ' ' :: t ∧ Delimited b t ls := by
  simp [Delimited]

/-- The argument that is read goes on with some of the characters; if these are spaces only, they end it. -/
def Collects (v : ℕ → Bool) (args : List Str) (x : Str) (l : ℕ) (t : Str) (ls args' : List Str) : Prop :=
  ∃ y, y <+: t ++ ls.flatten ∧ push args (x ++ y) <+: args' ∧
    (AllSpace y → l = 0 ∧ Delimited (v args.length) t ls)

theorem Collects.cons {args args' ls ls' : List Str} {x t r : Str} {l : ℕ} {c : Char}
    (h : lines v (line v args (.inside x l) (c :: t)) ls = .found args' r ls')
    (ih : ∀ {x : Str} {l : ℕ}, lines v (line v args (.inside x l) t) ls = .found args' r ls' →
      Collects v args x l t ls args') : Collects v args x l (c :: t) ls args' := by
  by_cases hd : l = 0 ∧ delimiter (v args.length) c = true
  · have hne : c ≠ ' ' := by
      rintro rfl
      have hblank := @not_delimiter_blank (v args.length) ' ' rfl
      rw [hd.2] at hblank
      cases hblank
    refine ⟨[], List.nil_prefix, ?_, fun _ => ⟨hd.1, (delimited_cons hne).2 hd.2⟩⟩
    rw [@line_delimiter v args (.inside x l) c t hd.1 hd.2] at h
    rw [List.append_nil]
    split at h
    · exact lines_extends ls h
    · exact (line_args t _ _).trans (lines_extends ls h)
  · rw [line_inside t hd] at h
    obtain ⟨y, hy, hpush, hspace⟩ := ih h
    refine ⟨c :: y, (List.prefix_cons_inj c).2 hy, ?_, fun hall => ?_⟩
    · rw [List.append_cons]
      exact hpush
    · obtain ⟨rfl, hrest⟩ := allSpace_cons.1 hall
      obtain ⟨hl, hdelimited⟩ := hspace hrest
      exact ⟨hl, delimited_space.2 hdelimited⟩

/-- **The argument that is read**, over several lines. -/
theorem lines_collects (ls : List Str) : ∀ (t : Str) {args args' : List Str} {x r : Str} {l : ℕ} {ls' : List Str},
    lines v (line v args (.inside x l) t) ls = .found args' r ls' → Collects v args x l t ls args' := by
  induction ls with
  | nil =>
    intro t
    induction t with
    | nil =>
      intro args args' x r l ls' h
      cases h
    | cons c t iht => exact fun h => Collects.cons h iht
  | cons l' ls ih =>
    intro t
    induction t with
    | nil =>
      intro args args' x r l ls' h
      cases l' with
      | nil => cases h
      | cons c t =>
        obtain ⟨y, hy, hpush, hspace⟩ := ih t h
        refine ⟨c :: y, (List.prefix_cons_inj c).2 hy, ?_, fun hall => ?_⟩
        · rw [List.append_cons]
          exact hpush
        · obtain ⟨rfl, hrest⟩ := allSpace_cons.1 hall
          obtain ⟨hl, hdelimited⟩ := hspace hrest
          exact ⟨hl, delimited_nil.2 ⟨t, rfl, hdelimited⟩⟩
    | cons c t iht => exact fun h => Collects.cons h iht

/-! ## One break -/

theorem padded_joined (ls : List Str) : Padded ' ' ls.flatten (joined ls) := by
  induction ls with
  | nil => exact .nil
  | cons l ls ih => exact .pad ((Padded.refl l).append ih)

/-- **A break inside an argument**, where the scans may differ in the number of parentheses: what is behind the break is
only spaces, in both. -/
theorem break_inside {args args' ls ls' : List Str} {x t r r' : Str} {c : Char} {lc lj : ℕ} (hx : ¬AllSpace x)
    (hcode : lines v (line v args (.inside (x ++ [c]) lc) t) ls = .found args' r ls')
    (hjoined : line v args (.inside x lj) (' ' :: (c :: t ++ joined ls)) = .found args' r') :
    lj = 0 ∧ lc = 0 ∧ c = ' ' ∧ Delimited (v args.length) t ls := by
  have hspace : ¬(lj = 0 ∧ delimiter (v args.length) ' ' = true) := by
    rw [@not_delimiter_blank _ ' ' rfl]
    exact fun h => Bool.noConfusion h.2
  rw [line_inside _ hspace] at hjoined
  obtain ⟨yc, hyc, hpushc, hendc⟩ := lines_collects ls t hcode
  obtain ⟨yj, hyj, hpushj, hendj⟩ := collects _ hjoined
  rw [List.append_assoc] at hpushc hpushj
  have hne : ∀ y, ¬AllSpace (x ++ y) := fun y h => hx (allSpace_append.1 h).1
  have heq := trimmed_eq_of_push (hne _) (hne _) hpushc hpushj
  have hpad : Padded ' ' (c :: (t ++ ls.flatten)) (c :: t ++ joined ls) :=
    Padded.cons c ((Padded.refl t).append (padded_joined ls))
  obtain ⟨hallc, hallj⟩ := space_shift hpad ((List.prefix_cons_inj c).2 hyc) hyj heq
  obtain ⟨hc, hallc⟩ := allSpace_cons.1 hallc
  obtain ⟨hlc, hdelimited⟩ := hendc hallc
  exact ⟨hendj hallj, hlc, hc, hdelimited⟩

theorem depth_lt {c : Char} {lc lj : ℕ} (h : lc < lj) (hc : lc = 0 → c ≠ ')') : depth c lc < depth c lj := by
  unfold depth
  split
  · omega
  · split
    · have hpos : lc ≠ 0 := fun hz => hc hz ‹_›
      omega
    · exact h

/-- **A parenthesis that is not seen.** The scan does not find the argument of the joined text. -/
theorem paren_unseen {args args' ls ls' : List Str} {r r' : Str} (t : Str) : ∀ {x : Str} {lc lj : ℕ}, lc < lj →
    ¬AllSpace x → lines v (line v args (.inside x lc) t) ls = .found args' r ls' →
      line v args (.inside x lj) (t ++ joined ls) ≠ .found args' r' := by
  induction t with
  | nil =>
    intro x lc lj hlt hx hcode hjoined
    cases ls with
    | nil => cases hcode
    | cons l ls =>
      cases l with
      | nil => cases hcode
      | cons c t =>
        obtain ⟨hlj, -⟩ := break_inside hx hcode hjoined
        omega
  | cons c t ih =>
    intro x lc lj hlt hx hcode hjoined
    have hlj : ¬(lj = 0 ∧ delimiter (v args.length) c = true) := by omega
    rw [List.cons_append, line_inside _ hlj] at hjoined
    by_cases hd : lc = 0 ∧ delimiter (v args.length) c = true
    · -- the scan ends the argument here, and the joined text goes on
      rw [@line_delimiter v args (.inside x lc) c t hd.1 hd.2] at hcode
      have hpush : push args x <+: args' := by
        split at hcode
        · exact lines_extends ls hcode
        · exact (line_args t _ _).trans (lines_extends ls hcode)
      obtain ⟨y, -, hpushj, -⟩ := collects _ hjoined
      rw [List.append_assoc] at hpushj
      have hne : ¬AllSpace (x ++ ([c] ++ y)) := fun h => hx (allSpace_append.1 h).1
      have heq := trimmed_eq_of_push hx hne hpush hpushj
      have hc : ¬AllSpace ([c] ++ y) := by
        intro h
        obtain ⟨rfl, -⟩ := allSpace_cons.1 h
        rw [@not_delimiter_blank _ ' ' rfl] at hd
        exact Bool.noConfusion hd.2
      rw [trimmed_append hc] at heq
      have hlen := congrArg List.length heq
      have hle := trimmed_length_le x
      have hpos : trimmed ([c] ++ y) ≠ [] := fun h => hc (trimmed_eq_nil.1 h)
      rw [List.length_append] at hlen
      exact hpos (List.length_eq_zero_iff.1 (by omega))
    · rw [line_inside t hd] at hcode
      have hparen : lc = 0 → c ≠ ')' := by
        rintro hz rfl
        refine hd ⟨hz, ?_⟩
        simp [delimiter]
      exact ih (depth_lt hlt hparen) (fun h => hx (allSpace_append.1 h).1) hcode hjoined

theorem trimmed_cons {c : Char} {y : Str} (h : ¬AllSpace (c :: y)) : ∃ w, trimmed (c :: y) = c :: w := by
  obtain ⟨z, hz, -⟩ := trimmed_split (c :: y)
  cases ht : trimmed (c :: y) with
  | nil => exact absurd (trimmed_eq_nil.1 ht) h
  | cons d w =>
    rw [ht] at hz
    obtain ⟨rfl, -⟩ := List.cons.inj hz
    exact ⟨w, rfl⟩

/-- The argument in the place behind those that were found. -/
theorem getElem_push {args args' : List Str} {x : Str} (hx : ¬AllSpace x) (h : push args x <+: args') :
    args'[args.length]? = some (trimmed x) := by
  rw [push_of_not_space hx] at h
  obtain ⟨s, rfl⟩ := h
  simp

/-- An argument of one line starts with a character of its own. -/
theorem first_char (t : Str) : ∀ {args args' : List Str} {r z : Str}, line v args .start t = .found args' r →
    args'[args.length]? = some z →
      ∃ c w, z = c :: w ∧ isBlank c = false ∧ delimiter (v args.length) c = false := by
  induction t with
  | nil =>
    intro args args' r z h
    cases h
  | cons c t ih =>
    intro args args' r z h hz
    cases hblank : isBlank c with
    | true =>
      rw [line_blank t hblank] at h
      exact ih h hz
    | false =>
      cases hd : delimiter (v args.length) c with
      | true =>
        have hpush : push args At.start.text = args := push_of_space (fun _ h => nomatch h)
        rw [@line_delimiter v args .start c t rfl hd, hpush] at h
        split at h
        · obtain ⟨rfl, -⟩ := LineEnd.found.inj h
          rw [List.getElem?_eq_none (Nat.le_refl _)] at hz
          cases hz
        · exact ih h hz
      | false =>
        rw [line_first t hblank hd] at h
        obtain ⟨y, -, hpush, -⟩ := collects t h
        have hc : ¬AllSpace ([c] ++ y) := by
          intro h
          obtain ⟨rfl, -⟩ := allSpace_cons.1 h
          cases hblank
        rw [getElem_push hc hpush] at hz
        obtain ⟨w, hw⟩ := trimmed_cons hc
        exact ⟨c, w, (Option.some.inj hz).symm.trans hw, hblank, hd⟩

/-- **A break before an argument.** -/
theorem break_start {args args' ls ls' : List Str} {t r r' : Str} {c : Char}
    (hcode : lines v (line v args (.inside [c] 0) t) ls = .found args' r ls')
    (hjoined : line v args .start (' ' :: (c :: t ++ joined ls)) = .found args' r') :
    (isBlank c = false ∧ c ≠ '(' ∧ delimiter (v args.length) c = false) ∨
      (c = ' ' ∧ Delimited (v args.length) t ls) := by
  rw [line_blank _ rfl] at hjoined
  obtain ⟨y, -, hpush, hend⟩ := lines_collects ls t hcode
  by_cases hall : AllSpace ([c] ++ y)
  · obtain ⟨hc, hy⟩ := allSpace_cons.1 hall
    exact .inr ⟨hc, (hend hy).2⟩
  · obtain ⟨w, hw⟩ := trimmed_cons hall
    obtain ⟨d, w', hd, hblank, hdelim⟩ := first_char _ hjoined (getElem_push hall hpush)
    obtain ⟨rfl, -⟩ := List.cons.inj (hw.symm.trans hd)
    refine .inl ⟨hblank, ?_, hdelim⟩
    rintro rfl
    rw [List.cons_append, line_first _ hblank hdelim] at hjoined
    exact paren_unseen t Nat.zero_lt_one (fun h => absurd (h '(' List.mem_cons_self) (by decide)) hcode hjoined

/-- Inside an argument there is a character that is no space. -/
def At.Good : At → Prop
  | .start => True
  | .inside x _ => ¬AllSpace x

theorem line_good (t : Str) : ∀ {args args' : List Str} {s s' : At}, s.Good → line v args s t = .ends args' s' →
    s'.Good := by
  induction t with
  | nil =>
    intro args args' s s' hs h
    obtain ⟨-, rfl⟩ := LineEnd.ends.inj h
    exact hs
  | cons c t ih =>
    intro args args' s s' hs h
    rw [line] at h
    split at h
    · split at h
      · cases h
      · exact @ih _ _ .start _ trivial h
    · split at h
      · exact @ih _ _ .start _ trivial h
      · rename_i hblank
        refine ih (s := .inside (s.text ++ [c]) (depth c s.level)) ?_ h
        cases s with
        | start =>
          intro hall
          obtain ⟨rfl, -⟩ := allSpace_cons.1 hall
          exact hblank rfl
        | inside x l => exact fun hall => hs (allSpace_append.1 hall).1

/-- **Only harmless breaks** have the arguments of the joined text. -/
theorem harmless_of_break {args args' ls ls' : List Str} {s : At} {l r r' : Str} (hs : s.Good)
    (hcode : lines v (.ends args s) (l :: ls) = .found args' r ls')
    (hjoined : line v args s (' ' :: (l ++ joined ls)) = .found args' r') :
    HarmlessBreak (v args.length) s l ls := by
  cases l with
  | nil => cases hcode
  | cons c t =>
    refine ⟨c, t, rfl, ?_⟩
    cases s with
    | start =>
      rcases break_start hcode hjoined with ⟨hblank, hparen, hdelim⟩ | ⟨hc, hdelimited⟩
      · exact .inl ⟨rfl, hblank, hparen, hdelim⟩
      · exact .inr ⟨rfl, hc, hdelimited⟩
    | inside x l =>
      obtain ⟨hl, -, hc, hdelimited⟩ := break_inside hs hcode hjoined
      exact .inr ⟨hl, hc, hdelimited⟩

/-! ## All breaks -/

/-- Where the scan is, beside the joined text: at the same place, or in the spaces behind an argument. -/
inductive Follows (v : ℕ → Bool) (ls : List Str) : LineEnd → LineEnd → Prop
  | same (e : LineEnd) : Follows v ls e e
  | spaces {args : List Str} {s' s : At} {t : Str} {ls' : List Str} (hls : ls = (' ' :: t) :: ls')
    (hl' : s'.level = 0) (hl : s.level = 0) (htext : trimmed s'.text = trimmed s.text)
    (hdelimited : Delimited (v args.length) t ls') : Follows v ls (.ends args s') (.ends args s)

/-- A space outside parentheses. -/
theorem line_space {args : List Str} {s : At} (hl : s.level = 0) : ∃ s' : At, s'.level = 0 ∧
    trimmed s'.text = trimmed s.text ∧ ∀ t, line v args s (' ' :: t) = line v args s' t := by
  cases s with
  | start => exact ⟨.start, rfl, rfl, fun t => line_blank t rfl⟩
  | inside x l =>
    refine ⟨.inside (x ++ [' ']) l, hl, trimmed_concat_space x, fun t => ?_⟩
    refine line_inside t ?_
    rw [@not_delimiter_blank _ ' ' rfl]
    exact fun h => Bool.noConfusion h.2

theorem spaces_follow {args ls : List Str} (t : Str) : ∀ {s' s : At}, s'.level = 0 → s.level = 0 →
    trimmed s'.text = trimmed s.text → Delimited (v args.length) t ls →
      Follows v ls (line v args s' t) (line v args s t) := by
  induction t with
  | nil =>
    intro s' s hl' hl htext hdelimited
    cases ls with
    | nil =>
      obtain ⟨d, hd, -⟩ := hdelimited
      cases hd
    | cons l ls =>
      obtain ⟨t, rfl, hrest⟩ := delimited_nil.1 hdelimited
      exact .spaces rfl hl' hl htext hrest
  | cons c t ih =>
    intro s' s hl' hl htext hdelimited
    by_cases hc : c = ' '
    · subst hc
      obtain ⟨s1', hl1', htext1', heq'⟩ := @line_space v args s' hl'
      obtain ⟨s1, hl1, htext1, heq⟩ := @line_space v args s hl
      rw [heq', heq]
      refine ih hl1' hl1 ?_ (delimited_space.1 hdelimited)
      rw [htext1', htext1, htext]
    · have hd := (delimited_cons hc).1 hdelimited
      have hpush : push args s'.text = push args s.text := by
        unfold push
        rw [htext]
      rw [line_delimiter t hl' hd, line_delimiter t hl hd, hpush]
      exact .same _

/-- One line on, behind a harmless break. -/
theorem Follows.step {args ls : List Str} {s' s : At} {l : Str} (h : Follows v (l :: ls) (.ends args s') (.ends args s))
    (hbreak : HarmlessBreak (v args.length) s l ls) : ∃ c t, l = c :: t ∧
      Follows v ls (line v args (.inside (s'.text ++ [c]) s'.level) t) (line v args s (' ' :: l)) := by
  obtain ⟨c, t, rfl, hbreak⟩ := hbreak
  refine ⟨c, t, rfl, ?_⟩
  -- a line of the spaces behind an argument
  have hspaces : ∀ {s' : At}, c = ' ' → s'.level = 0 → s.level = 0 → trimmed s'.text = trimmed s.text →
      Delimited (v args.length) t ls →
        Follows v ls (line v args (.inside (s'.text ++ [c]) s'.level) t) (line v args s (' ' :: c :: t)) := by
    rintro s' rfl hl' hl htext hdelimited
    obtain ⟨s1, hl1, htext1, heq1⟩ := @line_space v args s hl
    obtain ⟨s2, hl2, htext2, heq2⟩ := @line_space v args s1 hl1
    rw [heq1, heq2]
    refine spaces_follow t hl' hl2 ?_ hdelimited
    rw [htext2, htext1, ← htext]
    exact trimmed_concat_space _
  cases h with
  | same =>
    rcases hbreak with ⟨hstart, hblank, hparen, hdelim⟩ | ⟨hl, hc, hdelimited⟩
    · cases s' with
      | inside x l => cases hstart
      | start =>
        have hdepth : depth c 0 = 0 := by
          unfold depth
          rw [if_neg hparen]
          split <;> rfl
        have hjoined : line v args .start (' ' :: c :: t) = line v args (.inside [c] 0) t := by
          rw [line_blank _ rfl, line_first t hblank hdelim, hdepth]
        rw [hjoined]
        exact .same _
    · exact hspaces hc hl hl rfl hdelimited
  | spaces hls hl' hl htext hdelimited =>
    obtain ⟨hl1, rfl⟩ := List.cons.inj hls
    obtain ⟨hc, rfl⟩ := List.cons.inj hl1
    exact hspaces hc hl' hl htext hdelimited

/-- The end of the text that starts with a line and goes on with further ones, joined. -/
def whole (v : ℕ → Bool) : LineEnd → List Str → LineEnd
  | .found args r, ls => .found args (r ++ joined ls)
  | .ends args s, ls => line v args s (joined ls)

theorem line_joined {args : List Str} {s : At} (t : Str) (ls : List Str) :
    line v args s (t ++ joined ls) = whole v (line v args s t) ls := by
  rw [line_append]
  cases line v args s t with
  | found args' r => rfl
  | ends args' s' => rfl

theorem whole_cons {args ls : List Str} {s : At} {l : Str} :
    whole v (.ends args s) (l :: ls) = whole v (line v args s (' ' :: l)) ls :=
  line_joined (' ' :: l) ls

theorem follows_same {args ls : List Str} {e : LineEnd} {s : At} (h : Follows v ls e (.ends args s)) :
    ∃ s', e = .ends args s' := by
  cases h with
  | same => exact ⟨s, rfl⟩
  | spaces => exact ⟨_, rfl⟩

/-- **Where the breaks are harmless** the scan finds the arguments of the joined text. -/
theorem lines_harmless (ls : List Str) : ∀ {e' e : LineEnd}, Follows v ls e' e → Closes v e ls →
    HarmlessBreaks v e ls → ∃ args r, whole v e ls = .found args r ∧ lines v e' ls = .found args r [] := by
  induction ls with
  | nil =>
    intro e' e h hcloses _
    cases h with
    | same =>
      cases e' with
      | found args r => exact ⟨args, r, by rw [whole, joined, List.flatMap_nil, List.append_nil], rfl⟩
      | ends args s => cases hcloses
    | spaces hls => cases hls
  | cons l ls ih =>
    intro e' e h hcloses hbreaks
    cases e with
    | found args r => cases hcloses
    | ends args s =>
      obtain ⟨s', rfl⟩ := follows_same h
      obtain ⟨hbreak, hbreaks⟩ := hbreaks
      obtain ⟨c, t, rfl, hnext⟩ := h.step hbreak
      rw [whole_cons]
      exact ih hnext hcloses hbreaks

/-- **Where the scan finds the arguments of the joined text** the breaks are harmless. -/
theorem harmless_of_lines (ls : List Str) : ∀ {e' e : LineEnd} {args' : List Str} {r r' : Str} {ls' : List Str},
    Follows v ls e' e → (∀ args s, e = .ends args s → s.Good) → Closes v e ls →
      lines v e' ls = .found args' r ls' → whole v e ls = .found args' r' → HarmlessBreaks v e ls := by
  induction ls with
  | nil =>
    intro e' e args' r r' ls' _ _ _ _ _
    cases e <;> trivial
  | cons l ls ih =>
    intro e' e args' r r' ls' h hgood hcloses hcode hjoined
    cases e with
    | found args r => trivial
    | ends args s =>
      obtain ⟨s', rfl⟩ := follows_same h
      have hs := hgood args s rfl
      have hbreak : HarmlessBreak (v args.length) s l ls := by
        cases h with
        | same => exact harmless_of_break hs hcode hjoined
        | spaces hls hl' hl htext hdelimited =>
          obtain ⟨rfl, rfl⟩ := List.cons.inj hls
          exact ⟨' ', _, rfl, .inr ⟨hl, rfl, hdelimited⟩⟩
      obtain ⟨c, t, rfl, hnext⟩ := h.step hbreak
      rw [whole_cons] at hjoined
      exact ⟨hbreak, ih hnext (fun args' s' heq => line_good _ hs heq) hcloses hcode hjoined⟩

end OpenHT.Htl.MacroArgs
