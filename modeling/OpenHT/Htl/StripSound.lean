import Mathlib.Data.List.Induction
import OpenHT.Lib.Fuel
import OpenHT.Htl.StripComments

/-!
# Which comments are stripped

* `readLines_spec`, `scan_spec`: the joined line, and the search in it.
* `call_spec`: one call, in terms of the lines that are left.
* `delivers_iff`: what all calls deliver, and when they come to the end of the file.
* `strip_clean`, `stripLines_differ`: lines whose literals have no comment openers, and others.
* `strips_exactly_iff`: when the lines of the file are delivered.
-/

namespace OpenHT.Htl.Strip

/-! ## Lines of the file -/

attribute [local simp] stripLines

attribute [local simp] readLines

theorem physical_of_none {file : Str} (h : getLineFromFile file = none) : physical file = [] := by
  cases file with
  | nil => rfl
  | cons c t => cases h

theorem physical_of_some : ∀ {file line rest : Str}, getLineFromFile file = some (line, rest) →
    physical file = line :: physical rest := by
  intro file
  induction file with
  | nil =>
    intro line rest h
    cases h
  | cons c t ih =>
    intro line rest h
    obtain ⟨rfl, rfl⟩ := Prod.mk.inj (Option.some.inj h)
    by_cases hc : c = '\n'
    · simp [physical, hc]
    · have htake : ((c :: t).takeWhile (· ≠ '\n')).filter (· ≠ '\r') =
          (if c = '\r' then [] else [c]) ++ (t.takeWhile (· ≠ '\n')).filter (· ≠ '\r') := by
        by_cases hr : c = '\r' <;> simp [hc, hr]
      have hdrop : (c :: t).dropWhile (· ≠ '\n') = t.dropWhile (· ≠ '\n') := by simp [hc]
      rw [htake, hdrop, physical, if_neg hc]
      cases t with
      | nil => simp [physical]
      | cons d t => rw [ih rfl]

/-! ## Joined lines -/

/-- A line whose end is no continuation. -/
def NoSlash (l : Str) : Prop := endsInBackslash l = false

theorem endsInBackslash_append {pre acc : Str} (hpre : NoSlash pre) :
    endsInBackslash (pre ++ acc) = endsInBackslash acc := by
  unfold NoSlash endsInBackslash at *
  cases acc using List.reverseRecOn with
  | nil =>
    rw [List.append_nil, hpre]
    rfl
  | append_singleton l c =>
    have hlast : (pre ++ (l ++ [c])).getLast? = (l ++ [c]).getLast? := by
      rw [← List.append_assoc, List.getLast?_concat, List.getLast?_concat]
    rw [hlast]

theorem dropLast_append {pre acc : Str} (h : endsInBackslash acc = true) : (pre ++ acc).dropLast = pre ++ acc.dropLast := by
  cases acc with
  | nil => cases h
  | cons c t => exact List.dropLast_append_of_ne_nil (List.cons_ne_nil c t)

/-- One backslash less at the end. -/
theorem dropBackslashes_step {acc : Str} (h : endsInBackslash acc = true) :
    dropBackslashes acc = dropBackslashes acc.dropLast ∧ acc.dropLast.length < acc.length := by
  have hlast : acc.getLast? = some '\\' := of_decide_eq_true h
  obtain ⟨l, rfl⟩ : ∃ l, acc = l ++ ['\\'] := List.getLast?_eq_some_iff.1 hlast
  refine ⟨?_, ?_⟩
  · simp [dropBackslashes]
  · simp

theorem dropBackslashes_of_noSlash {acc : Str} (h : endsInBackslash acc = false) : dropBackslashes acc = acc := by
  induction acc using List.reverseRecOn with
  | nil => rfl
  | append_singleton l c _ =>
    have hc : c ≠ '\\' := by
      intro hc
      rw [hc] at h
      simp [endsInBackslash] at h
    simp [dropBackslashes, hc]

/-- The first logical line, and the lines behind it. -/
def firstLogical : Str → Bool → List Str → Option ((Str × Bool) × List Str)
  | acc, b, [] => if b then some ((dropBackslashes acc, true), []) else none
  | acc, b, p :: ps =>
    if endsInBackslash (acc ++ p) then firstLogical (acc ++ p).dropLast true ps else some ((acc ++ p, b), ps)

attribute [local simp] firstLogical

theorem logical_eq (ps : List Str) : ∀ (acc : Str) (b : Bool), logical acc b ps =
    match firstLogical acc b ps with
    | none => []
    | some (l, rest) => l :: logical [] false rest := by
  induction ps with
  | nil =>
    intro acc b
    cases b <;> rfl
  | cons p ps ih =>
    intro acc b
    rw [logical, firstLogical]
    by_cases hend : endsInBackslash (acc ++ p) = true
    · rw [if_pos hend, if_pos hend]
      exact ih _ true
    · rw [if_neg hend, if_neg hend]

theorem firstLogical_length (ps : List Str) : ∀ {acc : Str} {b : Bool} {l : Str × Bool} {rest : List Str},
    firstLogical acc b ps = some (l, rest) → rest.length ≤ ps.length ∧ (rest.length = ps.length → ps = []) := by
  induction ps with
  | nil =>
    intro acc b l rest h
    cases b with
    | false => cases h
    | true =>
      obtain ⟨-, rfl⟩ := Prod.mk.inj (Option.some.inj h)
      exact ⟨Nat.le_refl _, fun _ => rfl⟩
  | cons p ps ih =>
    intro acc b l rest h
    rw [firstLogical] at h
    split at h
    · have := ih h
      simp only [List.length_cons]
      omega
    · obtain ⟨-, rfl⟩ := Prod.mk.inj (Option.some.inj h)
      simp only [List.length_cons]
      omega

/-- A line with a continuation has an end, be it that of the file. -/
theorem firstLogical_continued (ps : List Str) : ∀ (acc : Str), ∃ l rest,
    firstLogical acc true ps = some ((l, true), rest) := by
  induction ps with
  | nil => exact fun acc => ⟨_, _, rfl⟩
  | cons p ps ih =>
    intro acc
    rw [firstLogical]
    split
    · exact ih _
    · exact ⟨_, _, rfl⟩

/-- A continuation that was there before only shows in the flag. -/
theorem firstLogical_flag (b : Bool) {p : Str} {ps : List Str} : ∃ l f rest,
    firstLogical [] false (p :: ps) = some ((l, f), rest) ∧ firstLogical [] b (p :: ps) = some ((l, b || f), rest) := by
  rw [firstLogical, firstLogical]
  split
  · obtain ⟨l, rest, h⟩ := firstLogical_continued ps ([] ++ p).dropLast
    refine ⟨l, true, rest, h, ?_⟩
    rw [Bool.or_true]
    exact h
  · refine ⟨_, false, _, rfl, ?_⟩
    rw [Bool.or_false]

/-- The joined line does not end with a backslash. -/
theorem noSlash_of_firstLogical (ps : List Str) : ∀ {acc : Str} {b : Bool} {l : Str} {f : Bool} {rest : List Str},
    firstLogical acc b ps = some ((l, f), rest) → NoSlash l := by
  induction ps with
  | nil =>
    intro acc b l f rest h
    cases b with
    | false => cases h
    | true =>
      obtain ⟨hl, -⟩ := Prod.mk.inj (Option.some.inj h)
      obtain ⟨rfl, -⟩ := Prod.mk.inj hl
      unfold NoSlash endsInBackslash dropBackslashes
      rw [List.getLast?_reverse]
      have := List.head?_dropWhile_not (fun c => decide (c = '\\')) acc.reverse
      cases hh : (acc.reverse.dropWhile (· = '\\')).head? with
      | none => rfl
      | some c =>
        rw [hh] at this
        simpa using this
  | cons p ps ih =>
    intro acc b l f rest h
    rw [firstLogical] at h
    split at h
    · exact ih h
    · rename_i hend
      obtain ⟨hl, -⟩ := Prod.mk.inj (Option.some.inj h)
      obtain ⟨rfl, -⟩ := Prod.mk.inj hl
      exact Bool.eq_false_iff.2 hend

/-- **The joined line.** Whatever stands on the line before the new part stays. -/
theorem readLines_spec (bInComment : Bool) (ps : List Str) : ∀ (file pre acc : Str) (b : Bool), physical file = ps →
    NoSlash pre → ((b || bInComment) = false → pre = [] ∧ acc = []) →
      match firstLogical acc b ps with
      | none => ∀ n, readLines (n + 1) file (pre ++ acc) b bInComment = some .endOfFile
      | some ((l, f), rest) => ∃ file', physical file' = rest ∧
          Fuel.Returns (fun n => readLines n file (pre ++ acc) b bInComment) (.line file' (pre ++ l) f) := by
  induction ps with
  | nil =>
    intro file pre acc b hfile hpre hclear
    have hnone : getLineFromFile file = none := by
      cases hl : getLineFromFile file with
      | none => rfl
      | some r =>
        rw [@physical_of_some file r.1 r.2 hl] at hfile
        cases hfile
    cases b with
    | false =>
      intro n
      simp only [readLines, hnone, Bool.false_eq_true, if_false]
    | true =>
      -- the rounds at the end of the file
      have hrounds : ∀ (k : ℕ) (acc : Str), acc.length ≤ k → Fuel.Returns
          (fun n => readLines n file (pre ++ acc) true bInComment) (.line file (pre ++ dropBackslashes acc) true) := by
        intro k
        induction k with
        | zero =>
          intro acc hk
          have hnil : acc = [] := List.length_eq_zero_iff.1 (by omega)
          have hp : endsInBackslash pre = false := hpre
          refine Fuel.Returns.succ (fun n => ?_) (Fuel.Returns.const _)
          simp [readLines, hnone, hnil, hp, dropBackslashes]
        | succ k ihk =>
          intro acc hk
          cases hend : endsInBackslash acc with
          | false =>
            refine Fuel.Returns.succ (fun n => ?_) (Fuel.Returns.const _)
            simp [readLines, hnone, endsInBackslash_append hpre, hend, dropBackslashes_of_noSlash hend]
          | true =>
            obtain ⟨hdrop, hlen⟩ := dropBackslashes_step hend
            rw [hdrop]
            refine Fuel.Returns.succ (fun n => ?_) (ihk acc.dropLast (by omega))
            simp [readLines, hnone, endsInBackslash_append hpre, hend, dropLast_append hend]
      exact ⟨file, hfile, hrounds acc.length acc (Nat.le_refl _)⟩
  | cons p ps ih =>
    intro file pre acc b hfile hpre hclear
    cases hl : getLineFromFile file with
    | none =>
      rw [physical_of_none hl] at hfile
      cases hfile
    | some r =>
      obtain ⟨line, file'⟩ := r
      rw [physical_of_some hl] at hfile
      obtain ⟨rfl, hrest⟩ := List.cons.inj hfile
      have hbuf : (if (b || bInComment) = true then pre ++ acc else []) ++ line = pre ++ (acc ++ line) := by
        cases hb : (b || bInComment) with
        | true => rw [if_pos rfl, List.append_assoc]
        | false =>
          obtain ⟨h1, h2⟩ := hclear hb
          rw [h1, h2]
          rfl
      rw [firstLogical]
      cases hend : endsInBackslash (acc ++ line) with
      | true =>
        rw [if_pos rfl]
        have hnext := ih file' pre (acc ++ line).dropLast true hrest hpre (fun h => by cases h)
        have hstep : ∀ n, readLines (n + 1) file (pre ++ acc) b bInComment =
            readLines n file' (pre ++ (acc ++ line).dropLast) true bInComment := by
          intro n
          simp only [readLines, hl, hbuf, endsInBackslash_append hpre, hend, if_true, dropLast_append hend]
        cases hfirst : firstLogical (acc ++ line).dropLast true ps with
        | none =>
          obtain ⟨l, rest, hsome⟩ := firstLogical_continued ps (acc ++ line).dropLast
          rw [hsome] at hfirst
          cases hfirst
        | some r =>
          obtain ⟨⟨l, f⟩, rest⟩ := r
          rw [hfirst] at hnext
          obtain ⟨file'', hphys, hreturns⟩ := hnext
          exact ⟨file'', hphys, hreturns.succ hstep⟩
      | false =>
        rw [if_neg Bool.false_ne_true]
        refine ⟨file', hrest, Fuel.Returns.succ (fun n => ?_) (Fuel.Returns.const _)⟩
        simp only [readLines, hl, hbuf, endsInBackslash_append hpre, hend, Bool.false_eq_true, if_false]

/-! ## The search -/

/-- The mode of the search. -/
def Mode.at (bInComment : Bool) (comment : Str) : Mode := if bInComment then .block comment.length else .code

theorem Mode.at_false (comment : Str) : Mode.at false comment = .code := rfl

theorem Mode.at_true (comment : Str) : Mode.at true comment = .block comment.length := rfl

/-- What the search finds: the line, and the open comment, which ends with what is behind the position. -/
structure Found (bInComment : Bool) (done comment t : Str) (r : Bool × Str × Str) : Prop where
  isOpen : r.1 = (strip false (.at bInComment comment) t).2.isSome
  line : r.2.1 = done ++ (strip false (.at bInComment comment) t).1
  length : ∀ n, (strip false (.at bInComment comment) t).2 = some n → r.2.2.length = n
  ends : r.1 = true → ∃ pre, pre ++ r.2.2 = comment ++ t
  ne_nil : r.1 = true → (bInComment = true → comment ++ t ≠ []) → r.2.2 ≠ []

/-- **The search.** It finds what the text says, where literals count for nothing. -/
theorem scan_spec (bInComment : Bool) (done comment t : Str) (h : bInComment = false → comment = []) :
    Found bInComment done comment t (scan bInComment done comment t) := by
  fun_induction scan bInComment done comment t with
  | case1 done comment => exact ⟨rfl, by simp [strip, Mode.at], nofun, nofun, nofun⟩
  | case2 done comment c =>
    have hstrip : strip false .code [c] = ([c], none) := by simp [strip]
    refine ⟨?_, ?_, ?_, nofun, nofun⟩
    · simp [Mode.at, hstrip]
    · simp [Mode.at, hstrip]
    · simp [Mode.at, hstrip]
  | case3 done comment c d t hc =>
    have hstrip : strip false .code (c :: d :: t) = ([' '], none) := by simp [strip, hc]
    refine ⟨?_, ?_, ?_, nofun, nofun⟩
    · simp [Mode.at, hstrip]
    · simp [Mode.at, hstrip]
    · simp [Mode.at, hstrip]
  | case4 done comment c d t hn hc ih =>
    have hstrip : strip false .code (c :: d :: t) = strip false (.at true [c, d]) t := by simp [strip, hc, Mode.at]
    have hnil : comment = [] := h rfl
    obtain ⟨hopen, hline, hlength, hends, hne⟩ := ih nofun
    refine ⟨?_, ?_, ?_, ?_, ?_⟩
    · rw [hopen, Mode.at_false, hstrip]
    · rw [hline, Mode.at_false, hstrip]
    · rw [Mode.at_false, hstrip]
      exact hlength
    · rw [hnil]
      exact hends
    · exact fun ho _ => hne ho (fun _ => List.cons_ne_nil _ _)
  | case5 done comment c d t hn hm ih =>
    have hnil : comment = [] := h rfl
    have hstrip : strip false .code (c :: d :: t) = (c :: (strip false .code (d :: t)).1, (strip false .code (d :: t)).2) := by
      have h1 : ¬(c = '/' ∧ (d :: t).head? = some '/') := by simpa using hn
      have h2 : ¬(c = '/' ∧ (d :: t).head? = some '*') := by simpa using hm
      rw [strip, if_neg h1, if_neg h2]
      rfl
    obtain ⟨hopen, hline, hlength, hends, hne⟩ := ih (fun _ => rfl)
    rw [Mode.at_false] at hopen hline hlength
    refine ⟨?_, ?_, ?_, ?_, ?_⟩
    · rw [Mode.at_false, hstrip, hopen]
    · rw [Mode.at_false, hstrip, hline, List.append_assoc]
      rfl
    · rw [Mode.at_false, hstrip]
      exact hlength
    · intro ho
      obtain ⟨pre, hpre⟩ := hends ho
      refine ⟨c :: pre, ?_⟩
      rw [hnil, List.cons_append, hpre]
      rfl
    · exact fun ho _ => hne ho nofun
  | case6 done comment =>
    refine ⟨rfl, ?_, ?_, ?_, ?_⟩
    · simp [Mode.at, strip]
    · intro n hn
      exact Option.some.inj hn
    · exact fun _ => ⟨[], by simp⟩
    · intro _ hne
      simpa using hne rfl
  | case7 done comment c =>
    have hstrip : strip false (.at true comment) [c] = ([], some (comment ++ [c]).length) := by simp [strip, Mode.at]
    refine ⟨?_, ?_, ?_, ?_, ?_⟩
    · rw [hstrip]
      rfl
    · rw [hstrip, List.append_nil]
    · rw [hstrip]
      exact fun n hn => Option.some.inj hn
    · exact fun _ => ⟨[], rfl⟩
    · exact fun _ _ => by simp
  | case8 done comment c d t hc ih =>
    have hstrip : strip false (.at true comment) (c :: d :: t) =
        (List.replicate (comment.length + 2) ' ' ++ (strip false .code t).1, (strip false .code t).2) := by
      simp [strip, hc, Mode.at]
    obtain ⟨hopen, hline, hlength, hends, hne⟩ := ih (fun _ => rfl)
    rw [Mode.at_false] at hopen hline hlength
    refine ⟨?_, ?_, ?_, ?_, ?_⟩
    · rw [hstrip, hopen]
    · rw [hstrip, hline, List.append_assoc]
    · rw [hstrip]
      exact hlength
    · intro ho
      obtain ⟨pre, hpre⟩ := hends ho
      refine ⟨comment ++ [c, d] ++ pre, ?_⟩
      rw [List.append_assoc, hpre, List.append_assoc]
      rfl
    · exact fun ho _ => hne ho nofun
  | case9 done comment c d t hn ih =>
    have hlen : (comment ++ [c]).length = comment.length + 1 := by simp
    have hstrip : strip false (.at true comment) (c :: d :: t) = strip false (.at true (comment ++ [c])) (d :: t) := by
      have h1 : ¬(c = '*' ∧ (d :: t).head? = some '/') := by simpa using hn
      rw [Mode.at_true, strip, if_neg h1, Mode.at_true, hlen]
    obtain ⟨hopen, hline, hlength, hends, hne⟩ := ih nofun
    refine ⟨?_, ?_, ?_, ?_, ?_⟩
    · rw [hstrip, hopen]
    · rw [hstrip, hline]
    · rw [hstrip]
      exact hlength
    · intro ho
      obtain ⟨pre, hpre⟩ := hends ho
      refine ⟨pre, ?_⟩
      rw [hpre, List.append_assoc]
      rfl
    · exact fun ho _ => hne ho (fun _ => by simp)

/-! ## Fuel -/

theorem readLines_mono : ∀ {n m : ℕ} {file lineBuf : Str} {b bInComment : Bool} {r : ReadResult}, n ≤ m →
    readLines n file lineBuf b bInComment = some r → readLines m file lineBuf b bInComment = some r := by
  intro n
  induction n with
  | zero =>
    intro m file lineBuf b bInComment r _ h
    cases h
  | succ n ih =>
    intro m file lineBuf b bInComment r hm h
    obtain ⟨m, rfl⟩ : ∃ k, m = k + 1 := ⟨m - 1, by omega⟩
    have hle : n ≤ m := by omega
    rw [readLines] at h ⊢
    cases hline : getLineFromFile file with
    | none =>
      rw [hline] at h
      dsimp only at h ⊢
      by_cases hb : b = true
      · rw [if_pos hb] at h ⊢
        exact Fuel.ite_mono (ih hle) h
      · rw [if_neg hb] at h ⊢
        exact h
    | some r =>
      rw [hline] at h
      exact Fuel.ite_mono (ih hle) h

theorem getLine_mono : ∀ {n m : ℕ} {s : CallState} {r : CallResult}, n ≤ m →
    getLineWithCommentsStripped n s = some r → getLineWithCommentsStripped m s = some r := by
  intro n
  induction n with
  | zero =>
    intro m s r _ h
    cases h
  | succ n ih =>
    intro m s r hm h
    obtain ⟨m, rfl⟩ : ∃ k, m = k + 1 := ⟨m - 1, by omega⟩
    have hle : n ≤ m := by omega
    rw [getLineWithCommentsStripped] at h ⊢
    cases hread : readLines (n + 1) s.file s.lineBuf s.bContinue s.bInComment with
    | none =>
      rw [hread] at h
      cases h
    | some r =>
      rw [readLines_mono (by omega) hread]
      rw [hread] at h
      cases r with
      | endOfFile => exact h
      | line file lineBuf bContinue => exact Fuel.ite_mono (ih hle) h

/-! ## One call -/

theorem noSlash_append {pre l : Str} (hpre : NoSlash pre) (hl : NoSlash l) : NoSlash (pre ++ l) := by
  unfold NoSlash
  rw [endsInBackslash_append hpre]
  exact hl

/-- What does not end a line does not end it with more in front. -/
theorem endsInBackslash_suffix {pre l : Str} (h : l ≠ []) : endsInBackslash (pre ++ l) = endsInBackslash l := by
  obtain ⟨t, c, rfl⟩ : ∃ t c, l = t ++ [c] := ⟨l.dropLast, l.getLast h, (List.dropLast_concat_getLast h).symm⟩
  unfold endsInBackslash
  rw [← List.append_assoc, List.getLast?_concat, List.getLast?_concat]

/-- The variables at the start of a round, where `acc` stands before the comment. -/
def CallState.round (file acc comment : Str) (b bInComment : Bool) : CallState :=
  ⟨file, acc ++ comment, (acc ++ comment).length, acc.length, b, bInComment⟩

theorem round_start (file : Str) : CallState.round file [] [] false false = .start file := rfl

/-- What holds at the start of each round. -/
structure Ready (acc comment : Str) (b bInComment : Bool) : Prop where
  clear : bInComment = false → acc = [] ∧ comment = [] ∧ b = false
  isOpen : bInComment = true → comment ≠ [] ∧ NoSlash comment

theorem Ready.start : Ready [] [] false false := ⟨fun _ => ⟨rfl, rfl, rfl⟩, nofun⟩

theorem Ready.noSlash {acc comment : Str} {b bInComment : Bool} (h : Ready acc comment b bInComment) :
    NoSlash (acc ++ comment) := by
  cases bInComment with
  | false =>
    obtain ⟨rfl, rfl, -⟩ := h.clear rfl
    rfl
  | true =>
    obtain ⟨hne, hslash⟩ := h.isOpen rfl
    unfold NoSlash
    rw [endsInBackslash_suffix hne]
    exact hslash

/-- The part of a round behind the reading. -/
theorem round_line {n : ℕ} {file file' acc comment l : Str} {b bInComment bContinue : Bool}
    (h : Ready acc comment b bInComment)
    (hread : readLines (n + 1) file (acc ++ comment) b bInComment = some (.line file' (acc ++ comment ++ l) bContinue)) :
    getLineWithCommentsStripped (n + 1) (.round file acc comment b bInComment) =
      let r := scan bInComment acc comment l
      if r.1 then getLineWithCommentsStripped n (.round file' r.2.1 r.2.2 bContinue true) else some (.line file' r.2.1) := by
  have htake : (acc ++ comment ++ l).take (acc ++ comment).length = acc ++ comment := List.take_left' rfl
  have hdrop : (acc ++ comment ++ l).drop (acc ++ comment).length = l := List.drop_left' rfl
  rw [getLineWithCommentsStripped]
  simp only [CallState.round, hread, htake, hdrop]
  cases bInComment with
  | false =>
    obtain ⟨rfl, rfl, -⟩ := h.clear rfl
    rfl
  | true => simp

theorem logicalLines_nil {file : Str} (h : logicalLines file = []) : file = [] := by
  have hphys : physical file = [] := by
    cases hp : physical file with
    | nil => rfl
    | cons p ps =>
      obtain ⟨l, f, rest, hfirst, -⟩ := @firstLogical_flag false p ps
      rw [logicalLines, hp, logical_eq, hfirst] at h
      cases h
  cases file with
  | nil => rfl
  | cons c t =>
    rw [@physical_of_some (c :: t) _ _ rfl] at hphys
    cases hphys

/-- **A round with a line.** It ends the call, or leaves the comment open for the next round. -/
theorem round_spec {file acc comment l : Str} {b bInComment f : Bool} {ls : List (Str × Bool)}
    (h : Ready acc comment b bInComment) (hfile : logicalLines file = (l, f) :: ls) :
    ∃ file', logicalLines file' = ls ∧ ∃ comment',
      match strip false (.at bInComment comment) l with
      | (o, none) => Fuel.Returns (fun n => getLineWithCommentsStripped n (.round file acc comment b bInComment))
          (.line file' (acc ++ o))
      | (o, some k) => comment'.length = k ∧ Ready (acc ++ o) comment' (b || f) true ∧ ∃ N, ∀ n, N ≤ n →
          getLineWithCommentsStripped (n + 1) (.round file acc comment b bInComment) =
            getLineWithCommentsStripped n (.round file' (acc ++ o) comment' (b || f) true) := by
  cases hp : physical file with
  | nil =>
    rw [logicalLines, hp] at hfile
    cases hfile
  | cons p ps =>
    obtain ⟨l', f', rest, hfirst, hflag⟩ := @firstLogical_flag b p ps
    rw [logicalLines, hp, logical_eq, hfirst] at hfile
    obtain ⟨hl, rfl⟩ := List.cons.inj hfile
    obtain ⟨rfl, rfl⟩ := Prod.mk.inj hl
    have hslash : NoSlash l' := noSlash_of_firstLogical _ hfirst
    have hread := readLines_spec bInComment _ file (acc ++ comment) [] b hp h.noSlash
      (fun hb => by
        rw [Bool.or_eq_false_iff] at hb
        obtain ⟨rfl, rfl, -⟩ := h.clear hb.2
        exact ⟨rfl, rfl⟩)
    rw [hflag, List.append_nil] at hread
    obtain ⟨file', hrest, N, hN⟩ := hread
    have hround := fun n (hn : N ≤ n) => round_line h (hN (n + 1) (by omega))
    have hfound := scan_spec bInComment acc comment l' (fun hb => (h.clear hb).2.1)
    refine ⟨file', by rw [logicalLines, hrest], (scan bInComment acc comment l').2.2, ?_⟩
    rcases hs : strip false (.at bInComment comment) l' with ⟨o, m⟩
    have hopen := hfound.isOpen
    have hline := hfound.line
    rw [hs] at hopen hline
    dsimp only at hopen hline
    cases m with
    | none =>
      refine ⟨N + 1, fun n hn => ?_⟩
      obtain ⟨n, rfl⟩ : ∃ k, n = k + 1 := ⟨n - 1, by omega⟩
      have hr := hround n (by omega)
      simp only [hopen, hline, Option.isSome_none, Bool.false_eq_true, if_false] at hr
      exact hr
    | some k =>
      have hne : comment ++ l' ≠ [] → (scan bInComment acc comment l').2.2 ≠ [] :=
        fun hc => hfound.ne_nil hopen fun _ => hc
      have hcomment : (scan bInComment acc comment l').2.2 ≠ [] := hfound.ne_nil hopen fun hb => by
        have := (h.isOpen hb).1
        simp [this]
      refine ⟨hfound.length k (by rw [hs]), ⟨nofun, fun _ => ⟨hcomment, ?_⟩⟩, N, fun n hn => ?_⟩
      · obtain ⟨pre, hpre⟩ := hfound.ends hopen
        have hall : NoSlash (comment ++ l') := by
          cases bInComment with
          | false =>
            rw [(h.clear rfl).2.1]
            exact hslash
          | true => exact noSlash_append (h.isOpen rfl).2 hslash
        unfold NoSlash at hall ⊢
        rw [← hpre, endsInBackslash_suffix hcomment] at hall
        exact hall
      · have hr := hround n (by omega)
        simp only [hopen, hline, Option.isSome_some, if_true] at hr
        exact hr

/-- The end of the file ends the call, unless there is a comment with a continuation. -/
theorem round_end {acc comment : Str} {b bInComment : Bool} (h : Ready acc comment b bInComment) :
    (b = false → Fuel.Returns (fun n => getLineWithCommentsStripped n (.round [] acc comment b bInComment)) .endOfFile) ∧
      (b = true → ∀ n, getLineWithCommentsStripped n (.round [] acc comment b bInComment) = none) := by
  refine ⟨?_, ?_⟩
  · rintro rfl
    exact Fuel.Returns.succ (fun _ => rfl) (Fuel.Returns.const _)
  · rintro rfl n
    have hopen : bInComment = true := by
      cases bInComment with
      | false => exact absurd (h.clear rfl).2.2 Bool.noConfusion
      | true => rfl
    subst hopen
    induction n with
    | zero => rfl
    | succ n ih =>
      have hslash : endsInBackslash (acc ++ comment) = false := h.noSlash
      have hread : readLines (n + 1) [] (acc ++ comment) true true =
          some (.line [] (acc ++ comment ++ []) true) := by
        rw [readLines, List.append_nil]
        simp only [getLineFromFile, if_true, hslash, Bool.false_eq_true, if_false]
      rw [round_line h hread]
      exact ih

/-- What a call does with the lines that are left: one line, or nothing but the start of a line with an open comment and
whether it has a continuation. -/
inductive Stripped
  | line (o : Str) (ls : List (Str × Bool))
  | ends (leftover : Option (Str × Bool))

/-- `stripLines` up to the first line. -/
def stripCall (literals : Bool) : Str → Option ℕ → Bool → List (Str × Bool) → Stripped
  | acc, m, b, [] => .ends (m.map fun _ => (acc, b))
  | acc, m, b, (l, f) :: ls =>
    match strip literals (.start m) l with
    | (o, none) => .line (acc ++ o) ls
    | (o, some n) => stripCall literals (acc ++ o) (some n) (b || f) ls

theorem stripLines_eq (literals : Bool) (ls : List (Str × Bool)) : ∀ (acc : Str) (m : Option ℕ) (b : Bool),
    stripLines literals acc m b ls =
      match stripCall literals acc m b ls with
      | .line o rest => (o :: (stripLines literals [] none false rest).1, (stripLines literals [] none false rest).2)
      | .ends leftover => ([], leftover) := by
  induction ls with
  | nil => exact fun acc m b => rfl
  | cons x ls ih =>
    intro acc m b
    obtain ⟨l, f⟩ := x
    rw [stripLines, stripCall]
    rcases hs : strip literals (.start m) l with ⟨o, _ | n⟩
    · rfl
    · exact ih _ _ _

theorem stripCall_length {literals : Bool} {ls rest : List (Str × Bool)} : ∀ {acc o : Str} {m : Option ℕ} {b : Bool},
    stripCall literals acc m b ls = .line o rest → rest.length < ls.length := by
  induction ls with
  | nil =>
    intro acc o m b h
    cases h
  | cons x ls ih =>
    intro acc o m b h
    obtain ⟨l, f⟩ := x
    rw [stripCall] at h
    split at h
    · obtain ⟨-, rfl⟩ := Stripped.line.inj h
      exact Nat.lt_succ_self _
    · have := ih h
      simp only [List.length_cons]
      omega

/-- The call goes on without end. -/
def Stripped.endless : Stripped → Bool
  | .ends (some (_, b)) => b
  | _ => false

/-- The length of the open comment. -/
def openLength (bInComment : Bool) (comment : Str) : Option ℕ := if bInComment then some comment.length else none

theorem start_openLength (bInComment : Bool) (comment : Str) :
    Mode.start (openLength bInComment comment) = .at bInComment comment := by
  cases bInComment <;> rfl

/-- **One call.** -/
theorem call_spec (ls : List (Str × Bool)) : ∀ {file acc comment : Str} {b bInComment : Bool},
    Ready acc comment b bInComment → logicalLines file = ls →
      match stripCall false acc (openLength bInComment comment) b ls with
      | .line o rest => ∃ file', logicalLines file' = rest ∧
          Fuel.Returns (fun n => getLineWithCommentsStripped n (.round file acc comment b bInComment)) (.line file' o)
      | .ends leftover =>
        if (Stripped.ends leftover).endless then
          ∀ n, getLineWithCommentsStripped n (.round file acc comment b bInComment) = none
        else Fuel.Returns (fun n => getLineWithCommentsStripped n (.round file acc comment b bInComment)) .endOfFile := by
  induction ls with
  | nil =>
    intro file acc comment b bInComment h hfile
    obtain rfl := logicalLines_nil hfile
    obtain ⟨hend, hnever⟩ := round_end h
    cases bInComment with
    | false =>
      obtain ⟨-, -, rfl⟩ := h.clear rfl
      exact hend rfl
    | true =>
      cases b with
      | false => exact hend rfl
      | true => exact hnever rfl
  | cons x ls ih =>
    intro file acc comment b bInComment h hfile
    obtain ⟨l, f⟩ := x
    obtain ⟨file', hrest, comment', hround⟩ := round_spec h hfile
    rw [stripCall, start_openLength]
    rcases hs : strip false (.at bInComment comment) l with ⟨o, _ | k⟩
    · rw [hs] at hround
      exact ⟨file', hrest, hround⟩
    · rw [hs] at hround
      obtain ⟨hlen, hready, N, hN⟩ := hround
      have hnext := ih hready hrest
      rw [openLength, if_pos rfl, hlen] at hnext
      -- the round takes the call to the next state, from some fuel on
      have hcongr : ∀ {r}, Fuel.Returns (fun n => getLineWithCommentsStripped n
          (.round file' (acc ++ o) comment' (b || f) true)) r →
          Fuel.Returns (fun n => getLineWithCommentsStripped n (.round file acc comment b bInComment)) r := by
        exact fun hr => Fuel.Returns.step ⟨N, hN⟩ hr
      dsimp only
      cases hcall : stripCall false (acc ++ o) (some k) (b || f) ls with
      | line o' rest =>
        rw [hcall] at hnext
        obtain ⟨file'', hrest', hreturns⟩ := hnext
        exact ⟨file'', hrest', hcongr hreturns⟩
      | ends leftover =>
        rw [hcall] at hnext
        dsimp only at hnext ⊢
        cases hendless : (Stripped.ends leftover).endless with
        | false =>
          rw [hendless, if_neg Bool.false_ne_true] at hnext
          rw [if_neg Bool.false_ne_true]
          exact hcongr hnext
        | true =>
          rw [hendless, if_pos rfl] at hnext
          rw [if_pos rfl]
          intro n
          cases hn : getLineWithCommentsStripped n (.round file acc comment b bInComment) with
          | none => rfl
          | some r =>
            have hmore := getLine_mono (m := max N n + 1) (by omega) hn
            rw [hN _ (by omega), hnext] at hmore
            cases hmore

/-! ## All calls -/

/-- A call for a new line, where it returns. -/
theorem call_returned {file : Str} {n : ℕ} {r : CallResult} (h : getLineWithCommentsStripped n (.start file) = some r) :
    (∃ o rest file', stripCall false [] none false (logicalLines file) = .line o rest ∧ logicalLines file' = rest ∧
        r = .line file' o) ∨
      (∃ leftover, stripCall false [] none false (logicalLines file) = .ends leftover ∧
        (Stripped.ends leftover).endless = false ∧ r = .endOfFile) := by
  have hreturns := Fuel.Returns.of_mono getLine_mono h
  have hcall := call_spec (logicalLines file) Ready.start rfl
  rw [round_start] at hcall
  change match stripCall false [] none false (logicalLines file) with
    | .line o rest => _
    | .ends leftover => _ at hcall
  cases hs : stripCall false [] none false (logicalLines file) with
  | line o rest =>
    rw [hs] at hcall
    obtain ⟨file', hrest, hcall⟩ := hcall
    exact .inl ⟨o, rest, file', rfl, hrest, hreturns.unique hcall⟩
  | ends leftover =>
    rw [hs] at hcall
    dsimp only at hcall
    refine .inr ⟨leftover, rfl, ?_⟩
    cases hendless : (Stripped.ends leftover).endless with
    | true =>
      rw [hendless, if_pos rfl] at hcall
      rw [hcall n] at h
      cases h
    | false =>
      rw [hendless, if_neg Bool.false_ne_true] at hcall
      exact ⟨rfl, hreturns.unique hcall⟩

/-- What is left at the end of the file has no continuation. -/
def Finite (leftover : Option (Str × Bool)) : Prop := ∀ l b, leftover = some (l, b) → b = false

theorem finite_iff (leftover : Option (Str × Bool)) : Finite leftover ↔ (Stripped.ends leftover).endless = false := by
  cases leftover with
  | none => exact ⟨fun _ => rfl, fun _ => nofun⟩
  | some x =>
    obtain ⟨l, b⟩ := x
    refine ⟨fun h => h l b rfl, fun h l' b' hx => ?_⟩
    obtain ⟨-, rfl⟩ := Prod.mk.inj (Option.some.inj hx)
    exact h

theorem delivers_of (n : ℕ) : ∀ {file : Str}, (logicalLines file).length ≤ n →
    Finite (stripLines false [] none false (logicalLines file)).2 →
      Delivers file (stripLines false [] none false (logicalLines file)).1 := by
  induction n with
  | zero =>
    intro file hn _
    have hlength : (logicalLines file).length = 0 := by omega
    obtain rfl := logicalLines_nil (List.length_eq_zero_iff.1 hlength)
    exact .endOfFile (n := 1) rfl
  | succ n ih =>
    intro file hn hfinite
    have hcall := call_spec (logicalLines file) Ready.start rfl
    rw [round_start] at hcall
    change match stripCall false [] none false (logicalLines file) with
      | .line o rest => _
      | .ends leftover => _ at hcall
    rw [stripLines_eq] at hfinite ⊢
    cases hs : stripCall false [] none false (logicalLines file) with
    | line o rest =>
      have hlen := stripCall_length hs
      rw [hs] at hcall hfinite
      obtain ⟨file', rfl, N, hN⟩ := hcall
      exact .line (hN N (Nat.le_refl _)) (@ih file' (by omega) hfinite)
    | ends leftover =>
      rw [hs] at hcall hfinite
      dsimp only at hcall hfinite
      rw [(finite_iff leftover).1 hfinite, if_neg Bool.false_ne_true] at hcall
      obtain ⟨N, hN⟩ := hcall
      exact .endOfFile (hN N (Nat.le_refl _))

/-- **What is delivered.** The lines where literals count for nothing; the end of the file is found if there is no open
comment with a continuation. -/
theorem delivers_iff {file : Str} {lines : List Str} : Delivers file lines ↔
    (stripLines false [] none false (logicalLines file)).1 = lines ∧
      Finite (stripLines false [] none false (logicalLines file)).2 := by
  refine ⟨fun h => ?_, ?_⟩
  · induction h with
    | endOfFile h =>
      rw [stripLines_eq]
      rcases call_returned h with ⟨o, rest, file', -, -, hr⟩ | ⟨leftover, hs, hendless, -⟩
      · cases hr
      · rw [hs]
        exact ⟨rfl, (finite_iff leftover).2 hendless⟩
    | line h _ ih =>
      rw [stripLines_eq]
      rcases call_returned h with ⟨o, rest, file', hs, hrest, hr⟩ | ⟨leftover, -, -, hr⟩
      · obtain ⟨rfl, rfl⟩ := CallResult.line.inj hr
        rw [hs, ← hrest]
        exact ⟨congrArg _ ih.1, ih.2⟩
      · cases hr
  · rintro ⟨rfl, hfinite⟩
    exact delivers_of _ (Nat.le_refl _) hfinite

/-! ## Literals -/

/-- The mode where literals count for nothing. -/
def Mode.plain : Mode → Mode
  | .literal _ => .code
  | .escape _ => .code
  | m => m

/-- At a character that opens no comment. -/
theorem strip_code (literals : Bool) {c : Char} {t : Str} (h1 : ¬(c = '/' ∧ t.head? = some '/'))
    (h2 : ¬(c = '/' ∧ t.head? = some '*')) : strip literals .code (c :: t) =
      (c :: (strip literals (if literals && opens c t then .literal c else .code) t).1,
        (strip literals (if literals && opens c t then .literal c else .code) t).2) := by
  rw [strip, if_neg h1, if_neg h2]

/-- At a character that opens no comment, where literals count for nothing. -/
theorem strip_other {c : Char} {t : Str} (h1 : ¬(c = '/' ∧ t.head? = some '/'))
    (h2 : ¬(c = '/' ∧ t.head? = some '*')) :
    strip false .code (c :: t) = (c :: (strip false .code t).1, (strip false .code t).2) :=
  strip_code false h1 h2

theorem not_opener {c : Char} {t : Str} (h : opener c t = false) :
    ¬(c = '/' ∧ t.head? = some '/') ∧ ¬(c = '/' ∧ t.head? = some '*') := by
  unfold opener at h
  refine ⟨?_, ?_⟩
  · rintro ⟨hc, ht⟩
    simp [hc, ht] at h
  · rintro ⟨hc, ht⟩
    simp [hc, ht] at h

/-- The mode behind a character of a literal. -/
def Mode.inside (q c : Char) : Mode := if c = q then .code else if c = '\\' then .escape q else .literal q

theorem inside_plain (q c : Char) : (Mode.inside q c).plain = .code := by
  unfold Mode.inside
  split
  · rfl
  · split <;> rfl

theorem opening_plain (b : Bool) (c : Char) : (if b = true then Mode.literal c else Mode.code).plain = .code := by
  cases b <;> rfl

theorem code_plain : Mode.code.plain = .code := rfl

/-- In a line whose literals have no comment opener, literals make no difference. -/
theorem strip_clean (t : Str) : ∀ (m : Mode), cleanLine m t = true → strip false m.plain t = strip true m t := by
  induction t with
  | nil =>
    intro m _
    cases m <;> rfl
  | cons c t ih =>
    intro m h
    cases m with
    | code =>
      rw [cleanLine] at h
      by_cases h1 : c = '/' ∧ t.head? = some '/'
      · simp only [Mode.plain, strip, if_pos h1]
      · rw [if_neg h1] at h
        by_cases h2 : c = '/' ∧ t.head? = some '*'
        · rw [if_pos h2] at h
          simp only [Mode.plain, strip, if_neg h1, if_pos h2]
          exact ih .enter h
        · rw [if_neg h2] at h
          have hrest := ih _ h
          rw [opening_plain] at hrest
          rw [code_plain, strip_other h1 h2, strip_code true h1 h2, Bool.true_and, hrest]
    | enter => exact ih (.block 2) h
    | block n =>
      rw [cleanLine] at h
      simp only [Mode.plain, strip]
      split
      · rename_i h1
        rw [if_pos h1] at h
        exact ih _ h
      · rename_i h1
        rw [if_neg h1] at h
        exact ih _ h
    | leave n =>
      have hrest := ih .code h
      simp only [Mode.plain, strip] at hrest ⊢
      rw [hrest]
    | literal q =>
      obtain ⟨ho, hclean⟩ := Bool.and_eq_true_iff.1 h
      have hnot : (!opener c t) = true := ho
      obtain ⟨h1, h2⟩ := not_opener ((Bool.not_eq_true' _).mp hnot)
      have hrest := ih (.inside q c) hclean
      rw [inside_plain] at hrest
      rw [Mode.plain, strip_other h1 h2, hrest]
      rfl
    | escape q =>
      obtain ⟨ho, hclean⟩ := Bool.and_eq_true_iff.1 h
      have hnot : (!opener c t) = true := ho
      obtain ⟨h1, h2⟩ := not_opener ((Bool.not_eq_true' _).mp hnot)
      have hrest := ih (.literal q) hclean
      rw [Mode.plain, strip_other h1 h2, strip, ← hrest]
      rfl

/-- A line that starts in a comment starts with a blank, or the comment is open at its end. -/
theorem strip_block (t : Str) : ∀ (n : ℕ), ((strip false (.block n) t).1 = [] ∧ (strip false (.block n) t).2 ≠ none) ∨
    ∃ y, (strip false (.block n) t).1 = ' ' :: y := by
  induction t with
  | nil => exact fun n => .inl ⟨rfl, nofun⟩
  | cons c t ih =>
    intro n
    rw [strip]
    split
    · rename_i h
      cases t with
      | nil => cases h.2
      | cons d t => exact .inr ⟨_, rfl⟩
    · exact ih (n + 1)

/-- What differs in a line that has a comment opener in a literal. -/
structure LineDiffers (a : Str) (kept blanked : Str × Option ℕ) : Prop where
  kept : ∃ x, kept.1 = a ++ '/' :: x
  blanked : (blanked.1 = a ∧ blanked.2 ≠ none) ∨ ∃ y, blanked.1 = a ++ ' ' :: y

theorem LineDiffers.cons {a : Str} {kept blanked : Str × Option ℕ} (c : Char) (h : LineDiffers a kept blanked) :
    LineDiffers (c :: a) (c :: kept.1, kept.2) (c :: blanked.1, blanked.2) := by
  obtain ⟨⟨x, hx⟩, hb⟩ := h
  refine ⟨⟨x, by rw [hx]; rfl⟩, ?_⟩
  rcases hb with ⟨hb, hopen⟩ | ⟨y, hy⟩
  · exact .inl ⟨by rw [hb], hopen⟩
  · exact .inr ⟨y, by rw [hy]; rfl⟩

/-- At a comment opener in a literal. -/
theorem opener_differs {c : Char} {t : Str} (h : opener c t = true) (kept : Str × Option ℕ) :
    LineDiffers [] (c :: kept.1, kept.2) (strip false .code (c :: t)) := by
  obtain ⟨hc, ht⟩ := Bool.and_eq_true_iff.1 h
  obtain rfl := of_decide_eq_true hc
  refine ⟨⟨kept.1, rfl⟩, ?_⟩
  cases t with
  | nil => cases ht
  | cons d t =>
    rcases Bool.or_eq_true_iff.1 ht with hd | hd
    · have hd := of_decide_eq_true hd
      rw [strip, if_pos ⟨rfl, hd⟩]
      exact .inr ⟨[], rfl⟩
    · have hd := of_decide_eq_true hd
      have hne : ¬(('/' : Char) = '/' ∧ (d :: t).head? = some '/') := by
        rw [hd]
        exact fun h => absurd (Option.some.inj h.2) (by decide)
      rw [strip, if_neg hne, if_pos ⟨rfl, hd⟩]
      exact strip_block t 2

theorem strip_unclean (t : Str) : ∀ (m : Mode), cleanLine m t = false →
    ∃ a, LineDiffers a (strip true m t) (strip false m.plain t) := by
  induction t with
  | nil =>
    intro m h
    cases m <;> cases h
  | cons c t ih =>
    intro m h
    cases m with
    | code =>
      rw [cleanLine] at h
      by_cases h1 : c = '/' ∧ t.head? = some '/'
      · rw [if_pos h1] at h
        cases h
      · rw [if_neg h1] at h
        by_cases h2 : c = '/' ∧ t.head? = some '*'
        · rw [if_pos h2] at h
          simp only [Mode.plain, strip, if_neg h1, if_pos h2]
          exact ih .enter h
        · rw [if_neg h2] at h
          obtain ⟨a, hrest⟩ := ih _ h
          rw [opening_plain] at hrest
          rw [code_plain, strip_other h1 h2, strip_code true h1 h2, Bool.true_and]
          exact ⟨c :: a, hrest.cons c⟩
    | enter => exact ih (.block 2) h
    | block n =>
      rw [cleanLine] at h
      simp only [Mode.plain, strip]
      split
      · rename_i h1
        rw [if_pos h1] at h
        exact ih _ h
      · rename_i h1
        rw [if_neg h1] at h
        exact ih _ h
    | leave n =>
      obtain ⟨a, ⟨x, hx⟩, hb⟩ := ih .code h
      simp only [Mode.plain, strip] at hb ⊢
      refine ⟨List.replicate n ' ' ++ a, ⟨x, by rw [hx, List.append_assoc]⟩, ?_⟩
      rcases hb with ⟨hb, hopen⟩ | ⟨y, hy⟩
      · exact .inl ⟨by rw [hb], hopen⟩
      · exact .inr ⟨y, by rw [hy, List.append_assoc]⟩
    | literal q =>
      cases ho : opener c t with
      | true => exact ⟨[], opener_differs ho _⟩
      | false =>
        obtain ⟨h1, h2⟩ := not_opener ho
        have hclean : cleanLine (.inside q c) t = false := by
          have hand : (!opener c t && cleanLine (.inside q c) t) = false := h
          rw [ho] at hand
          exact hand
        obtain ⟨a, hrest⟩ := ih _ hclean
        rw [inside_plain] at hrest
        rw [Mode.plain, strip_other h1 h2]
        exact ⟨c :: a, hrest.cons c⟩
    | escape q =>
      cases ho : opener c t with
      | true => exact ⟨[], opener_differs ho _⟩
      | false =>
        obtain ⟨h1, h2⟩ := not_opener ho
        have hclean : cleanLine (.literal q) t = false := by
          have hand : (!opener c t && cleanLine (.literal q) t) = false := h
          rw [ho] at hand
          exact hand
        obtain ⟨a, hrest⟩ := ih (.literal q) hclean
        rw [Mode.plain, strip_other h1 h2]
        exact ⟨c :: a, hrest.cons c⟩

/-! ## The file -/

theorem start_plain (m : Option ℕ) : (Mode.start m).plain = .start m := by
  cases m <;> rfl

/-- All lines, and the one that is left. -/
def allLines (r : List Str × Option (Str × Bool)) : List Str := r.1 ++ (r.2.map Prod.fst).toList

/-- A line with an open comment stays where it is. -/
theorem allLines_open (literals : Bool) (ls : List (Str × Bool)) : ∀ (acc : Str) (n : ℕ) (b : Bool), ∃ z rest,
    allLines (stripLines literals acc (some n) b ls) = (acc ++ z) :: rest := by
  induction ls with
  | nil => exact fun acc n b => ⟨[], [], by rw [List.append_nil]; rfl⟩
  | cons x ls ih =>
    intro acc n b
    obtain ⟨l, f⟩ := x
    rw [stripLines]
    rcases strip literals (.start (some n)) l with ⟨o, _ | k⟩
    · exact ⟨o, _, rfl⟩
    · obtain ⟨z, rest, h⟩ := ih (acc ++ o) k (b || f)
      refine ⟨o ++ z, rest, ?_⟩
      rw [← List.append_assoc]
      exact h

/-- Behind an open comment the line goes on with a blank, or is not delivered. -/
theorem stripLines_open (ls : List (Str × Bool)) : ∀ (acc : Str) (n : ℕ) (b : Bool),
    (stripLines false acc (some n) b ls).1 = [] ∨ ∃ z rest,
      (stripLines false acc (some n) b ls).1 = (acc ++ ' ' :: z) :: rest := by
  induction ls with
  | nil => exact fun acc n b => .inl rfl
  | cons x ls ih =>
    intro acc n b
    obtain ⟨l, f⟩ := x
    have hblock := strip_block l n
    rw [stripLines]
    change (strip false (.start (some n)) l).1 = [] ∧ (strip false (.start (some n)) l).2 ≠ none ∨
      ∃ y, (strip false (.start (some n)) l).1 = ' ' :: y at hblock
    rcases hs : strip false (.start (some n)) l with ⟨o, _ | k⟩
    · rw [hs] at hblock
      rcases hblock with ⟨-, hopen⟩ | ⟨y, rfl⟩
      · exact absurd rfl hopen
      · exact .inr ⟨y, _, rfl⟩
    · rw [hs] at hblock
      dsimp only at hblock ⊢
      rcases ih (acc ++ o) k (b || f) with h | ⟨z, rest, h⟩
      · exact .inl h
      · rcases hblock with ⟨rfl, -⟩ | ⟨y, rfl⟩
        · rw [List.append_nil] at h
          exact .inr ⟨z, rest, by rw [List.append_nil, h]⟩
        · exact .inr ⟨y ++ ' ' :: z, rest, by rw [h, List.append_assoc]; rfl⟩

theorem stripLines_clean (ls : List (Str × Bool)) : ∀ (acc : Str) (m : Option ℕ) (b : Bool), CleanLines m ls →
    stripLines true acc m b ls = stripLines false acc m b ls := by
  induction ls with
  | nil => exact fun acc m b _ => rfl
  | cons x ls ih =>
    intro acc m b h
    obtain ⟨l, f⟩ := x
    obtain ⟨hline, hrest⟩ := h
    have hsame := strip_clean l _ hline
    rw [start_plain] at hsame
    rw [stripLines, stripLines, hsame]
    rcases hs : strip true (.start m) l with ⟨o, _ | n⟩
    · rw [hs] at hrest
      dsimp only
      rw [ih _ _ _ hrest]
    · rw [hs] at hrest
      exact ih _ _ _ hrest

/-- The first line that has a comment opener in a literal is not delivered as it should be. -/
theorem stripLines_differ (ls : List (Str × Bool)) : ∀ (acc : Str) (m : Option ℕ) (b : Bool), ¬CleanLines m ls →
    ∃ pre a x rest, allLines (stripLines true acc m b ls) = pre ++ (a ++ '/' :: x) :: rest ∧
      ((stripLines false acc m b ls).1 = pre ∨ ∃ y rest',
        (stripLines false acc m b ls).1 = pre ++ (a ++ ' ' :: y) :: rest') := by
  induction ls with
  | nil => exact fun acc m b h => absurd trivial h
  | cons x ls ih =>
    intro acc m b h
    obtain ⟨l, f⟩ := x
    rw [stripLines, stripLines]
    cases hline : cleanLine (.start m) l with
    | true =>
      have hsame := strip_clean l _ hline
      rw [start_plain] at hsame
      have hrest : ¬CleanLines (strip true (.start m) l).2 ls := fun hrest => h ⟨hline, hrest⟩
      rw [hsame]
      rcases hs : strip true (.start m) l with ⟨o, _ | n⟩
      · rw [hs] at hrest
        obtain ⟨pre, a, x, rest, hall, hcode⟩ := ih [] none false hrest
        refine ⟨(acc ++ o) :: pre, a, x, rest, congrArg _ hall, ?_⟩
        rcases hcode with hcode | ⟨y, rest', hcode⟩
        · exact .inl (congrArg _ hcode)
        · exact .inr ⟨y, rest', congrArg _ hcode⟩
      · rw [hs] at hrest
        exact ih _ _ _ hrest
    | false =>
      obtain ⟨a, ⟨x, hx⟩, hcode⟩ := strip_unclean l _ hline
      rw [start_plain] at hcode
      have hall : ∃ x rest, allLines (match strip true (.start m) l with
          | (o, none) => ((acc ++ o) :: (stripLines true [] none false ls).1, (stripLines true [] none false ls).2)
          | (o, some n) => stripLines true (acc ++ o) (some n) (b || f) ls) = (acc ++ a ++ '/' :: x) :: rest := by
        rcases hs : strip true (.start m) l with ⟨o, _ | n⟩
        · rw [hs] at hx
          dsimp only at hx
          exact ⟨x, _, by rw [hx, List.append_assoc]; rfl⟩
        · rw [hs] at hx
          dsimp only at hx
          obtain ⟨z, rest, h⟩ := allLines_open true ls (acc ++ o) n (b || f)
          refine ⟨x ++ z, rest, ?_⟩
          rw [h, hx, List.append_assoc, List.append_assoc, List.append_assoc]
          rfl
      obtain ⟨x', rest, hall⟩ := hall
      refine ⟨[], acc ++ a, x', rest, hall, ?_⟩
      rcases hs : strip false (.start m) l with ⟨o, _ | n⟩
      · rw [hs] at hcode
        rcases hcode with ⟨-, hopen⟩ | ⟨y, rfl⟩
        · exact absurd rfl hopen
        · exact .inr ⟨y, _, by rw [List.append_assoc]; rfl⟩
      · rw [hs] at hcode
        dsimp only at hcode ⊢
        rcases stripLines_open ls (acc ++ o) n (b || f) with h | ⟨z, rest', h⟩
        · exact .inl h
        · rcases hcode with ⟨rfl, -⟩ | ⟨y, rfl⟩
          · exact .inr ⟨z, rest', h⟩
          · exact .inr ⟨y ++ ' ' :: z, rest', by rw [h, List.append_assoc, List.append_assoc, List.append_assoc]; rfl⟩

/-- A line that has a comment opener in a literal is changed, so the lines differ. -/
theorem not_clean_differs {file : Str} {lines : List Str} (hclean : ¬CleanLines none (logicalLines file))
    (hlines : (stripLines false [] none false (logicalLines file)).1 = lines) :
    ¬(expected file = lines ∨ ∃ l, Blank l ∧ expected file = lines ++ [l]) := by
  obtain ⟨pre, a, x, rest, hall, hcode⟩ := stripLines_differ _ [] none false hclean
  have hexpected : expected file = pre ++ (a ++ '/' :: x) :: rest := hall
  have hne : ∀ {x y : Str}, a ++ '/' :: x ≠ a ++ ' ' :: y := by
    intro x y h
    have hhead := List.cons.inj (List.append_cancel_left h)
    exact absurd hhead.1 (by decide)
  rw [hlines] at hcode
  rw [hexpected]
  rcases hcode with rfl | ⟨y, rest', rfl⟩
  · rintro (h | ⟨l, hblank, h⟩)
    · have := List.append_cancel_left (h.trans (List.append_nil _).symm)
      cases this
    · obtain ⟨rfl, -⟩ := List.cons.inj (List.append_cancel_left h)
      rcases hblank '/' (List.mem_append_right _ List.mem_cons_self) with hc | hc
      · exact absurd hc (by decide)
      · exact absurd hc (by decide)
  · rintro (h | ⟨l, -, h⟩)
    · exact hne (List.cons.inj (List.append_cancel_left h)).1
    · rw [List.append_assoc] at h
      exact hne (List.cons.inj (List.append_cancel_left h)).1

/-- **When the comments are stripped.** No literal has a comment opener, and the file does not end in a comment that has
anything else on its line, or a continuation. -/
theorem strips_exactly_iff (file : Str) :
    StripsExactly file ↔ CleanLines none (logicalLines file) ∧ EndsOutside file := by
  refine ⟨?_, ?_⟩
  · rintro ⟨lines, hdelivers, hexpected⟩
    obtain ⟨hlines, hfinite⟩ := delivers_iff.1 hdelivers
    have hclean : CleanLines none (logicalLines file) := by
      apply Classical.byContradiction
      exact fun hclean => not_clean_differs hclean hlines hexpected
    refine ⟨hclean, fun l b hl => ?_⟩
    have hsame := stripLines_clean _ [] none false hclean
    rw [hsame] at hl
    refine ⟨hfinite l b hl, ?_⟩
    have hall : expected file = lines ++ [l] := by
      rw [expected, hsame, hl, hlines]
      rfl
    rw [hall] at hexpected
    rcases hexpected with h | ⟨l', hblank, h⟩
    · have := List.append_cancel_left (h.trans (List.append_nil _).symm)
      cases this
    · obtain ⟨rfl, -⟩ := List.cons.inj (List.append_cancel_left h)
      exact hblank
  · rintro ⟨hclean, hends⟩
    have hsame := stripLines_clean _ [] none false hclean
    refine ⟨_, delivers_iff.2 ⟨rfl, fun l b hl => (hends l b (by rw [hsame]; exact hl)).1⟩, ?_⟩
    cases hleft : (stripLines false [] none false (logicalLines file)).2 with
    | none =>
      refine .inl ?_
      rw [expected, hsame, hleft]
      exact List.append_nil _
    | some x =>
      obtain ⟨l, b⟩ := x
      refine .inr ⟨l, (hends l b (by rw [hsame]; exact hleft)).2, ?_⟩
      rw [expected, hsame, hleft]
      rfl

/-- A file that ends in a comment behind a backslash is read without end, and a literal with a comment opener is cut. -/
theorem open_comment_and_literal :
    ¬StripsExactly ['/', '*', '\\'] ∧ ¬StripsExactly ['"', '/', '/', '"'] := by
  refine ⟨?_, ?_⟩
  · rintro ⟨lines, hdelivers, -⟩
    have hends := (delivers_iff.1 hdelivers).2 [] true rfl
    cases hends
  · rintro ⟨lines, hdelivers, hexpected⟩
    refine not_clean_differs ?_ (delivers_iff.1 hdelivers).1 hexpected
    rintro ⟨hline, -⟩
    cases hline

end OpenHT.Htl.Strip
