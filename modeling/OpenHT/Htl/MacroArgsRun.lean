import Mathlib.Data.List.TakeWhile
import OpenHT.Htl.StripSound
import OpenHT.Htl.MacroBreaks

/-!
# The scan of the arguments of a macro

* `append_line`: the call that appends a line without comments.
* `scanArg_spec`, `scanArgs_spec`: the scan reads the arguments as `lines` says.
* `scanArg_end`: a scan that needs a line behind the text of the invocation takes one of the file.
* `breaks_exact`: when an invocation over several lines has the expansion of the joined text.
-/

namespace OpenHT.Htl.MacroArgs

open Strip (Str getLineFromFile readLines scan getLineWithCommentsStripped CallState CallResult NoSlash strip Mode)

/-! ## The next line -/

attribute [local simp] scanArgs

theorem strip_noComment (t : Str) (h : noComment t = true) : strip false .code t = (t, none) := by
  induction t with
  | nil => rfl
  | cons c t ih =>
    obtain ⟨hopener, ht⟩ := Bool.and_eq_true_iff.1 h
    obtain ⟨h1, h2⟩ := Strip.not_opener ((Bool.not_eq_true' _).mp hopener)
    rw [Strip.strip_other h1 h2, ih ht]

theorem noComment_left {a b : Str} (h : noComment (a ++ b) = true) : noComment a = true := by
  induction a with
  | nil => rfl
  | cons c a ih =>
    obtain ⟨hopener, hrest⟩ := Bool.and_eq_true_iff.1 h
    refine Bool.and_eq_true_iff.2 ⟨?_, ih hrest⟩
    cases a with
    | nil =>
      unfold Strip.opener
      simp
    | cons d a => exact hopener

/-- **The line that is appended**, if there is no comment in all of it. -/
theorem append_line {file file' buf l : Str} (hfile : getLineFromFile file = some (l, file'))
    (hcomment : noComment (buf ++ l) = true) (hbuf : NoSlash buf) (hl : NoSlash l) (n : ℕ) :
    getLineWithCommentsStripped (n + 1) ⟨file, buf, 0, 0, true, false⟩ = some (.line file' (buf ++ l)) := by
  have hslash : Strip.endsInBackslash (buf ++ l) = false := Strip.noSlash_append hbuf hl
  have hread : readLines (n + 1) file buf true false = some (.line file' (buf ++ l) true) := by
    simp only [readLines, hfile, Bool.true_or, if_true, hslash, Bool.false_eq_true, if_false]
  have hfound := Strip.scan_spec false [] [] (buf ++ l) (fun _ => rfl)
  have hopen := hfound.isOpen
  have hline := hfound.line
  rw [Mode.at_false, strip_noComment _ hcomment] at hopen hline
  dsimp only [List.nil_append] at hline
  rw [getLineWithCommentsStripped]
  simp only [hread, List.take_zero, List.drop_zero, Bool.false_eq_true, if_false, hopen, hline, Option.isSome_none]

theorem getLineFromFile_length {file l file' : Str} (h : getLineFromFile file = some (l, file')) :
    file'.length < file.length := by
  cases file with
  | nil => cases h
  | cons c t =>
    obtain ⟨-, rfl⟩ := Prod.mk.inj (Option.some.inj h)
    have hle := dropWhile_length_le (fun c => decide (c ≠ '\n')) (c :: t)
    rw [List.length_tail]
    have : 0 < (c :: t).length := Nat.succ_pos _
    omega

/-- The file is read on, or there is nothing more on the line. -/
def ReadOn (file buf file' buf' : Str) : Prop :=
  file'.length < file.length ∨ (file' = file ∧ buf'.length ≤ buf.length)

theorem readLines_readOn : ∀ {n : ℕ} {file buf file' buf' : Str} {b bInComment b' : Bool},
    readLines n file buf b bInComment = some (.line file' buf' b') → ReadOn file buf file' buf' := by
  intro n
  induction n with
  | zero =>
    intro file buf file' buf' b bInComment b' h
    cases h
  | succ n ih =>
    intro file buf file' buf' b bInComment b' h
    rw [readLines] at h
    cases hfile : getLineFromFile file with
    | none =>
      rw [hfile] at h
      dsimp only at h
      by_cases hb : b = true
      · rw [if_pos hb] at h
        split at h
        · rcases ih h with hlt | ⟨heq, hle⟩
          · exact .inl hlt
          · refine .inr ⟨heq, ?_⟩
            rw [List.length_dropLast] at hle
            omega
        · obtain ⟨rfl, rfl, -⟩ := Strip.ReadResult.line.inj (Option.some.inj h)
          exact .inr ⟨rfl, Nat.le_refl _⟩
      · rw [if_neg hb] at h
        cases h
    | some r =>
      obtain ⟨l, file1⟩ := r
      have hlt := getLineFromFile_length hfile
      rw [hfile] at h
      generalize hbuf : (if (b || bInComment) = true then buf else []) ++ l = buf1 at h
      dsimp only at h
      rw [hbuf] at h
      split at h
      · rcases ih h with hlt' | ⟨rfl, -⟩
        · exact .inl (by omega)
        · exact .inl hlt
      · obtain ⟨rfl, -, -⟩ := Strip.ReadResult.line.inj (Option.some.inj h)
        exact .inl hlt

theorem scan_length (b : Bool) (done comment t : Str) :
    (scan b done comment t).2.1.length + (scan b done comment t).2.2.length ≤
      done.length + comment.length + t.length := by
  fun_induction scan b done comment t <;> simp_all <;> omega

theorem getLine_readOn : ∀ {n : ℕ} {s : CallState} {file' buf' : Str},
    getLineWithCommentsStripped n s = some (.line file' buf') → ReadOn s.file s.lineBuf file' buf' := by
  intro n
  induction n with
  | zero =>
    intro s file' buf' h
    cases h
  | succ n ih =>
    intro s file' buf' h
    rw [getLineWithCommentsStripped] at h
    cases hread : readLines (n + 1) s.file s.lineBuf s.bContinue s.bInComment with
    | none =>
      rw [hread] at h
      cases h
    | some r =>
      rw [hread] at h
      cases r with
      | endOfFile => cases h
      | line file1 buf1 b1 =>
        have hon := readLines_readOn hread
        dsimp only at h
        -- the search does not make the line longer
        have hscan : ∀ r, r = (if s.bInComment then
              scan true ((buf1.take s.scanPos).take s.commentPos) ((buf1.take s.scanPos).drop s.commentPos)
                (buf1.drop s.scanPos)
            else scan false (buf1.take s.scanPos) [] (buf1.drop s.scanPos)) →
            r.2.1.length + r.2.2.length ≤ buf1.length := by
          have hlen : (buf1.take s.scanPos).length + (buf1.drop s.scanPos).length = buf1.length := by
            rw [← List.length_append, List.take_append_drop]
          have hlen' : ((buf1.take s.scanPos).take s.commentPos).length +
              ((buf1.take s.scanPos).drop s.commentPos).length = (buf1.take s.scanPos).length := by
            rw [← List.length_append, List.take_append_drop]
          rintro r rfl
          split
          · have := scan_length true ((buf1.take s.scanPos).take s.commentPos)
              ((buf1.take s.scanPos).drop s.commentPos) (buf1.drop s.scanPos)
            omega
          · have := scan_length false (buf1.take s.scanPos) [] (buf1.drop s.scanPos)
            rw [List.length_nil] at this
            omega
        generalize hr : (if s.bInComment then _ else _ : Bool × Str × Str) = r at h
        have hle := hscan r hr.symm
        split at h
        · rcases ih h with hlt | ⟨rfl, hle'⟩
          · rcases hon with hon | ⟨rfl, -⟩
            · exact .inl (Nat.lt_trans hlt hon)
            · exact .inl hlt
          · rcases hon with hon | ⟨heq, hon⟩
            · exact .inl hon
            · rw [List.length_append] at hle'
              exact .inr ⟨heq, by omega⟩
        · obtain ⟨rfl, rfl⟩ := CallResult.line.inj (Option.some.inj h)
          rcases hon with hon | ⟨heq, hon⟩
          · exact .inl hon
          · exact .inr ⟨heq, by omega⟩

/-! ## One argument -/

theorem charAt_cons (p t : Str) (c : Char) : charAt (p ++ c :: t) p.length = some c := by
  unfold charAt
  rw [List.append_assoc]
  simp

theorem charAt_end (p : Str) : charAt p p.length = some nul := by
  unfold charAt
  simp

theorem charAt_behind {p : Str} {pos : ℕ} (h : p.length < pos) : charAt p pos = none := by
  unfold charAt
  rw [List.getElem?_eq_none]
  rw [List.length_append, List.length_singleton]
  omega

variable {b : Bool}

theorem delimiter_iff {l : ℕ} {c : Char} : (l = 0 ∧ ((b = false ∧ c = ',') ∨ c = ')')) ↔
    (l = 0 ∧ delimiter b c = true) := by
  cases b <;> simp [delimiter]

theorem nul_not_delimiter : delimiter b nul = false := by
  cases b <;> decide

attribute [local simp] scanArg

theorem scanArg_stop {n : ℕ} {file p t : Str} {c : Char} (h : delimiter b c = true) :
    scanArg b (n + 1) file (p ++ c :: t) p.length 0 = some (.stop file (p ++ c :: t) p.length) := by
  rw [scanArg, charAt_cons]
  exact if_pos (delimiter_iff.2 ⟨rfl, h⟩)

theorem scanArg_char {n : ℕ} {file p t : Str} {c : Char} {l : ℕ} (hd : ¬(l = 0 ∧ delimiter b c = true)) (hc : c ≠ nul) :
    scanArg b (n + 1) file (p ++ c :: t) p.length l = scanArg b n file (p ++ c :: t) (p.length + 1) (depth c l) := by
  rw [scanArg, charAt_cons]
  dsimp only
  rw [if_neg (fun h => hd (delimiter_iff.1 h)), if_neg hc]
  rfl

theorem scanArg_nul {n : ℕ} {file p : Str} {l : ℕ} : scanArg b (n + 1) file p p.length l =
    match getLineWithCommentsStripped (n + 1) ⟨file, p, 0, 0, true, false⟩ with
    | none => none
    | some .endOfFile => scanArg b n file p (p.length + 1) l
    | some (.line file lineBuf) => scanArg b n file lineBuf (p.length + 1) l := by
  have hd : ¬(l = 0 ∧ ((b = false ∧ nul = ',') ∨ nul = ')')) := by
    intro h
    have hdelim := (delimiter_iff.1 h).2
    rw [nul_not_delimiter] at hdelim
    cases hdelim
  rw [scanArg, charAt_end]
  exact (if_neg hd).trans (if_pos rfl)

theorem scanArg_behind {n : ℕ} {file p : Str} {pos l : ℕ} (h : p.length < pos) :
    scanArg b (n + 1) file p pos l = some .overread := by
  rw [scanArg, charAt_behind h]

/-- The file is not read backwards. -/
theorem scanArg_file : ∀ {n : ℕ} {file buf file' buf' : Str} {p p' l : ℕ},
    scanArg b n file buf p l = some (.stop file' buf' p') → file'.length ≤ file.length := by
  intro n
  induction n with
  | zero =>
    intro file buf file' buf' p p' l h
    cases h
  | succ n ih =>
    intro file buf file' buf' p p' l h
    rw [scanArg] at h
    split at h
    · cases h
    · split at h
      · obtain ⟨rfl, -, -⟩ := ArgEnd.stop.inj (Option.some.inj h)
        exact Nat.le_refl _
      · split at h
        · split at h
          · cases h
          · exact ih h
          · rename_i hline
            have hle := ih h
            rcases getLine_readOn hline with hlt | ⟨heq, -⟩
            · exact Nat.le_of_lt (Nat.lt_of_le_of_lt hle hlt)
            · exact Nat.le_trans hle (Nat.le_of_eq (congrArg _ heq))
        · exact ih h

/-- At the end of the line the scan reads a line of the file, or behind the end. -/
theorem scanArg_end {n : ℕ} {file buf file' buf' : Str} {p' l : ℕ}
    (h : scanArg b n file buf buf.length l = some (.stop file' buf' p')) : file'.length < file.length := by
  have hbehind : ∀ {n : ℕ} {file1 buf1 : Str}, buf1.length ≤ buf.length →
      scanArg b n file1 buf1 (buf.length + 1) l ≠ some (.stop file' buf' p') := by
    intro n file1 buf1 hle h
    cases n with
    | zero => cases h
    | succ n =>
      rw [scanArg_behind (by omega)] at h
      cases h
  cases n with
  | zero => cases h
  | succ n =>
    rw [scanArg_nul] at h
    split at h
    · cases h
    · exact absurd h (hbehind (Nat.le_refl _))
    · rename_i hline
      rcases getLine_readOn hline with hlt | ⟨-, hle⟩
      · exact Nat.lt_of_le_of_lt (scanArg_file h) hlt
      · exact absurd h (hbehind hle)

theorem scanArg_mono : ∀ {n m : ℕ} {file buf : Str} {p l : ℕ} {r : ArgEnd}, n ≤ m →
    scanArg b n file buf p l = some r → scanArg b m file buf p l = some r := by
  intro n
  induction n with
  | zero =>
    intro m file buf p l r _ h
    cases h
  | succ n ih =>
    intro m file buf p l r hm h
    obtain ⟨m, rfl⟩ : ∃ k, m = k + 1 := ⟨m - 1, by omega⟩
    have hle : n ≤ m := by omega
    rw [scanArg] at h ⊢
    cases hc : charAt buf p with
    | none =>
      rw [hc] at h
      exact h
    | some c =>
      rw [hc] at h
      dsimp only at h ⊢
      split at h
      · rename_i hstop
        rw [if_pos hstop]
        exact h
      · rename_i hstop
        rw [if_neg hstop]
        split at h
        · rename_i hnul
          rw [if_pos hnul]
          cases hline : getLineWithCommentsStripped (n + 1) ⟨file, buf, 0, 0, true, false⟩ with
          | none =>
            rw [hline] at h
            cases h
          | some r' =>
            rw [Strip.getLine_mono (by omega) hline]
            rw [hline] at h
            cases r' with
            | endOfFile => exact ih hle h
            | line file1 buf1 => exact ih hle h
        · rename_i hnul
          rw [if_neg hnul]
          exact ih hle h

/-- How an argument ends in one line. -/
inductive ArgLine
  | stop (arg : Str) (d : Char) (rest : Str)
  | ends (arg : Str) (parenLvl : ℕ)

def argLine (b : Bool) : Str → ℕ → Str → ArgLine
  | x, l, [] => .ends x l
  | x, l, c :: t => if l = 0 ∧ delimiter b c then .stop x c t else argLine b (x ++ [c]) (depth c l) t

/-- How an argument ends over several lines. -/
inductive ArgLines
  | stop (arg : Str) (d : Char) (rest : Str) (ls : List Str)
  | overread
  | beyond

def argLines (b : Bool) : ArgLine → List Str → ArgLines
  | .stop x d r, ls => .stop x d r ls
  | .ends _ _, [] => .beyond
  | .ends _ _, [] :: _ => .overread
  | .ends x l, (c :: t) :: ls => argLines b (argLine b (x ++ [c]) l t) ls

/-- What the scan is asked to be like at the end of an argument. -/
def ArgSpec (b : Bool) (file p x t rest : Str) (l : ℕ) (ls : List Str) : ArgLines → Prop
  | .stop y d r ls' => ∃ file', Lines file' ls' rest ∧ delimiter b d = true ∧
      x ++ t ++ ls.flatten = y ++ d :: r ++ ls'.flatten ∧ ls' <:+ ls ∧ (ls' ≠ [] → NoSlash (p ++ y ++ d :: r)) ∧
      Fuel.Returns (fun n => scanArg b n file (p ++ x ++ t) (p ++ x).length l)
        (.stop file' (p ++ y ++ d :: r) (p ++ y).length)
  | .overread => Fuel.Returns (fun n => scanArg b n file (p ++ x ++ t) (p ++ x).length l) .overread
  | .beyond => ∀ n file' buf' p', scanArg b n file (p ++ x ++ t) (p ++ x).length l = some (.stop file' buf' p') →
      file'.length < rest.length

/-- What is asked of the lines: no comment and no continuation where a line is appended. -/
structure Plain (buf : Str) (ls : List Str) : Prop where
  comment : ls ≠ [] → noComment (buf ++ ls.flatten) = true
  slash : ls ≠ [] → NoSlash buf
  lines : ∀ l ∈ ls, NoSlash l

/-- A step of the scan. -/
theorem ArgSpec.step {file file' p x x' t t' rest : Str} {l l' : ℕ} {ls ls' : List Str} {r : ArgLines}
    (hstep : ∀ n, scanArg b (n + 1) file (p ++ x ++ t) (p ++ x).length l =
      scanArg b n file' (p ++ x' ++ t') (p ++ x').length l')
    (hstream : x ++ t ++ ls.flatten = x' ++ t' ++ ls'.flatten) (hsuffix : ls' <:+ ls)
    (h : ArgSpec b file' p x' t' rest l' ls' r) : ArgSpec b file p x t rest l ls r := by
  cases r with
  | stop y d r ls'' =>
    obtain ⟨file'', hlines, hdelim, hstream', hsuffix', hslash, hreturns⟩ := h
    exact ⟨file'', hlines, hdelim, hstream.trans hstream', hsuffix'.trans hsuffix, hslash, hreturns.succ hstep⟩
  | overread => exact Fuel.Returns.succ hstep h
  | beyond =>
    intro n file'' buf' p' hscan
    cases n with
    | zero => cases hscan
    | succ n =>
      rw [hstep] at hscan
      exact h n file'' buf' p' hscan

theorem argLines_stop (x r : Str) (d : Char) (ls : List Str) : argLines b (.stop x d r) ls = .stop x d r ls := by
  cases ls <;> rfl

theorem ArgSpec.char {file p x t rest : Str} {c : Char} {l : ℕ} {ls : List Str} (hc : c ≠ nul)
    (hlines : Lines file ls rest) (hplain : Plain (p ++ x ++ c :: t) ls)
    (h : ArgSpec b file p (x ++ [c]) t rest (depth c l) ls (argLines b (argLine b (x ++ [c]) (depth c l) t) ls)) :
    ArgSpec b file p x (c :: t) rest l ls (argLines b (argLine b x l (c :: t)) ls) := by
  by_cases hd : l = 0 ∧ delimiter b c = true
  · rw [argLine, if_pos hd, argLines_stop]
    obtain ⟨rfl, hdelim⟩ := hd
    refine ⟨file, hlines, hdelim, rfl, List.suffix_refl _, hplain.slash, ?_⟩
    exact Fuel.Returns.succ (fun n => scanArg_stop hdelim) (Fuel.Returns.const _)
  · rw [argLine, if_neg hd]
    refine h.step (fun n => ?_) (by simp) (List.suffix_refl _)
    have hbuf : p ++ (x ++ [c]) ++ t = p ++ x ++ c :: t := by simp
    have hpos : (p ++ (x ++ [c])).length = (p ++ x).length + 1 := by
      rw [← List.append_assoc, List.length_append, List.length_singleton]
    rw [scanArg_char hd hc, hbuf, hpos]

/-- **One argument.** -/
theorem scanArg_spec {rest : Str} (ls : List Str) : ∀ (t p x file : Str) (l : ℕ), Lines file ls rest →
    (∀ c ∈ t ++ ls.flatten, c ≠ nul) → Plain (p ++ x ++ t) ls →
      ArgSpec b file p x t rest l ls (argLines b (argLine b x l t) ls) := by
  induction ls with
  | nil =>
    intro t
    induction t with
    | nil =>
      intro p x file l hlines _ _
      obtain rfl : file = rest := hlines
      intro n file' buf' p' h
      rw [List.append_nil] at h
      exact scanArg_end h
    | cons c t iht =>
      intro p x file l hlines hnul hplain
      refine ArgSpec.char (hnul c List.mem_cons_self) hlines hplain ?_
      refine iht p (x ++ [c]) file _ hlines (fun d hd => hnul d (List.mem_cons_of_mem c hd)) ?_
      exact ⟨fun h => absurd rfl h, fun h => absurd rfl h, fun _ h => nomatch h⟩
  | cons l' ls ih =>
    intro t
    induction t with
    | nil =>
      intro p x file l hlines hnul hplain
      obtain ⟨file', hfile, hlines'⟩ := hlines
      have hne : l' :: ls ≠ [] := List.cons_ne_nil _ _
      have hcomment := hplain.comment hne
      have hslash := hplain.slash hne
      have hl' := hplain.lines l' List.mem_cons_self
      rw [List.append_nil] at hcomment hslash
      have happend : ∀ n, scanArg b (n + 1) file (p ++ x ++ []) (p ++ x).length l =
          scanArg b n file' (p ++ x ++ l') ((p ++ x).length + 1) l := by
        intro n
        have hline : noComment (p ++ x ++ l') = true := by
          refine noComment_left (b := ls.flatten) ?_
          rw [List.append_assoc]
          exact hcomment
        rw [List.append_nil, scanArg_nul, append_line hfile hline hslash hl']
      cases l' with
      | nil =>
        refine Fuel.Returns.succ happend (Fuel.Returns.succ (fun n => scanArg_behind ?_) (Fuel.Returns.const _))
        rw [List.append_nil]
        exact Nat.lt_succ_self _
      | cons c t =>
        have hbuf : p ++ (x ++ [c]) ++ t = p ++ x ++ c :: t := by simp
        have hpos : (p ++ (x ++ [c])).length = (p ++ x).length + 1 := by
          rw [← List.append_assoc, List.length_append, List.length_singleton]
        refine (ih t p (x ++ [c]) file' l hlines' (fun d hd => hnul d (List.mem_cons_of_mem c hd)) ?_).step
          (fun n => ?_) (by simp) (List.suffix_cons _ _)
        · rw [hbuf]
          refine ⟨fun _ => ?_, fun _ => Strip.noSlash_append hslash hl', fun l hl => ?_⟩
          · rw [List.append_assoc]
            exact hcomment
          · exact hplain.lines l (List.mem_cons_of_mem _ hl)
        · rw [happend, hbuf, hpos]
    | cons c t iht =>
      intro p x file l hlines hnul hplain
      refine ArgSpec.char (hnul c List.mem_cons_self) hlines hplain ?_
      refine iht p (x ++ [c]) file _ hlines (fun d hd => hnul d (List.mem_cons_of_mem c hd)) ?_
      have hbuf : p ++ (x ++ [c]) ++ t = p ++ x ++ c :: t := by simp
      rw [hbuf]
      exact hplain

/-! ## All arguments -/

theorem skipSpace_eq (p t : Str) : skipSpace (p ++ t) p.length = (p ++ t.takeWhile isBlank).length := by
  unfold skipSpace
  rw [List.drop_left' rfl, List.length_append]

/-- The spaces at the end of an argument, before a character that is no tab. -/
theorem trimArg_eq (p y : Str) : ∀ {d : Char} {r : Str}, d ≠ '\t' →
    trimArg (p ++ y ++ d :: r) p.length (p ++ y).length = (p ++ trimmed y).length := by
  induction y using List.reverseRecOn with
  | nil =>
    intro d r _
    have hnil : trimmed [] = [] := rfl
    rw [List.append_nil, hnil, List.append_nil]
    cases hp : p.length with
    | zero => rfl
    | succ n =>
      rw [trimArg, if_neg]
      omega
  | append_singleton y c ih =>
    intro d r hd
    have hlen : (p ++ (y ++ [c])).length = (p ++ y).length + 1 := by
      rw [← List.append_assoc, List.length_append, List.length_singleton]
    have hbuf : p ++ (y ++ [c]) ++ d :: r = p ++ y ++ c :: (d :: r) := by simp
    have hlt : p.length < (p ++ y).length + 1 := by
      rw [List.length_append]
      omega
    rw [hlen, hbuf, trimArg, charAt_cons]
    have hnext : charAt (p ++ y ++ c :: (d :: r)) ((p ++ y).length + 1) = some d := by
      have := charAt_cons (p ++ y ++ [c]) r d
      rw [List.length_append, List.length_singleton, List.append_assoc] at this
      exact this
    rw [hnext]
    by_cases hc : c = ' '
    · subst hc
      rw [if_pos ⟨hlt, .inl rfl⟩, trimmed_concat_space]
      exact ih (by decide)
    · rw [if_neg, trimmed_concat hc, hlen]
      rintro ⟨-, h | h⟩
      · exact hc (Option.some.inj h)
      · exact hd (Option.some.inj h)

theorem line_drop {v : ℕ → Bool} {args : List Str} (t : Str) :
    line v args .start t = line v args .start (t.dropWhile isBlank) := by
  induction t with
  | nil => rfl
  | cons c t ih =>
    cases hc : isBlank c with
    | true =>
      rw [line_blank t hc, List.dropWhile_cons_of_pos hc]
      exact ih
    | false => rw [List.dropWhile_cons_of_neg (by rw [hc]; exact Bool.false_ne_true)]

/-- Behind the blanks the scan is in an argument. -/
theorem lines_start {v : ℕ → Bool} {args ls : List Str} (t : Str) :
    lines v (line v args .start t) ls = lines v (line v args (.inside [] 0) (t.dropWhile isBlank)) ls := by
  rw [line_drop]
  cases ht : t.dropWhile isBlank with
  | nil =>
    cases ls with
    | nil => rfl
    | cons l ls => cases l <;> rfl
  | cons c t' =>
    have hc : isBlank c = false := by
      have := List.head?_dropWhile_not isBlank t
      rw [ht] at this
      simpa using this
    have hblank : ¬(At.start.isStart && isBlank c) = true := by
      rw [hc]
      exact Bool.false_ne_true
    have hsame : line v args .start (c :: t') = line v args (.inside [] 0) (c :: t') := by
      rw [line, line, if_neg hblank]
      rfl
    rw [hsame]

/-- What follows an argument. -/
def resume (v : ℕ → Bool) (args : List Str) : ArgLines → LinesEnd
  | .stop y d r ls => lines v (if d = ')' then .found (push args y) r else line v (push args y) .start r) ls
  | .overread => .overread
  | .beyond => .beyond

theorem resume_cons {v : ℕ → Bool} {args ls : List Str} {x : Str} {l : ℕ} {c : Char} {t : Str}
    (ih : ∀ {x : Str} {l : ℕ}, lines v (line v args (.inside x l) t) ls =
      resume v args (argLines (v args.length) (argLine (v args.length) x l t) ls)) :
    lines v (line v args (.inside x l) (c :: t)) ls =
      resume v args (argLines (v args.length) (argLine (v args.length) x l (c :: t)) ls) := by
  by_cases hd : l = 0 ∧ delimiter (v args.length) c = true
  · rw [@line_delimiter v args (.inside x l) c t hd.1 hd.2, argLine, if_pos hd, argLines_stop]
    rfl
  · rw [line_inside t hd, argLine, if_neg hd]
    exact ih

/-- One argument after the other. -/
theorem lines_inside {v : ℕ → Bool} {args : List Str} (ls : List Str) : ∀ (t : Str) {x : Str} {l : ℕ},
    lines v (line v args (.inside x l) t) ls =
      resume v args (argLines (v args.length) (argLine (v args.length) x l t) ls) := by
  induction ls with
  | nil =>
    intro t
    induction t with
    | nil => exact rfl
    | cons c t iht => exact resume_cons iht
  | cons l' ls ih =>
    intro t
    induction t with
    | nil =>
      intro x l
      cases l' with
      | nil => rfl
      | cons c t => exact ih t
    | cons c t iht => exact resume_cons iht

variable {tool : Tool} {params : ParamList}

/-- Behind an argument the file is not read backwards. -/
theorem scanArgs_after {n : ℕ} {file buf file' buf' file1 buf1 : Str} {p p' p1 : ℕ} {args args' : List Str}
    (ih : ∀ {file buf : Str} {p : ℕ} {args : List Str}, scanArgs tool params n file buf p args =
      some (.args file' buf' p' args') → file'.length ≤ file.length)
    (hscan : scanArg (isVariadicArg tool params args.length) (n + 1) file buf (skipSpace buf p) 0 =
      some (.stop file1 buf1 p1))
    (h : scanArgs tool params (n + 1) file buf p args = some (.args file' buf' p' args')) :
    file'.length ≤ file1.length := by
  rw [scanArgs, hscan] at h
  dsimp only at h
  split at h
  · cases h
  · split at h
    · exact ih h
    · split at h
      · obtain ⟨rfl, -⟩ := ArgsEnd.args.inj (Option.some.inj h)
        exact Nat.le_refl _
      · cases h

/-- The scan of the arguments starts with that of one. -/
theorem scanArgs_first {n : ℕ} {file buf file' buf' : Str} {p p' : ℕ} {args args' : List Str}
    (h : scanArgs tool params (n + 1) file buf p args = some (.args file' buf' p' args')) : ∃ file1 buf1 p1,
      scanArg (isVariadicArg tool params args.length) (n + 1) file buf (skipSpace buf p) 0 =
        some (.stop file1 buf1 p1) := by
  rw [scanArgs] at h
  cases hscan : scanArg (isVariadicArg tool params args.length) (n + 1) file buf (skipSpace buf p) 0 with
  | none =>
    rw [hscan] at h
    cases h
  | some r =>
    rw [hscan] at h
    cases r with
    | overread => cases h
    | stop file1 buf1 p1 => exact ⟨file1, buf1, p1, rfl⟩

theorem scanArgs_file : ∀ {n : ℕ} {file buf file' buf' : Str} {p p' : ℕ} {args args' : List Str},
    scanArgs tool params n file buf p args = some (.args file' buf' p' args') → file'.length ≤ file.length := by
  intro n
  induction n with
  | zero =>
    intro file buf file' buf' p p' args args' h
    cases h
  | succ n ih =>
    intro file buf file' buf' p p' args args' h
    obtain ⟨file1, buf1, p1, hscan⟩ := scanArgs_first h
    exact Nat.le_trans (scanArgs_after ih hscan h) (scanArg_file hscan)

theorem delimiter_cases {d : Char} (h : delimiter b d = true) : d = ',' ∨ d = ')' := by
  rcases Bool.or_eq_true_iff.1 h with h | h
  · exact .inl (of_decide_eq_true (Bool.and_eq_true_iff.1 h).2)
  · exact .inr (of_decide_eq_true h)

theorem delimiter_not_blank {d : Char} (h : delimiter b d = true) : isBlank d = false := by
  cases hblank : isBlank d with
  | false => rfl
  | true =>
    rw [not_delimiter_blank hblank] at h
    cases h

theorem skipSpace_spaces {p z : Str} (hz : AllSpace z) {d : Char} (hd : isBlank d = false) (r : Str) :
    skipSpace (p ++ (z ++ d :: r)) p.length = (p ++ z).length := by
  have htake : (z ++ d :: r).takeWhile isBlank = z := by
    induction z with
    | nil => simp [hd]
    | cons c z ih =>
      obtain ⟨rfl, hrest⟩ := allSpace_cons.1 hz
      have hblank : isBlank ' ' = true := rfl
      rw [List.cons_append, List.takeWhile_cons_of_pos hblank, ih hrest]
  rw [skipSpace_eq, htake]

/-- **Behind an argument.** Its spaces are cut off, and the scan goes on behind the delimiter. -/
theorem scanArgs_stop {n : ℕ} {file file' buf p y r : Str} {pos : ℕ} {args : List Str} {d : Char}
    (hscan : scanArg (isVariadicArg tool params args.length) (n + 1) file buf (skipSpace buf pos) 0 =
      some (.stop file' (p ++ y ++ d :: r) (p ++ y).length))
    (hstart : skipSpace buf pos = p.length) (hd : delimiter (isVariadicArg tool params args.length) d = true) :
    scanArgs tool params (n + 1) file buf pos args =
      if d = ')' then some (.args file' (p ++ y ++ d :: r) ((p ++ y).length + 1) (push args y))
      else scanArgs tool params n file' (p ++ y ++ d :: r) (skipSpace (p ++ y ++ d :: r) ((p ++ y).length + 1))
        (push args y) := by
  obtain ⟨z, hz, hspace⟩ := trimmed_split y
  have hblank := delimiter_not_blank hd
  have hbuf : p ++ y ++ d :: r = p ++ trimmed y ++ (z ++ d :: r) := by
    rw [← List.append_assoc, List.append_assoc p (trimmed y) z, ← hz]
  have htab : d ≠ '\t' := by
    rintro rfl
    cases hblank
  have htrim := @trimArg_eq p y d r htab
  have hskip : skipSpace (p ++ y ++ d :: r) (p ++ trimmed y).length = (p ++ y).length := by
    rw [hbuf, skipSpace_spaces hspace hblank, List.append_assoc, ← hz]
  have hend : charAt (p ++ y ++ d :: r) (p ++ y).length = some d := charAt_cons _ _ _
  -- there is a space or the delimiter behind the argument
  have hnul : charAt (p ++ y ++ d :: r) (p ++ trimmed y).length ≠ some nul := by
    rw [hbuf]
    cases z with
    | nil =>
      rw [List.nil_append, charAt_cons]
      intro h
      rw [Option.some.inj h, nul_not_delimiter] at hd
      cases hd
    | cons c z =>
      obtain ⟨rfl, -⟩ := allSpace_cons.1 hspace
      rw [List.cons_append, charAt_cons]
      exact fun h => absurd (Option.some.inj h) (by decide)
  have hpush : (if (p ++ trimmed y).length = p.length then args
      else args ++ [((p ++ y ++ d :: r).take (p ++ trimmed y).length).drop p.length]) = push args y := by
    have hsub : ((p ++ y ++ d :: r).take (p ++ trimmed y).length).drop p.length = trimmed y := by
      rw [hbuf, List.take_left' rfl, List.drop_left' rfl]
    rw [hsub, push]
    by_cases ht : trimmed y = []
    · rw [if_pos ht, ht, List.append_nil, if_pos rfl]
    · rw [if_neg ht, if_neg]
      intro hlen
      rw [List.length_append] at hlen
      exact ht (List.length_eq_zero_iff.1 (by omega))
  rw [scanArgs, hscan]
  dsimp only
  rw [hstart, htrim, if_neg hnul, hpush, hskip, hend]
  rcases delimiter_cases hd with rfl | rfl
  · rw [if_pos rfl, if_neg (by decide)]
  · rw [if_neg (by decide), if_pos rfl, if_pos rfl]

theorem takeWhile_dropWhile {α : Type} (q : α → Bool) (l : List α) : (l.dropWhile q).takeWhile q = [] := by
  induction l with
  | nil => rfl
  | cons c t ih =>
    cases hc : q c with
    | true =>
      rw [List.dropWhile_cons_of_pos hc]
      exact ih
    | false =>
      have hneg : ¬q c = true := by
        rw [hc]
        exact Bool.false_ne_true
      rw [List.dropWhile_cons_of_neg hneg, List.takeWhile_cons_of_neg hneg]

theorem skipSpace_skipSpace (buf : Str) (p : ℕ) : skipSpace buf (skipSpace buf p) = skipSpace buf p := by
  have hdrop : buf.drop (skipSpace buf p) = (buf.drop p).dropWhile isBlank := by
    rw [skipSpace, ← List.drop_drop]
    have happend : (buf.drop p).takeWhile isBlank ++ (buf.drop p).dropWhile isBlank = buf.drop p :=
      List.takeWhile_append_dropWhile
    have hbehind : ((buf.drop p).takeWhile isBlank ++ (buf.drop p).dropWhile isBlank).drop
        ((buf.drop p).takeWhile isBlank).length = (buf.drop p).dropWhile isBlank := List.drop_left' rfl
    rw [happend] at hbehind
    exact hbehind
  rw [skipSpace, hdrop, takeWhile_dropWhile]
  rfl

theorem scanArgs_skip (n : ℕ) (file buf : Str) (p : ℕ) (args : List Str) :
    scanArgs tool params n file buf (skipSpace buf p) args = scanArgs tool params n file buf p args := by
  cases n with
  | zero => rfl
  | succ n => rw [scanArgs, scanArgs, skipSpace_skipSpace]

/-- What the scan is asked to be like at the end of the arguments. -/
def ArgsSpec (tool : Tool) (params : ParamList) (file p t rest : Str) (args : List Str) : LinesEnd → Prop
  | .found args' r ls' => ∃ file' q, Lines file' ls' rest ∧
      Fuel.Returns (fun n => scanArgs tool params n file (p ++ t) p.length args)
        (.args file' (p ++ q ++ r) (p ++ q).length args')
  | .overread => Fuel.Returns (fun n => scanArgs tool params n file (p ++ t) p.length args) .overread
  | .beyond => ∀ n file' buf' p' args',
      scanArgs tool params n file (p ++ t) p.length args = some (.args file' buf' p' args') →
        file'.length < rest.length

/-- One argument on. -/
theorem ArgsSpec.step {file file' p q t r rest : Str} {args args' : List Str} {e : LinesEnd}
    (hstep : ∃ N, ∀ n, N ≤ n → scanArgs tool params (n + 1) file (p ++ t) p.length args =
      scanArgs tool params n file' (p ++ q ++ r) (p ++ q).length args')
    (hback : ∀ n f b i a, scanArgs tool params (n + 1) file (p ++ t) p.length args = some (.args f b i a) →
      scanArgs tool params n file' (p ++ q ++ r) (p ++ q).length args' = some (.args f b i a))
    (h : ArgsSpec tool params file' (p ++ q) r rest args' e) : ArgsSpec tool params file p t rest args e := by
  cases e with
  | found args'' r' ls' =>
    obtain ⟨file'', q', hlines, hreturns⟩ := h
    refine ⟨file'', q ++ q', hlines, ?_⟩
    rw [← List.append_assoc]
    exact Fuel.Returns.step hstep hreturns
  | overread => exact Fuel.Returns.step hstep h
  | beyond =>
    intro n file'' buf' p' args'' hscan
    cases n with
    | zero => cases hscan
    | succ n => exact h n file'' buf' p' args'' (hback n _ _ _ _ hscan)

theorem lines_found {v : ℕ → Bool} (args ls : List Str) (r : Str) : lines v (.found args r) ls = .found args r ls := by
  cases ls <;> rfl

/-- **The arguments.** The scan reads them as the lines say. -/
theorem scanArgs_spec {rest : Str} (n : ℕ) : ∀ {t p file : Str} {ls args : List Str}, (t ++ ls.flatten).length < n →
    Lines file ls rest → (∀ c ∈ t ++ ls.flatten, c ≠ nul) → Plain (p ++ t) ls →
      ArgsSpec tool params file p t rest args
        (lines (isVariadicArg tool params) (line (isVariadicArg tool params) args .start t) ls) := by
  induction n with
  | zero =>
    intro t p file ls args hn
    omega
  | succ n ih =>
    intro t p file ls args hn hlines hnul hplain
    have ht : t.takeWhile isBlank ++ t.dropWhile isBlank = t := List.takeWhile_append_dropWhile
    have hstart : skipSpace (p ++ t) p.length = (p ++ t.takeWhile isBlank).length := skipSpace_eq p t
    rw [lines_start, lines_inside]
    generalize t.takeWhile isBlank = sp at ht hstart
    generalize t.dropWhile isBlank = t1 at ht ⊢
    subst ht
    have hbuf : p ++ sp ++ [] ++ t1 = p ++ (sp ++ t1) := by simp
    have hpos : (p ++ sp ++ []).length = (p ++ sp).length := by rw [List.append_nil]
    have hspec := @scanArg_spec (isVariadicArg tool params args.length) rest ls t1 (p ++ sp) [] file 0 hlines
      (fun c hc => hnul c (by
        rw [List.append_assoc]
        exact List.mem_append_right sp hc)) (by
        rw [hbuf]
        exact hplain)
    unfold ArgSpec at hspec
    rw [hbuf, hpos, ← hstart] at hspec
    cases hr : argLines (isVariadicArg tool params args.length) (argLine (isVariadicArg tool params args.length) [] 0 t1)
      ls with
    | overread =>
      rw [hr] at hspec
      obtain ⟨N, hN⟩ := hspec
      refine ⟨N + 1, fun k hk => ?_⟩
      obtain ⟨k, rfl⟩ : ∃ j, k = j + 1 := ⟨k - 1, by omega⟩
      have hscan := hN (k + 1) (by omega)
      dsimp only at hscan ⊢
      rw [scanArgs, hscan]
    | beyond =>
      rw [hr] at hspec
      intro k file' buf' p' args' h
      cases k with
      | zero => cases h
      | succ k =>
        obtain ⟨file1, buf1, p1, hscan⟩ := scanArgs_first h
        exact Nat.lt_of_le_of_lt (scanArgs_after scanArgs_file hscan h) (hspec (k + 1) file1 buf1 p1 hscan)
    | stop y d r ls' =>
      rw [hr] at hspec
      obtain ⟨file', hlines', hdelim, hstream, hsuffix, hslash, N, hN⟩ := hspec
      have hline : p ++ (sp ++ y ++ [d]) ++ r = p ++ sp ++ y ++ d :: r := by simp
      have hlen : (p ++ (sp ++ y ++ [d])).length = (p ++ sp ++ y).length + 1 := by
        rw [← List.append_assoc, ← List.append_assoc, List.length_append, List.length_singleton]
      by_cases hd : d = ')'
      · rw [resume, if_pos hd, lines_found]
        refine ⟨file', sp ++ y ++ [d], hlines', N + 1, fun k hk => ?_⟩
        obtain ⟨k, rfl⟩ : ∃ j, k = j + 1 := ⟨k - 1, by omega⟩
        rw [hline, hlen]
        exact (scanArgs_stop (hN (k + 1) (by omega)) hstart hdelim).trans (if_pos hd)
      · rw [resume, if_neg hd]
        have hstep : ∀ k, scanArg (isVariadicArg tool params args.length) (k + 1) file (p ++ (sp ++ t1))
            (skipSpace (p ++ (sp ++ t1)) p.length) 0 = some (.stop file' (p ++ sp ++ y ++ d :: r) (p ++ sp ++ y).length) →
            scanArgs tool params (k + 1) file (p ++ (sp ++ t1)) p.length args =
              scanArgs tool params k file' (p ++ (sp ++ y ++ [d]) ++ r) (p ++ (sp ++ y ++ [d])).length
                (push args y) := by
          intro k hk
          rw [hline, hlen]
          exact (scanArgs_stop hk hstart hdelim).trans ((if_neg hd).trans (scanArgs_skip _ _ _ _ _))
        have hstream' : t1 ++ ls.flatten = y ++ d :: (r ++ ls'.flatten) := by
          rw [List.nil_append, List.append_assoc] at hstream
          exact hstream
        refine ArgsSpec.step ⟨N, fun k hk => hstep k (hN (k + 1) (by omega))⟩ (fun k f c i a h => ?_)
          (ih ?_ hlines' ?_ ?_)
        · -- whatever fuel gave a result, the argument is the same
          obtain ⟨file1, buf1, p1, hscan⟩ := scanArgs_first h
          have hmore := scanArg_mono (Nat.le_max_left (k + 1) N) hscan
          have heq := hmore.symm.trans (hN _ (Nat.le_max_right (k + 1) N))
          rw [heq] at hscan
          rw [← hstep k hscan]
          exact h
        · have hlength := congrArg List.length hstream'
          simp only [List.length_append, List.length_cons] at hlength hn ⊢
          omega
        · intro c hc
          refine hnul c ?_
          rw [List.append_assoc, hstream']
          exact List.mem_append_right sp (List.mem_append_right y (List.mem_cons_of_mem d hc))
        · rw [hline]
          refine ⟨fun hne => ?_, hslash, fun l hl => hplain.lines l (hsuffix.mem hl)⟩
          have hls : ls ≠ [] := by
            rintro rfl
            exact hne (List.suffix_nil.1 hsuffix)
          have hcomment := hplain.comment hls
          have hall : p ++ sp ++ y ++ d :: r ++ ls'.flatten = p ++ (sp ++ t1) ++ ls.flatten := by
            rw [List.append_assoc p (sp ++ t1), List.append_assoc sp, hstream']
            simp
          rw [hall]
          exact hcomment

/-! ## The expansion -/

theorem idxOf_nodup {names : List Str} {p : Str} : ∀ {i : ℕ}, names.Nodup → names[i]? = some p →
    names.idxOf? p = some i := by
  induction names with
  | nil =>
    intro i _ h
    cases h
  | cons q names ih =>
    intro i hnodup h
    obtain ⟨hq, hnodup⟩ := List.nodup_cons.1 hnodup
    rw [List.idxOf?_cons]
    cases i with
    | zero =>
      obtain rfl := Option.some.inj h
      simp
    | succ i =>
      have hne : (q == p) = false := by
        rw [beq_eq_false_iff_ne]
        rintro rfl
        exact hq (List.mem_of_getElem? h)
      rw [hne, ih hnodup h]
      rfl

/-- The text that is the name of a parameter. -/
theorem expandMacro_name {args : List Str} {p : Str} {i : ℕ} (h : params.names[i]? = some p) :
    expandMacro params args p = args.getD i [] := by
  have hident := params.ident p (List.mem_of_getElem? h)
  cases p with
  | nil => cases hident
  | cons c t =>
    obtain ⟨hc, ht⟩ := hident
    have htake : t.takeWhile identChar = t := List.takeWhile_eq_self_iff.2 ht
    have hdrop : t.dropWhile identChar = [] := List.dropWhile_eq_nil_iff.2 ht
    rw [expandMacro, if_pos hc, htake, hdrop, substitute, idxOf_nodup params.nodup h, expandMacro, List.append_nil]

theorem expandMacro_nil (args : List Str) : expandMacro params args [] = [] := by rw [expandMacro]

/-- The line after the expansion. -/
theorem expand_args {expansion file file' lineBuf t q r : Str} {args : List Str} {startPos : ℕ}
    (hstart : startPos ≤ lineBuf.length)
    (h : Fuel.Returns (fun n => scanArgs tool params n file (lineBuf ++ ['('] ++ t) (lineBuf ++ ['(']).length [])
      (.args file' (lineBuf ++ ['('] ++ q ++ r) (lineBuf ++ ['('] ++ q).length args)) :
    Fuel.Returns (fun n => expandInvocation tool params expansion n file (lineBuf ++ '(' :: t) startPos lineBuf.length)
      (if args.length ≠ params.names.length then .argumentError
        else .line file' (lineBuf.take startPos ++ expandMacro params args expansion ++ r)) := by
  obtain ⟨N, hN⟩ := h
  refine ⟨N, fun n hn => ?_⟩
  have hscan := hN n hn
  have hbuf : lineBuf ++ ['('] ++ t = lineBuf ++ '(' :: t := by simp
  have htake : (lineBuf ++ ['('] ++ q ++ r).take startPos = lineBuf.take startPos := by
    rw [List.append_assoc, List.append_assoc, List.take_append_of_le_length hstart]
  have hdrop : (lineBuf ++ ['('] ++ q ++ r).drop (lineBuf ++ ['('] ++ q).length = r := List.drop_left' rfl
  have hpos : (lineBuf ++ ['(']).length = lineBuf.length + 1 := List.length_append
  dsimp only at hscan ⊢
  rw [hbuf, hpos] at hscan
  rw [expandInvocation, hscan]
  dsimp only
  rw [htake, hdrop]
  split <;> rfl

theorem expand_overread {expansion file lineBuf t : Str} {startPos : ℕ}
    (h : Fuel.Returns (fun n => scanArgs tool params n file (lineBuf ++ ['('] ++ t) (lineBuf ++ ['(']).length []) .overread) :
    Fuel.Returns (fun n => expandInvocation tool params expansion n file (lineBuf ++ '(' :: t) startPos lineBuf.length)
      .overread := by
  obtain ⟨N, hN⟩ := h
  refine ⟨N, fun n hn => ?_⟩
  have hscan := hN n hn
  have hbuf : lineBuf ++ ['('] ++ t = lineBuf ++ '(' :: t := by simp
  have hpos : (lineBuf ++ ['(']).length = lineBuf.length + 1 := List.length_append
  dsimp only at hscan ⊢
  rw [hbuf, hpos] at hscan
  rw [expandInvocation, hscan]

/-- What an expanded line says about the scan. -/
theorem scan_of_expand {expansion file file' lineBuf t buf' : Str} {startPos n : ℕ}
    (h : expandInvocation tool params expansion n file (lineBuf ++ '(' :: t) startPos lineBuf.length =
      some (.line file' buf')) : ∃ buf p args,
      scanArgs tool params n file (lineBuf ++ ['('] ++ t) (lineBuf ++ ['(']).length [] =
        some (.args file' buf p args) := by
  have hbuf : lineBuf ++ ['('] ++ t = lineBuf ++ '(' :: t := by simp
  have hpos : (lineBuf ++ ['(']).length = lineBuf.length + 1 := List.length_append
  rw [hbuf, hpos]
  rw [expandInvocation] at h
  split at h
  · cases h
  · cases h
  · cases h
  · rename_i hscan
    split at h
    · cases h
    · obtain ⟨rfl, -⟩ := Expanded.line.inj (Option.some.inj h)
      exact ⟨_, _, _, hscan⟩

/-! ## Comments -/

theorem noComment_append {a : Str} {c : Char} {t : Str} (ha : noComment a = true) (ht : noComment (c :: t) = true)
    (h : a.getLast? ≠ some '/' ∨ (c ≠ '/' ∧ c ≠ '*')) : noComment (a ++ c :: t) = true := by
  induction a with
  | nil => exact ht
  | cons d a ih =>
    obtain ⟨hopener, hrest⟩ := Bool.and_eq_true_iff.1 ha
    cases a with
    | nil =>
      refine Bool.and_eq_true_iff.2 ⟨?_, ht⟩
      unfold Strip.opener
      rcases h with h | ⟨h1, h2⟩
      · have hd : d ≠ '/' := fun hd => h (by rw [hd]; rfl)
        simp [hd]
      · simp [h1, h2]
    | cons e a =>
      refine Bool.and_eq_true_iff.2 ⟨hopener, ih hrest ?_⟩
      rcases h with h | h
      · exact .inl h
      · exact .inr h

/-- Before an argument there is a blank or a comma. -/
theorem line_last {v : ℕ → Bool} {c : Char} (x : Str) : ∀ {args args' : List Str} {s s' : At},
    line v args s (x ++ [c]) = .ends args' s' → s'.isStart = true → isBlank c = true ∨ c = ',' := by
  induction x with
  | nil =>
    intro args args' s s' h hs
    rw [List.nil_append, line] at h
    split at h
    · rename_i hd
      rcases delimiter_cases hd.2 with rfl | rfl
      · exact .inr rfl
      · cases h
    · split at h
      · rename_i hblank
        exact .inl (Bool.and_eq_true_iff.1 hblank).2
      · obtain ⟨-, rfl⟩ := LineEnd.ends.inj h
        cases hs
  | cons d x ih =>
    intro args args' s s' h hs
    rw [List.cons_append, line] at h
    split at h
    · split at h
      · cases h
      · exact ih h hs
    · split at h
      · exact ih h hs
      · exact ih h hs

theorem not_slash_of_last {v : ℕ → Bool} {buf l : Str} {args args' : List Str} {s s' : At} (w : Str) (hl : l ≠ [])
    (h : line v args s (w ++ l) = .ends args' s') (hs : s'.isStart = true) : (buf ++ l).getLast? ≠ some '/' := by
  obtain ⟨x, c, rfl⟩ : ∃ x c, l = x ++ [c] := ⟨l.dropLast, l.getLast hl, (List.dropLast_concat_getLast hl).symm⟩
  rw [← List.append_assoc] at h
  rw [← List.append_assoc, List.getLast?_concat]
  intro heq
  obtain rfl := Option.some.inj heq
  rcases line_last (w ++ x) h hs with hc | hc
  · exact absurd hc (by decide)
  · exact absurd hc (by decide)

/-- Harmless breaks put no comment together. -/
theorem harmless_noComment {v : ℕ → Bool} (ls : List Str) : ∀ {e : LineEnd} {buf : Str}, noComment buf = true →
    (∀ args s, e = .ends args s → s.isStart = true → buf.getLast? ≠ some '/') → (∀ l ∈ ls, noComment l = true) →
      Closes v e ls → HarmlessBreaks v e ls → noComment (buf ++ ls.flatten) = true := by
  induction ls with
  | nil =>
    intro e buf hbuf _ _ _ _
    rw [List.flatten_nil, List.append_nil]
    exact hbuf
  | cons l ls ih =>
    intro e buf hbuf hlast hlines hcloses hbreaks
    cases e with
    | found args r => cases hcloses
    | ends args s =>
      obtain ⟨⟨c, t, rfl, hbreak⟩, hbreaks⟩ := hbreaks
      have hjoin : noComment (buf ++ c :: t) = true := by
        refine noComment_append hbuf (hlines _ List.mem_cons_self) ?_
        rcases hbreak with ⟨hstart, -⟩ | ⟨-, rfl, -⟩
        · exact .inl (hlast args s rfl hstart)
        · exact .inr (by decide)
      rw [List.flatten_cons, ← List.append_assoc]
      refine ih hjoin (fun args' s' heq hs => ?_) (fun l hl => hlines l (List.mem_cons_of_mem _ hl)) hcloses hbreaks
      exact not_slash_of_last [' '] (List.cons_ne_nil _ _) heq hs

/-! ## The invocation -/

theorem closes_found {v : ℕ → Bool} (ls : List Str) : ∀ {e : LineEnd}, Closes v e ls →
    ∃ args r, whole v e ls = .found args r := by
  induction ls with
  | nil =>
    intro e h
    cases e with
    | found args r => exact ⟨args, _, rfl⟩
    | ends args s => cases h
  | cons l ls ih =>
    intro e h
    cases e with
    | found args r => cases h
    | ends args s =>
      obtain ⟨args', r, hwhole⟩ := ih h
      exact ⟨args', r, whole_cons.trans hwhole⟩

theorem joined_noNul {t : Str} {ls : List Str} (h : ∀ c ∈ t ++ ls.flatten, c ≠ nul) : ∀ c ∈ t ++ joined ls, c ≠ nul := by
  intro c hc
  rcases List.mem_append.1 hc with hc | hc
  · exact h c (List.mem_append_left _ hc)
  · obtain ⟨l, hl, hcl⟩ := List.mem_flatMap.1 hc
    rcases List.mem_cons.1 hcl with rfl | hcl
    · decide
    · exact h c (List.mem_append_right _ (List.mem_flatten.2 ⟨l, hl, hcl⟩))

/-- The joined text has its expansion. -/
theorem joined_expands {t rest lineBuf : Str} {ls args : List Str} {r : Str} {startPos : ℕ}
    (h : Invocation tool params t ls) (hstart : startPos ≤ lineBuf.length)
    (hwhole : whole (isVariadicArg tool params) (line (isVariadicArg tool params) [] .start t) ls = .found args r)
    (expansion : Str) :
    Fuel.Returns (fun n => expandInvocation tool params expansion n rest (lineBuf ++ '(' :: (t ++ joined ls)) startPos
      lineBuf.length) (.line rest (lineBuf.take startPos ++ expandMacro params args expansion ++ r)) := by
  have hfound : line (isVariadicArg tool params) [] .start (t ++ joined ls) = .found args r :=
    (line_joined t ls).trans hwhole
  have hplain : Plain (lineBuf ++ ['('] ++ (t ++ joined ls)) [] :=
    ⟨fun h => absurd rfl h, fun h => absurd rfl h, fun _ h => nomatch h⟩
  have hnul : ∀ c ∈ t ++ joined ls ++ ([] : List Str).flatten, c ≠ nul := by
    rw [List.flatten_nil, List.append_nil]
    exact joined_noNul h.noNul
  have hspec := @scanArgs_spec tool params rest _ (t ++ joined ls) (lineBuf ++ ['(']) rest [] [] (Nat.lt_succ_self _)
    rfl hnul hplain
  rw [hfound] at hspec
  obtain ⟨file', q, rfl, hreturns⟩ := hspec
  have hexpand := @expand_args tool params expansion _ _ _ _ _ _ _ _ hstart hreturns
  rw [if_neg (fun hne => hne (h.count args r hfound))] at hexpand
  exact hexpand

/-- The scan of the lines. -/
theorem lines_scanned {t file rest lineBuf : Str} {ls : List Str} (h : Invocation tool params t ls)
    (hfile : Lines file ls rest) (hcomment : ls ≠ [] → noComment (lineBuf ++ '(' :: (t ++ ls.flatten)) = true) :
    ArgsSpec tool params file (lineBuf ++ ['(']) t rest []
      (lines (isVariadicArg tool params) (line (isVariadicArg tool params) [] .start t) ls) := by
  have hslash : NoSlash (lineBuf ++ ['(']) := by
    unfold NoSlash Strip.endsInBackslash
    rw [List.getLast?_concat]
    exact decide_eq_false (fun h => absurd (Option.some.inj h) (by decide))
  refine scanArgs_spec _ (Nat.lt_succ_self _) hfile h.noNul ⟨fun hne => ?_, fun _ => ?_, fun l hl => ?_⟩
  · have hall : lineBuf ++ ['('] ++ t ++ ls.flatten = lineBuf ++ '(' :: (t ++ ls.flatten) := by simp
    rw [hall]
    exact hcomment hne
  · exact Strip.noSlash_append hslash (h.noSlash t List.mem_cons_self)
  · exact h.noSlash l (List.mem_cons_of_mem _ hl)

/-- Equal expansions come from equal arguments. -/
theorem args_of_expansions {file file' rest lineBuf t q r r' : Str} {ls args args' : List Str} {startPos : ℕ}
    (h : Invocation tool params t ls) (hstart : startPos ≤ lineBuf.length)
    (hwhole : whole (isVariadicArg tool params) (line (isVariadicArg tool params) [] .start t) ls = .found args r)
    (hscan : Fuel.Returns (fun n => scanArgs tool params n file (lineBuf ++ ['('] ++ t) (lineBuf ++ ['(']).length [])
      (.args file' (lineBuf ++ ['('] ++ q ++ r') (lineBuf ++ ['('] ++ q).length args'))
    (hsame : ∀ expansion, SameExpansion tool params expansion file lineBuf t ls rest startPos) : args' = args := by
  have hequal : ∀ expansion, (if args'.length ≠ params.names.length then Expanded.argumentError
      else .line file' (lineBuf.take startPos ++ expandMacro params args' expansion ++ r')) =
        .line rest (lineBuf.take startPos ++ expandMacro params args expansion ++ r) := by
    intro expansion
    obtain ⟨r0, -, hbroken, hjoined⟩ := hsame expansion
    have h1 := hbroken.unique (expand_args hstart hscan)
    have h2 := hjoined.unique (joined_expands h hstart hwhole expansion)
    exact h1.symm.trans h2
  have hcount : args'.length = params.names.length := by
    apply Classical.byContradiction
    intro hne
    have hnil := hequal []
    rw [if_pos hne] at hnil
    cases hnil
  have hlines : ∀ expansion, lineBuf.take startPos ++ expandMacro params args' expansion ++ r' =
      lineBuf.take startPos ++ expandMacro params args expansion ++ r := by
    intro expansion
    have hline := hequal expansion
    rw [if_neg (fun hne => hne hcount)] at hline
    exact (Expanded.line.inj hline).2
  -- the empty text shows what is behind the invocation, and the name of a parameter its argument
  have hrest : r' = r := by
    have hnil := hlines []
    rw [expandMacro_nil, expandMacro_nil] at hnil
    exact List.append_cancel_left hnil
  have hlen : args.length = params.names.length := h.count args r ((line_joined t ls).trans hwhole)
  refine List.ext_getElem (hcount.trans hlen.symm) (fun i h1 h2 => ?_)
  have hi : i < params.names.length := by omega
  have hname := hlines (params.names[i])
  rw [expandMacro_name (List.getElem?_eq_getElem hi), expandMacro_name (List.getElem?_eq_getElem hi), hrest] at hname
  have harg := List.append_cancel_left (List.append_cancel_right hname)
  rw [List.getD_eq_getElem?_getD, List.getD_eq_getElem?_getD, List.getElem?_eq_getElem h1,
    List.getElem?_eq_getElem h2] at harg
  exact harg

/-- **A macro invocation over several lines.** It has the expansion of the joined text for every macro text, if all breaks
are harmless and the line before the invocation has no comment opener; and only then, if the lines put together have no
comment opener. -/
theorem breaks_exact {file rest lineBuf t : Str} {ls : List Str} {startPos : ℕ} (h : Invocation tool params t ls)
    (hfile : Lines file ls rest) (hstart : startPos ≤ lineBuf.length) :
    (HarmlessBreaks (isVariadicArg tool params) (line (isVariadicArg tool params) [] .start t) ls →
        (ls = [] ∨ noComment lineBuf = true) →
          ∀ expansion, SameExpansion tool params expansion file lineBuf t ls rest startPos) ∧
      (noComment (lineBuf ++ '(' :: (t ++ ls.flatten)) = true →
        (∀ expansion, SameExpansion tool params expansion file lineBuf t ls rest startPos) →
          HarmlessBreaks (isVariadicArg tool params) (line (isVariadicArg tool params) [] .start t) ls) := by
  refine ⟨fun hbreaks hbefore expansion => ?_, fun hcomment hsame => ?_⟩
  · obtain ⟨args, r, hwhole, hlines⟩ := lines_harmless ls (.same _) h.closes hbreaks
    have hscanned := @lines_scanned tool params t file rest lineBuf ls h hfile ?_
    · rw [hlines] at hscanned
      obtain ⟨file', q, rfl, hreturns⟩ := hscanned
      have hfound := (line_joined t ls).trans hwhole
      have hexpand := @expand_args tool params expansion _ _ _ _ _ _ _ _ hstart hreturns
      rw [if_neg (fun hne => hne (h.count args r hfound))] at hexpand
      exact ⟨_, Expanded.noConfusion, hexpand, joined_expands h hstart hwhole expansion⟩
    · -- with harmless breaks no comment comes together
      intro hne
      have hline : noComment lineBuf = true := hbefore.resolve_left hne
      have hfirst : noComment (lineBuf ++ '(' :: t) = true := by
        refine noComment_append hline ?_ (.inr (by decide))
        refine Bool.and_eq_true_iff.2 ⟨rfl, h.noComment t List.mem_cons_self⟩
      have hall := harmless_noComment ls hfirst (fun args s heq hs => ?_)
        (fun l hl => h.noComment l (List.mem_cons_of_mem _ hl)) h.closes hbreaks
      · rw [List.append_assoc] at hall
        exact hall
      · cases t with
        | nil =>
          rw [List.getLast?_concat]
          exact fun h => absurd (Option.some.inj h) (by decide)
        | cons c t =>
          have hbuf : lineBuf ++ '(' :: c :: t = lineBuf ++ ['('] ++ c :: t := by simp
          rw [hbuf]
          exact not_slash_of_last [] (List.cons_ne_nil _ _) heq hs
  · obtain ⟨args, r, hwhole⟩ := closes_found ls h.closes
    have hscanned := @lines_scanned tool params t file rest lineBuf ls h hfile (fun _ => hcomment)
    cases hlines : lines (isVariadicArg tool params) (line (isVariadicArg tool params) [] .start t) ls with
    | found args' r' ls' =>
      rw [hlines] at hscanned
      obtain ⟨file', q, -, hreturns⟩ := hscanned
      obtain rfl := args_of_expansions h hstart hwhole hreturns hsame
      exact harmless_of_lines ls (.same _) (fun args s heq => @line_good _ t _ _ .start _ trivial heq) h.closes hlines hwhole
    | overread =>
      rw [hlines] at hscanned
      obtain ⟨r0, hne, hbroken, -⟩ := hsame []
      exact absurd (hbroken.unique (expand_overread hscanned)) hne
    | beyond =>
      rw [hlines] at hscanned
      obtain ⟨r0, -, ⟨N, hN⟩, hjoined⟩ := hsame []
      obtain rfl := hjoined.unique (joined_expands h hstart hwhole [])
      obtain ⟨buf, p, args', hscan⟩ := scan_of_expand (hN N (Nat.le_refl _))
      exact absurd (hscanned N _ _ _ _ hscan) (Nat.lt_irrefl _)

/-- A macro with one parameter. -/
def oneParam : ParamList :=
  ⟨[['p']], List.pairwise_singleton _ _, fun _ h => by rw [List.mem_singleton.1 h]; exact ⟨rfl, fun _ h => nomatch h⟩⟩

/-- An argument `a`, with the closing parenthesis on a further line. -/
theorem oneParam_invocation : Invocation .htl oneParam ['a'] [[' ', ')']] where
  closes := trivial
  count := by
    intro args r h
    have heq : line (isVariadicArg .htl oneParam) [] .start (['a'] ++ joined [[' ', ')']]) = .found [['a']] [] := rfl
    rw [heq] at h
    obtain ⟨rfl, -⟩ := LineEnd.found.inj h
    rfl
  noNul := by simp [nul]
  noSlash := List.forall_mem_cons.2 ⟨rfl, List.forall_mem_cons.2 ⟨rfl, fun _ h => nomatch h⟩⟩
  noComment := List.forall_mem_cons.2 ⟨rfl, List.forall_mem_cons.2 ⟨rfl, fun _ h => nomatch h⟩⟩

theorem breaks_exact_closing : SameExpansion .htl oneParam ['x'] [' ', ')', '\n'] ['F'] ['a'] [[' ', ')']] [] 0 :=
  (breaks_exact oneParam_invocation ⟨[], rfl, rfl⟩ (Nat.zero_le _)).1
    ⟨⟨' ', [')'], rfl, .inr ⟨rfl, rfl, ⟨')', rfl, rfl⟩⟩⟩, trivial⟩ (.inr rfl) ['x']

/-- An argument `a b` with a blank line in it. -/
theorem oneParam_blank_line : Invocation .htl oneParam ['a'] [[], ['b', ')']] where
  closes := trivial
  count := by
    intro args r h
    have heq : line (isVariadicArg .htl oneParam) [] .start (['a'] ++ joined [[], ['b', ')']]) =
        .found [['a', ' ', ' ', 'b']] [] := rfl
    rw [heq] at h
    obtain ⟨rfl, -⟩ := LineEnd.found.inj h
    rfl
  noNul := by simp [nul]
  noSlash := List.forall_mem_cons.2 ⟨rfl, List.forall_mem_cons.2 ⟨rfl, List.forall_mem_cons.2 ⟨rfl, fun _ h => nomatch h⟩⟩⟩
  noComment := List.forall_mem_cons.2
    ⟨rfl, List.forall_mem_cons.2 ⟨rfl, List.forall_mem_cons.2 ⟨rfl, fun _ h => nomatch h⟩⟩⟩

/-- The scan reads behind the end of a blank line. -/
theorem blank_line_overread : Invocation .htl oneParam ['a'] [[], ['b', ')']] ∧
    Lines ['\n', 'b', ')', '\n'] [[], ['b', ')']] [] ∧
      ¬SameExpansion .htl oneParam [] ['\n', 'b', ')', '\n'] ['F'] ['a'] [[], ['b', ')']] [] 0 := by
  have hlines : Lines ['\n', 'b', ')', '\n'] [[], ['b', ')']] [] := ⟨_, rfl, _, rfl, rfl⟩
  refine ⟨oneParam_blank_line, hlines, ?_⟩
  rintro ⟨r, hne, hbroken, -⟩
  have hscanned := @lines_scanned _ _ _ _ _ ['F'] _ oneParam_blank_line hlines (fun _ => rfl)
  exact hne (hbroken.unique (expand_overread hscanned))

end OpenHT.Htl.MacroArgs
