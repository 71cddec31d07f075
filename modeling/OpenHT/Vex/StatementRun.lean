import OpenHT.Vex.StatementCopies

/-!
# Copies of statements

* `At`: the rest of a run, from a place in the file.
* `at_piece`, `at_copies`: over a piece, and over all copies of a statement.
* `delivers_expected`: the calls deliver the expected text.
-/

namespace OpenHT.Vex

attribute [local simp] scan Piece.text lineOf

attribute [local simp] skipComment

attribute [local simp] Piece.copy

/-- The text behind a line. -/
theorem lineOf_append_dropLine (s : Str) : lineOf s ++ dropLine s = s := by
  induction s with
  | nil => rfl
  | cons c s ih =>
    unfold lineOf dropLine
    split
    · rfl
    · rw [List.cons_append, ih]

theorem fgets_eq {n : ℕ} {s : Str} (h : (lineOf s).length ≤ n) : fgets n s = (lineOf s, dropLine s) := by
  induction s generalizing n with
  | nil =>
    cases n with
    | zero => rfl
    | succ n => rfl
  | cons c s ih =>
    cases n with
    | zero =>
      unfold lineOf at h
      split at h
      · exact absurd h (Nat.not_succ_le_zero _)
      · exact absurd h (Nat.not_succ_le_zero _)
    | succ n =>
      unfold fgets lineOf dropLine
      by_cases hc : c = '\n'
      · rw [if_pos hc, if_pos hc, if_pos hc]
      · unfold lineOf at h
        rw [if_neg hc, List.length_cons] at h
        rw [if_neg hc, if_neg hc, if_neg hc, ih (Nat.le_of_succ_le_succ h)]

theorem lineOf_newline (s : Str) : lineOf ('\n' :: s) = ['\n'] ∧ dropLine ('\n' :: s) = s := ⟨rfl, rfl⟩

theorem lineOf_cons {c : Char} (hc : c ≠ '\n') (s : Str) :
    lineOf (c :: s) = c :: lineOf s ∧ dropLine (c :: s) = dropLine s := by
  constructor
  · rw [lineOf, if_neg hc]
  · rw [dropLine, if_neg hc]

/-- A text without a newline is in one line with what is behind it. -/
theorem lineOf_append {a : Str} (ha : '\n' ∉ a) (s : Str) :
    lineOf (a ++ s) = a ++ lineOf s ∧ dropLine (a ++ s) = dropLine s := by
  induction a with
  | nil => exact ⟨rfl, rfl⟩
  | cons c a ih =>
    have hc : c ≠ '\n' := fun heq => ha (heq ▸ List.mem_cons_self)
    obtain ⟨h1, h2⟩ := ih fun hmem => ha (List.mem_cons_of_mem c hmem)
    obtain ⟨h3, h4⟩ := lineOf_cons hc (a ++ s)
    exact ⟨h3.trans (congrArg _ h1), h4.trans h2⟩

theorem head_lineOf (s : Str) : (lineOf s).head? = s.head? := by
  cases s with
  | nil => rfl
  | cons c s =>
    unfold lineOf
    split
    · rfl
    · rfl

theorem dropLine_length {s : Str} (hs : s ≠ []) : (dropLine s).length < s.length := by
  have hlen := congrArg List.length (lineOf_append_dropLine s)
  rw [List.length_append] at hlen
  have hpos : 0 < (lineOf s).length := by
    cases s with
    | nil => exact absurd rfl hs
    | cons c s =>
      unfold lineOf
      split
      · exact Nat.one_pos
      · exact Nat.succ_pos _
  omega

/-! ## The rest of a run -/

/-- The rest of a run behind the end of a call. -/
def Ends : GetLine → List Str → Prop
  | .line text st, lines => ∃ rest, lines = text :: rest ∧ Calls st rest
  | .eof, lines => lines = []
  | _, _ => False

/-- From the start of a line, in a call. -/
def Loop (st : CPreProcess) (lines : List Str) : Prop := ∀ f, st.fp.length < f → Ends (readLine f st) lines

/-- The rest of a run behind the end of a loop over a line, with at most `n` characters behind the line. -/
def Goes (n : ℕ) : Scanned → List Str → Prop
  | .line text st, lines => ∃ rest, lines = text :: rest ∧ Calls st rest
  | .dropped st, lines => st.fp.length ≤ n ∧ Loop st lines
  | _, _ => False

/-- From inside of a line. -/
def From (st : CPreProcess) (first : Bool) (src dst : Str) (lines : List Str) : Prop :=
  ∀ f, src.length < f → Goes st.fp.length (scan f first st src dst) lines

/-- From a place in the file, where `text` follows and the line starts with `dst`. -/
def At (st : CPreProcess) (lineStart : Bool) (text dst : Str) (lines : List Str) : Prop :=
  if lineStart then dst = [] ∧ Loop { st with fp := text } lines
  else From { st with fp := dropLine text } false (lineOf text) dst lines

variable {st : CPreProcess} {lines : List Str} {text dst src : Str} {first lineStart : Bool}

theorem calls_of_loop (hrep : st.bRepositionToLineStart = false) (h : Loop st lines) : Calls st lines := by
  have hend := h (st.fp.length + 1) (Nat.lt_succ_self _)
  have hget : getLine st = readLine (st.fp.length + 1) st := by
    unfold getLine
    rw [hrep]
    rfl
  cases hread : readLine (st.fp.length + 1) st with
  | line l st' =>
    rw [hread] at hend
    obtain ⟨rest, rfl, hrest⟩ := hend
    exact .more (hget.trans hread) hrest
  | eof =>
    rw [hread] at hend
    obtain rfl : lines = [] := hend
    exact .done (hget.trans hread)
  | undef =>
    rw [hread] at hend
    cases hend
  | fuel =>
    rw [hread] at hend
    cases hend

/-- The next call goes back to the start of the statement. -/
theorem calls_of_reposition (hrep : st.bRepositionToLineStart = true)
    (h : Loop { st with fp := st.statement, bRepositionToLineStart := false } lines) : Calls st lines := by
  have hcalls := calls_of_loop rfl h
  have hsame : getLine st = getLine { st with fp := st.statement, bRepositionToLineStart := false } := by
    unfold getLine
    rw [hrep]
    rfl
  generalize { st with fp := st.statement, bRepositionToLineStart := false } = st' at hcalls hsame
  cases hcalls with
  | done hend => exact .done (hsame.trans hend)
  | more hline hrest => exact .more (hsame.trans hline) hrest

/-- **A line is read.** -/
theorem loop_of_from (htext : text ≠ []) (hshort : (lineOf text).length < lineSize)
    (h : From { st with fp := dropLine text } true (lineOf text) [] lines) : Loop { st with fp := text } lines := by
  intro f hf
  cases f with
  | zero => cases hf
  | succ f =>
    have hgoes := h ((lineOf text).length + 1) (Nat.lt_succ_self _)
    have hread := @fgets_eq (lineSize - 1) text (Nat.le_sub_one_of_lt hshort)
    unfold readLine
    rw [if_neg htext]
    dsimp only
    rw [hread]
    dsimp only
    cases hscan : scan ((lineOf text).length + 1) true { st with fp := dropLine text } (lineOf text) [] with
    | line l st' =>
      rw [hscan] at hgoes
      exact hgoes
    | dropped st' =>
      -- what is behind the directive is shorter
      rw [hscan] at hgoes
      have hdrop := dropLine_length htext
      have hle : st'.fp.length ≤ (dropLine text).length := hgoes.1
      have hlen : text.length < f + 1 := hf
      exact hgoes.2 f (by omega)
    | undef =>
      rw [hscan] at hgoes
      cases hgoes
    | fuel =>
      rw [hscan] at hgoes
      cases hgoes

/-- From a place in the file into its line. -/
theorem at_of_from (htext : text ≠ []) (hshort : (lineOf text).length < lineSize) (hdst : lineStart = true → dst = [])
    (h : From { st with fp := dropLine text } lineStart (lineOf text) dst lines) : At st lineStart text dst lines := by
  cases lineStart with
  | false => exact h
  | true =>
    obtain rfl := hdst rfl
    exact ⟨rfl, loop_of_from htext hshort h⟩

theorem endLine_fits (hdst : dst.length < lineSize) : endLine st dst = .line dst st := if_neg (Nat.not_le.2 hdst)

/-- The line is delivered. -/
theorem from_endLine (hdst : dst.length < lineSize) (h : Calls st lines) : From st first [] dst (dst :: lines) := by
  intro f hf
  cases f with
  | zero => cases hf
  | succ f =>
    unfold scan
    rw [endLine_fits hdst]
    exact ⟨lines, rfl, h⟩

/-- A character goes into the line. -/
theorem from_char {c : Char} (hcomment : st.bCommentSpansEol = false) (hsemi : c ≠ ';') (hquote : c ≠ backQuote)
    (hslash : c = '/' → src.head? ≠ some '/' ∧ src.head? ≠ some '*') (h : From st false src (dst ++ [c]) lines) :
    From st first (c :: src) dst lines := by
  intro f hf
  cases f with
  | zero => cases hf
  | succ f =>
    have hgoes := h f (Nat.lt_of_succ_lt_succ hf)
    unfold scan
    rw [if_neg, if_neg, if_neg hquote, if_neg hsemi]
    · exact hgoes
    · rintro ⟨hc, hhead⟩
      exact (hslash hc).1 hhead
    · rintro (hflag | ⟨hc, hhead⟩)
      · rw [hcomment] at hflag
        cases hflag
      · exact (hslash hc).2 hhead

/-! ## Comments -/

/-- The end of a comment, with a text behind it. -/
theorem skipComment_append {a b : Str} (h : skipComment a = some b) (s : Str) : skipComment (a ++ s) = some (b ++ s) := by
  induction a with
  | nil => cases h
  | cons c a ih =>
    rw [skipComment] at h
    rw [List.cons_append, skipComment]
    by_cases hend : c = '*' ∧ a.head? = some '/'
    · rw [if_pos hend] at h
      obtain ⟨hc, hhead⟩ := hend
      cases a with
      | nil => cases hhead
      | cons d a =>
        have hb : a = b := Option.some.inj h
        have hd : (d :: a ++ s).head? = some '/' := hhead
        rw [if_pos ⟨hc, hd⟩, ← hb]
        rfl
    · rw [if_neg hend] at h
      have hne : ¬(c = '*' ∧ (a ++ s).head? = some '/') := by
        rintro ⟨hc, hhead⟩
        cases a with
        | nil => cases h
        | cons d a => exact hend ⟨hc, hhead⟩
      rw [if_neg hne]
      exact ih h

/-- The lines of a comment before its last one do not have its end. -/
theorem skipComment_line {a b : Str} (ha : '\n' ∉ a) (h : skipComment (a ++ '\n' :: (b ++ ['*', '/'])) = some []) :
    skipComment (a ++ ['\n']) = none ∧ skipComment (b ++ ['*', '/']) = some [] := by
  induction a with
  | nil =>
    have hne : ¬(('\n' : Char) = '*' ∧ (b ++ ['*', '/']).head? = some '/') := fun hc => absurd hc.1 (by decide)
    rw [List.nil_append, skipComment, if_neg hne] at h
    exact ⟨rfl, h⟩
  | cons c a ih =>
    have ha' : '\n' ∉ a := fun hmem => ha (List.mem_cons_of_mem c hmem)
    rw [List.cons_append, skipComment] at h ⊢
    by_cases hend : c = '*' ∧ (a ++ '\n' :: (b ++ ['*', '/'])).head? = some '/'
    · rw [if_pos hend] at h
      -- nothing is behind the end of the comment, but here is
      have hlen := congrArg List.length (Option.some.inj h)
      rw [List.length_tail, List.length_append, List.length_cons, List.length_append] at hlen
      simp only [List.length_cons, List.length_nil] at hlen
      omega
    · rw [if_neg hend] at h
      have hne : ¬(c = '*' ∧ (a ++ ['\n']).head? = some '/') := by
        rintro ⟨hc, hhead⟩
        cases a with
        | nil => exact absurd hhead (by decide)
        | cons d a => exact hend ⟨hc, hhead⟩
      rw [if_neg hne]
      exact ih ha' h

/-- The last line of a comment. -/
theorem from_commentEnd {body : Str} (hend : skipComment (body ++ ['*', '/']) = some [])
    (hcomment : st.bCommentSpansEol = true) (h : From { st with bCommentSpansEol := false } false src dst lines) :
    From st first (body ++ '*' :: '/' :: src) dst lines := by
  intro f hf
  have hskip : skipComment (body ++ '*' :: '/' :: src) = some src := by
    have := skipComment_append hend src
    rwa [List.append_assoc] at this
  cases f with
  | zero => cases hf
  | succ f =>
    have hlen : (body ++ '*' :: '/' :: src).length = body.length + (src.length + 2) := by simp
    have hgoes := h f (by omega)
    cases hsrc : body ++ '*' :: '/' :: src with
    | nil =>
      rw [hsrc] at hlen
      simp only [List.length_nil] at hlen
      omega
    | cons c s =>
      rw [hsrc] at hskip
      unfold scan
      rw [if_pos (.inl hcomment)]
      simp only [hcomment, if_true, hskip]
      exact hgoes

/-- A line inside of a comment. -/
theorem from_commentLine (hne : src ≠ []) (hskip : skipComment src = none) (hcomment : st.bCommentSpansEol = true)
    (hdst : dst.length < lineSize) (h : Calls st lines) : From st first src dst (dst :: lines) := by
  intro f hf
  cases f with
  | zero => cases hf
  | succ f =>
    cases src with
    | nil => exact absurd rfl hne
    | cons c s =>
      have hst : { st with bCommentSpansEol := true } = st := by
        rw [← hcomment]
      unfold scan
      rw [if_pos (.inl hcomment)]
      simp only [hcomment, if_true, hskip]
      rw [endLine_fits hdst, hst]
      exact ⟨lines, rfl, h⟩

/-- The start of a comment. A comment that goes on in the next line is one for the members, too. -/
theorem from_commentStart {body behind : Str} (hcomment : st.bCommentSpansEol = false)
    (h : From { { st with bCommentSpansEol := true } with fp := dropLine (body ++ '*' :: '/' :: behind) } false
      (lineOf (body ++ '*' :: '/' :: behind)) dst lines) :
    From { st with fp := dropLine (body ++ '*' :: '/' :: behind) } first
      ('/' :: '*' :: lineOf (body ++ '*' :: '/' :: behind)) dst lines := by
  intro f hf
  cases f with
  | zero => cases hf
  | succ f =>
    have hgoes := h (f + 1) (by simp only [List.length_cons] at hf; omega)
    cases hline : lineOf (body ++ '*' :: '/' :: behind) with
    | nil =>
      have hhead := head_lineOf (body ++ '*' :: '/' :: behind)
      rw [hline] at hhead
      cases body with
      | nil => cases hhead
      | cons c body => cases hhead
    | cons c s =>
      rw [hline] at hgoes
      have hhead : ('*' :: c :: s).head? = some '*' := List.head?_cons
      unfold scan at hgoes ⊢
      rw [if_pos (.inl rfl)] at hgoes
      rw [if_pos (.inr ⟨rfl, hhead⟩)]
      simp only [hcomment, if_true, List.tail_cons] at hgoes ⊢
      exact hgoes

/-- A text up to its first newline. -/
theorem exists_line {s : Str} (h : s.count '\n' ≠ 0) :
    ∃ a b, s = a ++ '\n' :: b ∧ '\n' ∉ a ∧ s.count '\n' = b.count '\n' + 1 := by
  have hmem : '\n' ∈ s := List.count_pos_iff.1 (Nat.pos_of_ne_zero h)
  obtain ⟨a, b, rfl, ha⟩ := List.eq_append_cons_of_mem hmem
  refine ⟨a, b, rfl, ha, ?_⟩
  rw [List.count_append, List.count_cons_self, List.count_eq_zero_of_not_mem ha, Nat.zero_add]

/-- **Over a comment**, from behind its start or from the start of one of its lines. -/
theorem from_comment {body behind : Str} (hend : skipComment (body ++ ['*', '/']) = some [])
    (hcomment : st.bCommentSpansEol = true) (hrep : st.bRepositionToLineStart = false)
    (hshort : ShortLines (body ++ '*' :: '/' :: behind))
    (hfits : ∀ l ∈ (commentLines dst (body.count '\n')).1, l.length < lineSize)
    (h : At { st with bCommentSpansEol := false } false behind (commentLines dst (body.count '\n')).2 lines) :
    From { st with fp := dropLine (body ++ '*' :: '/' :: behind) } first (lineOf (body ++ '*' :: '/' :: behind)) dst
      ((commentLines dst (body.count '\n')).1 ++ lines) := by
  generalize hn : body.count '\n' = n at h hfits ⊢
  induction n generalizing body dst first with
  | zero =>
    have hbody : '\n' ∉ body := List.count_eq_zero.1 hn
    obtain ⟨h1, h2⟩ := lineOf_append hbody ('*' :: '/' :: behind)
    have h3 : '\n' ∉ ['*', '/'] := by decide
    obtain ⟨h4, h5⟩ := lineOf_append h3 behind
    have hline : lineOf ('*' :: '/' :: behind) = '*' :: '/' :: lineOf behind := h4
    have hdrop : dropLine ('*' :: '/' :: behind) = dropLine behind := h5
    rw [h1, h2, hline, hdrop]
    exact from_commentEnd hend hcomment h
  | succ n ih =>
    obtain ⟨a, b, rfl, ha, hcount⟩ := exists_line (s := body) (by omega)
    rw [List.append_assoc, List.cons_append] at hend
    obtain ⟨hnone, hrest⟩ := skipComment_line ha hend
    have hassoc : a ++ '\n' :: b ++ '*' :: '/' :: behind = a ++ '\n' :: (b ++ '*' :: '/' :: behind) := by
      rw [List.append_assoc, List.cons_append]
    rw [hassoc] at hshort
    rw [hassoc]
    obtain ⟨h1, h2⟩ := lineOf_append ha ('\n' :: (b ++ '*' :: '/' :: behind))
    obtain ⟨h3, h4⟩ := lineOf_newline (b ++ '*' :: '/' :: behind)
    have hshort' : ShortLines (b ++ '*' :: '/' :: behind) := fun s hs =>
      hshort s (hs.trans ((List.suffix_cons _ _).trans (List.suffix_append _ _)))
    have htail : b ++ '*' :: '/' :: behind ≠ [] := by simp
    rw [h1, h2, h3, h4]
    have hinner := @ih [] true b hrest hshort'
    have hlines : (commentLines dst (n + 1)).1 = dst :: (commentLines [] n).1 ∧
        (commentLines dst (n + 1)).2 = (commentLines [] n).2 := by
      cases n with
      | zero => exact ⟨rfl, rfl⟩
      | succ n => exact ⟨rfl, rfl⟩
    rw [hlines.1] at hfits
    rw [hlines.2] at h
    rw [hlines.1]
    have hloop := loop_of_from htail (hshort' _ (List.suffix_refl _))
      (hinner (by omega) h fun l hl => hfits l (List.mem_cons_of_mem dst hl))
    refine from_commentLine (by simp) hnone hcomment (hfits dst List.mem_cons_self) ?_
    exact calls_of_loop hrep hloop

/-! ## Pieces -/

/-- What a piece does with the members: the first expansion of a statement sets the width. -/
def CPreProcess.after (st : CPreProcess) : Piece → CPreProcess
  | .expansion _ elements => { st with expansionWidth := elements.length }
  | _ => st

theorem eol_cons {bEol : Bool} {body behind : Str} (hbody : '\n' ∉ body) (hlast : bEol = false → behind = []) :
    lineOf (body ++ eol bEol ++ behind) = body ++ eol bEol ∧ dropLine (body ++ eol bEol ++ behind) = behind := by
  rw [List.append_assoc]
  obtain ⟨h1, h2⟩ := lineOf_append hbody (eol bEol ++ behind)
  rw [h1, h2]
  cases bEol with
  | true => exact ⟨rfl, rfl⟩
  | false =>
    obtain rfl := hlast rfl
    exact ⟨rfl, rfl⟩

theorem at_char {c : Char} {behind : Str} (hp : (Piece.char c).Proper lineStart behind)
    (hcomment : st.bCommentSpansEol = false) (hrep : st.bRepositionToLineStart = false)
    (hdst : lineStart = true → dst = []) (hshort : (lineOf (c :: behind)).length < lineSize) {e : ℕ}
    (hfits : ∀ l ∈ ((Piece.char c).put e dst).1, l.length < lineSize)
    (h : At st (Piece.char c).endsLine behind ((Piece.char c).put e dst).2 lines) :
    At st lineStart (c :: behind) dst (((Piece.char c).put e dst).1 ++ lines) := by
  obtain ⟨hsemi, hquote, hslash⟩ := hp
  refine at_of_from (List.cons_ne_nil c behind) hshort hdst ?_
  by_cases hc : c = '\n'
  · subst hc
    have hloop : Loop { st with fp := behind } lines := And.right h
    have hcalls : Calls { st with fp := behind } lines := calls_of_loop hrep hloop
    refine from_char hcomment hsemi hquote (fun heq => absurd heq (by decide)) ?_
    exact from_endLine (hfits _ List.mem_cons_self) hcalls
  · obtain ⟨h1, h2⟩ := lineOf_cons hc behind
    have hends : (Piece.char c).endsLine = false := beq_eq_false_iff_ne.2 hc
    have hput : (Piece.char c).put e dst = ([], dst ++ [c]) := if_neg hc
    rw [hends, hput] at h
    rw [hput, h1, h2]
    refine from_char hcomment hsemi hquote (fun heq => ?_) h
    rw [head_lineOf]
    exact (hslash heq)

theorem at_lineComment {body behind : Str} {bEol : Bool} (hp : (Piece.lineComment body bEol).Proper lineStart behind)
    (hcomment : st.bCommentSpansEol = false) (hrep : st.bRepositionToLineStart = false)
    (hdst : lineStart = true → dst = [])
    (hshort : (lineOf ((Piece.lineComment body bEol).text ++ behind)).length < lineSize) (hfits : dst.length < lineSize)
    (h : At st true behind [] lines) : At st lineStart ((Piece.lineComment body bEol).text ++ behind) dst (dst :: lines) := by
  obtain ⟨hbody, hlast⟩ := hp
  obtain ⟨h1, h2⟩ := eol_cons hbody hlast
  have hslash : ('/' : Char) ≠ '\n' := by decide
  obtain ⟨h3, h4⟩ := lineOf_cons hslash ('/' :: (body ++ eol bEol ++ behind))
  obtain ⟨h5, h6⟩ := lineOf_cons hslash (body ++ eol bEol ++ behind)
  refine at_of_from (by simp [Piece.text]) hshort hdst ?_
  have hline : lineOf ((Piece.lineComment body bEol).text ++ behind) = '/' :: '/' :: (body ++ eol bEol) :=
    h3.trans (congrArg _ (h5.trans (congrArg _ h1)))
  have hdrop : dropLine ((Piece.lineComment body bEol).text ++ behind) = behind := h4.trans (h6.trans h2)
  rw [hline, hdrop]
  have hcalls : Calls { st with fp := behind } lines := calls_of_loop hrep h.2
  intro f hf
  cases f with
  | zero => cases hf
  | succ f =>
    have hne : ¬(st.bCommentSpansEol = true ∨ ('/' : Char) = '/' ∧ ('/' :: (body ++ eol bEol)).head? = some '*') := by
      rw [hcomment]
      rintro (hflag | ⟨_, hhead⟩)
      · cases hflag
      · exact absurd (Option.some.inj hhead) (by decide)
    unfold scan
    rw [if_neg hne, if_pos ⟨rfl, rfl⟩, endLine_fits hfits]
    exact ⟨lines, rfl, hcalls⟩

theorem at_directive {body behind : Str} {bEol : Bool} (hp : (Piece.directive body bEol).Proper lineStart behind)
    (hcomment : st.bCommentSpansEol = false) (hdst : lineStart = true → dst = [])
    (hshort : (lineOf ((Piece.directive body bEol).text ++ behind)).length < lineSize)
    (h : At st true behind dst lines) : At st lineStart ((Piece.directive body bEol).text ++ behind) dst lines := by
  obtain ⟨rfl, _, hbody, hlast⟩ := hp
  obtain ⟨h1, h2⟩ := eol_cons hbody hlast
  have hquote : backQuote ≠ '\n' := by decide
  obtain ⟨h3, h4⟩ := lineOf_cons hquote (body ++ eol bEol ++ behind)
  refine at_of_from (by simp [Piece.text]) hshort hdst ?_
  have hline : lineOf ((Piece.directive body bEol).text ++ behind) = backQuote :: (body ++ eol bEol) :=
    h3.trans (congrArg _ h1)
  have hdrop : dropLine ((Piece.directive body bEol).text ++ behind) = behind := h4.trans h2
  rw [hline, hdrop]
  intro f hf
  cases f with
  | zero => cases hf
  | succ f =>
    have hne : ¬(st.bCommentSpansEol = true ∨ backQuote = '/' ∧ (body ++ eol bEol).head? = some '*') := by
      rw [hcomment]
      rintro (hflag | ⟨hc, _⟩)
      · cases hflag
      · exact absurd hc (by decide)
    have hne' : ¬(backQuote = '/' ∧ (body ++ eol bEol).head? = some '/') := fun hc => absurd hc.1 (by decide)
    unfold scan
    rw [if_neg hne, if_neg hne', if_pos rfl, if_pos rfl]
    exact ⟨Nat.le_refl _, h.2⟩

/-- **An expansion** puts the element there that the index of the copy is for. -/
theorem at_expansion {src behind : Str} {elements : List Str}
    (hp : (Piece.expansion src elements).Proper lineStart behind) (hs : (Piece.expansion src elements).Scannable lineStart)
    (hcomment : st.bCommentSpansEol = false)
    (hshort : (lineOf ((Piece.expansion src elements).text ++ behind)).length < lineSize) {e : ℕ}
    (hwidth : st.expansionWidth = 0 ∨ st.expansionWidth = elements.length)
    (hindex : st.expansionIndex + e + 1 = elements.length)
    (h : At (st.after (.expansion src elements)) false behind (dst ++ elements.getD e []) lines) :
    At st lineStart ((Piece.expansion src elements).text ++ behind) dst lines := by
  obtain ⟨rfl, hsrc⟩ := hs
  obtain ⟨h1, h2⟩ := lineOf_append hsrc behind
  have hquote : backQuote ≠ '\n' := by decide
  have hbrace : ('{' : Char) ≠ '\n' := by decide
  obtain ⟨h3, h4⟩ := lineOf_cons hquote ('{' :: (src ++ behind))
  obtain ⟨h5, h6⟩ := lineOf_cons hbrace (src ++ behind)
  refine at_of_from (by simp [Piece.text]) hshort (fun hfalse => absurd hfalse Bool.false_ne_true) ?_
  have hline : lineOf ((Piece.expansion src elements).text ++ behind) = backQuote :: '{' :: (src ++ lineOf behind) :=
    h3.trans (congrArg _ (h5.trans (congrArg _ h1)))
  have hdrop : dropLine ((Piece.expansion src elements).text ++ behind) = dropLine behind := h4.trans (h6.trans h2)
  rw [hline, hdrop]
  intro f hf
  cases f with
  | zero => cases hf
  | succ f =>
    have hne : ¬(st.bCommentSpansEol = true ∨ backQuote = '/' ∧ ('{' :: (src ++ lineOf behind)).head? = some '*') := by
      rw [hcomment]
      rintro (hflag | ⟨hc, _⟩)
      · cases hflag
      · exact absurd hc (by decide)
    have hne' : ¬(backQuote = '/' ∧ ('{' :: (src ++ lineOf behind)).head? = some '/') := fun hc => absurd hc.1 (by decide)
    have hexpand : expandString ('{' :: (src ++ lineOf behind)).tail = .ok (lineOf behind) elements := hp (lineOf behind)
    have hnew : (if st.expansionWidth = 0 then elements.length else min st.expansionWidth elements.length) =
        elements.length := by
      rcases hwidth with hzero | hsame
      · rw [if_pos hzero]
      · split
        · rfl
        · rw [hsame, Nat.min_self]
    have hlt : st.expansionIndex < elements.length := by omega
    have helem : elements.length - 1 - st.expansionIndex = e := by omega
    have hhead : ('{' :: (src ++ lineOf behind)).head? = some '{' := List.head?_cons
    unfold scan
    rw [if_neg hne, if_neg hne', if_pos rfl, if_neg Bool.false_ne_true, if_pos hhead]
    simp only [hexpand, hnew, if_pos hlt, helem]
    refine h f ?_
    have hlen : (backQuote :: '{' :: (src ++ lineOf behind)).length = src.length + (lineOf behind).length + 2 := by simp
    omega

theorem at_comment {body behind : Str} (hp : (Piece.comment body).Proper lineStart behind)
    (hcomment : st.bCommentSpansEol = false) (hrep : st.bRepositionToLineStart = false)
    (hdst : lineStart = true → dst = []) (hshort : ShortLines ((Piece.comment body).text ++ behind)) {e : ℕ}
    (hfits : ∀ l ∈ ((Piece.comment body).put e dst).1, l.length < lineSize)
    (h : At st false behind ((Piece.comment body).put e dst).2 lines) :
    At st lineStart ((Piece.comment body).text ++ behind) dst (((Piece.comment body).put e dst).1 ++ lines) := by
  have hassoc : (Piece.comment body).text ++ behind = '/' :: '*' :: (body ++ '*' :: '/' :: behind) := by
    show '/' :: '*' :: (body ++ ['*', '/']) ++ behind = _
    simp
  rw [hassoc] at hshort ⊢
  have hslash : ('/' : Char) ≠ '\n' := by decide
  have hstar : ('*' : Char) ≠ '\n' := by decide
  obtain ⟨h3, h4⟩ := lineOf_cons hslash ('*' :: (body ++ '*' :: '/' :: behind))
  obtain ⟨h5, h6⟩ := lineOf_cons hstar (body ++ '*' :: '/' :: behind)
  have hshort' : ShortLines (body ++ '*' :: '/' :: behind) := fun s hs =>
    hshort s (hs.trans ((List.suffix_cons _ _).trans (List.suffix_cons _ _)))
  refine at_of_from (List.cons_ne_nil _ _) (hshort _ (List.suffix_refl _)) hdst ?_
  rw [h3, h4, h5, h6]
  have hbody : From { { st with bCommentSpansEol := true } with fp := dropLine (body ++ '*' :: '/' :: behind) } false
      (lineOf (body ++ '*' :: '/' :: behind)) dst (((Piece.comment body).put e dst).1 ++ lines) := by
    refine from_comment hp rfl hrep hshort' hfits ?_
    have hst : ({ { st with bCommentSpansEol := true } with bCommentSpansEol := false } : CPreProcess) = st := by
      rw [← hcomment]
    rw [hst]
    exact h
  exact from_commentStart hcomment hbody

/-- **Over a piece.** -/
theorem at_piece (p : Piece) {behind : Str} (hp : p.Proper lineStart behind) (hs : p.Scannable lineStart)
    (hcomment : st.bCommentSpansEol = false) (hrep : st.bRepositionToLineStart = false)
    (hdst : lineStart = true → dst = []) (hshort : ShortLines (p.text ++ behind)) {e : ℕ}
    (hwidth : ∀ src elements, p = .expansion src elements →
      (st.expansionWidth = 0 ∨ st.expansionWidth = elements.length) ∧ st.expansionIndex + e + 1 = elements.length)
    (hfits : ∀ l ∈ (p.put e dst).1, l.length < lineSize) (h : At (st.after p) p.endsLine behind (p.put e dst).2 lines) :
    At st lineStart (p.text ++ behind) dst ((p.put e dst).1 ++ lines) := by
  have hline := hshort _ (List.suffix_refl _)
  cases p with
  | char c => exact at_char hp hcomment hrep hdst hline hfits h
  | comment body => exact at_comment hp hcomment hrep hdst hshort hfits h
  | lineComment body bEol => exact at_lineComment hp hcomment hrep hdst hline (hfits dst List.mem_cons_self) h
  | expansion src elements =>
    obtain ⟨hw, hi⟩ := hwidth src elements rfl
    exact at_expansion hp hs hcomment hline hw hi h
  | directive body bEol => exact at_directive hp hcomment hdst hline h

/-- A piece that ends a line leaves nothing of it. -/
theorem put_endsLine {p : Piece} {behind : Str} (hp : p.Proper lineStart behind) (hdst : lineStart = true → dst = []) {e : ℕ}
    (h : p.endsLine = true) : (p.put e dst).2 = [] := by
  cases p with
  | char c =>
    have hc : c = '\n' := beq_iff_eq.1 h
    have hput : (Piece.char c).put e dst = ([dst ++ [c]], []) := if_pos hc
    rw [hput]
  | comment body => cases h
  | lineComment body bEol => rfl
  | expansion src elements => cases h
  | directive body bEol => exact hdst hp.1

/-- Nothing of a line is left at a first column. -/
theorem putAll_endsLine {ps : List Piece} {behind : Str} (hp : Proper lineStart ps behind)
    (hdst : lineStart = true → dst = []) {e : ℕ} (h : endsLine lineStart ps = true) : (putAll e dst ps).2 = [] := by
  induction ps generalizing lineStart dst with
  | nil => exact hdst h
  | cons p ps ih => exact ih hp.2 (put_endsLine hp.1 hdst) h

theorem after_keeps (p : Piece) : (st.after p).bCommentSpansEol = st.bCommentSpansEol ∧
    (st.after p).bRepositionToLineStart = st.bRepositionToLineStart ∧
    (st.after p).expansionIndex = st.expansionIndex ∧ (st.after p).statement = st.statement := by
  cases p <;> exact ⟨rfl, rfl, rfl, rfl⟩

theorem textOf_cons (p : Piece) (ps : List Piece) (behind : Str) :
    textOf (p :: ps) ++ behind = p.text ++ (textOf ps ++ behind) := by
  unfold textOf
  rw [List.flatMap_cons, List.append_assoc]

/-- **Over pieces.** -/
theorem at_pieces (ps : List Piece) {behind : Str} (hp : Proper lineStart ps behind) (hs : Scannable lineStart ps)
    (hcomment : st.bCommentSpansEol = false) (hrep : st.bRepositionToLineStart = false)
    (hdst : lineStart = true → dst = []) (hshort : ShortLines (textOf ps ++ behind)) {e w : ℕ}
    (huniform : ∀ src elements, Piece.expansion src elements ∈ ps → elements.length = w)
    (hwidth : st.expansionWidth = 0 ∨ st.expansionWidth = w) (hindex : st.expansionIndex + e + 1 = w)
    (hfits : ∀ l ∈ (putAll e dst ps).1, l.length < lineSize)
    (h : At (ps.foldl CPreProcess.after st) (endsLine lineStart ps) behind (putAll e dst ps).2 lines) :
    At st lineStart (textOf ps ++ behind) dst ((putAll e dst ps).1 ++ lines) := by
  induction ps generalizing st lineStart dst with
  | nil => exact h
  | cons p ps ih =>
    obtain ⟨hp1, hp2⟩ := hp
    obtain ⟨hs1, hs2⟩ := hs
    obtain ⟨hk1, hk2, hk3, _⟩ := @after_keeps st p
    have hlist : (putAll e dst (p :: ps)).1 = (p.put e dst).1 ++ (putAll e (p.put e dst).2 ps).1 := rfl
    rw [hlist] at hfits ⊢
    rw [textOf_cons] at hshort ⊢
    rw [List.append_assoc]
    have hone (src : Str) (elements : List Str) (heq : p = .expansion src elements) : elements.length = w :=
      huniform src elements (heq ▸ List.mem_cons_self)
    have hnext : (st.after p).expansionWidth = 0 ∨ (st.after p).expansionWidth = w := by
      cases p with
      | expansion src elements => exact .inr (hone src elements rfl)
      | _ => exact hwidth
    refine at_piece p hp1 hs1 hcomment hrep hdst hshort (fun src elements heq => ?_)
      (fun l hl => hfits l (List.mem_append_left _ hl)) ?_
    · rw [hone src elements heq]
      exact ⟨hwidth, hindex⟩
    · refine ih hp2 hs2 (hk1.trans hcomment) (hk2.trans hrep) (put_endsLine hp1 hdst)
        (fun s hsuf => hshort s (hsuf.trans (List.suffix_append _ _)))
        (fun src elements hmem => huniform src elements (List.mem_cons_of_mem p hmem)) hnext ?_
        (fun l hl => hfits l (List.mem_append_right _ hl)) h
      rw [hk3]
      exact hindex

/-! ## Statements -/

/-- The last copy of a statement is behind. -/
theorem at_nextStatement {behind : Str} (hcomment : st.bCommentSpansEol = false) (hdst : lineStart = true → dst = [])
    (hshort : (lineOf (';' :: behind)).length < lineSize)
    (hdone : st.expansionWidth = 0 ∨ st.expansionWidth = st.expansionIndex + 1)
    (h : At { st with statement := behind, expansionWidth := 0, expansionIndex := 0 } false behind (dst ++ [';']) lines) :
    At st lineStart (';' :: behind) dst lines := by
  have hsemi : (';' : Char) ≠ '\n' := by decide
  obtain ⟨h1, h2⟩ := lineOf_cons hsemi behind
  refine at_of_from (List.cons_ne_nil _ _) hshort hdst ?_
  rw [h1, h2]
  intro f hf
  cases f with
  | zero => cases hf
  | succ f =>
    have hgoes := h f (Nat.lt_of_succ_lt_succ hf)
    have hne : ¬(st.bCommentSpansEol = true ∨ (';' : Char) = '/' ∧ (lineOf behind).head? = some '*') := by
      rw [hcomment]
      rintro (hflag | ⟨hc, _⟩)
      · cases hflag
      · exact absurd hc (by decide)
    have hne' : ¬((';' : Char) = '/' ∧ (lineOf behind).head? = some '/') := fun hc => absurd hc.1 (by decide)
    have hquote : ¬(';' : Char) = backQuote := by decide
    unfold scan
    rw [if_neg hne, if_neg hne', if_neg hquote, if_pos rfl, if_pos hdone]
    dsimp only
    rw [lineOf_append_dropLine]
    exact hgoes

/-- The statement is read once more. -/
theorem at_sameStatement {behind : Str} (hcomment : st.bCommentSpansEol = false)
    (hrep : st.bRepositionToLineStart = false) (hdst : lineStart = true → dst = [])
    (hshort : (lineOf (';' :: behind)).length < lineSize)
    (hmore : ¬(st.expansionWidth = 0 ∨ st.expansionWidth = st.expansionIndex + 1))
    (hfits : (dst ++ [';']).length < lineSize)
    (h : At { st with expansionIndex := st.expansionIndex + 1 } true st.statement [] lines) :
    At st lineStart (';' :: behind) dst ((dst ++ [';']) :: lines) := by
  have hsemi : (';' : Char) ≠ '\n' := by decide
  obtain ⟨h1, h2⟩ := lineOf_cons hsemi behind
  refine at_of_from (List.cons_ne_nil _ _) hshort hdst ?_
  rw [h1, h2]
  intro f hf
  cases f with
  | zero => cases hf
  | succ f =>
    have hne : ¬(st.bCommentSpansEol = true ∨ (';' : Char) = '/' ∧ (lineOf behind).head? = some '*') := by
      rw [hcomment]
      rintro (hflag | ⟨hc, _⟩)
      · cases hflag
      · exact absurd hc (by decide)
    have hne' : ¬((';' : Char) = '/' ∧ (lineOf behind).head? = some '/') := fun hc => absurd hc.1 (by decide)
    have hquote : ¬(';' : Char) = backQuote := by decide
    unfold scan
    rw [if_neg hne, if_neg hne', if_neg hquote, if_pos rfl, if_neg hmore, endLine_fits hfits]
    refine ⟨lines, rfl, calls_of_reposition rfl ?_⟩
    have hloop := h.2
    simp only [hrep] at hloop
    exact hloop

theorem Proper.true {ps : List Piece} {behind : Str} (h : Proper lineStart ps behind) : Proper true ps behind := by
  cases ps with
  | nil => trivial
  | cons p ps =>
    obtain ⟨hp, hps⟩ := h
    refine ⟨?_, hps⟩
    cases p with
    | directive body bEol => exact ⟨rfl, hp.2⟩
    | _ => exact hp

theorem Scannable.of_or {ps : List Piece} {b : Bool} (h : Scannable (lineStart || b) ps) : Scannable lineStart ps := by
  cases ps with
  | nil => trivial
  | cons p ps =>
    obtain ⟨hp, hps⟩ := h
    refine ⟨?_, hps⟩
    cases p with
    | expansion src elements => exact ⟨(Bool.or_eq_false_iff.1 hp.1).1, hp.2⟩
    | _ => trivial

/-- The width that pieces leave. -/
theorem foldl_after (ps : List Piece) (st : CPreProcess) {w : ℕ}
    (huniform : ∀ src elements, Piece.expansion src elements ∈ ps → elements.length = w) :
    ∃ width, ps.foldl CPreProcess.after st = { st with expansionWidth := width } ∧
      ((∀ src elements, Piece.expansion src elements ∉ ps) → width = st.expansionWidth) ∧
      (width = w ∨ ∀ src elements, Piece.expansion src elements ∉ ps) := by
  induction ps generalizing st with
  | nil => exact ⟨st.expansionWidth, rfl, fun _ => rfl, .inr fun _ _ hmem => (nomatch hmem)⟩
  | cons p ps ih =>
    obtain ⟨width, hfold, hnone, hsome⟩ :=
      ih (st.after p) fun src elements hmem => huniform src elements (List.mem_cons_of_mem p hmem)
    refine ⟨width, ?_, fun hno => ?_, ?_⟩
    · rw [List.foldl_cons, hfold]
      cases p <;> rfl
    · rw [hnone fun src elements hmem => hno src elements (List.mem_cons_of_mem p hmem)]
      cases p with
      | expansion src elements => exact absurd List.mem_cons_self (hno src elements)
      | _ => rfl
    · rcases hsome with hw | hno
      · exact .inl hw
      · cases p with
        | expansion src elements =>
          have hlen := huniform src elements List.mem_cons_self
          exact .inl ((hnone hno).trans hlen)
        | _ =>
          refine .inr fun src elements hmem => ?_
          rcases List.mem_cons.1 hmem with heq | hmem
          · cases heq
          · exact hno src elements hmem

/-- **Over all copies of a statement** from the one with the elements `e` on. -/
theorem at_copies {body : List Piece} {behind : Str} {w e : ℕ} (hp : Proper lineStart body (';' :: behind))
    (hs : Scannable (lineStart || decide (2 ≤ w)) body) (hcomment : st.bCommentSpansEol = false)
    (hrep : st.bRepositionToLineStart = false) (hdst : lineStart = true → dst = [])
    (hshort : ShortLines (textOf body ++ ';' :: behind))
    (huniform : ∀ src elements, Piece.expansion src elements ∈ body → elements.length = w)
    (hone : (∀ src elements, Piece.expansion src elements ∉ body) → w = 1)
    (hstatement : st.statement = textOf body ++ ';' :: behind)
    (hwidth : st.expansionWidth = 0 ∨ st.expansionWidth = w) (hindex : st.expansionIndex + e + 1 = w)
    (hfits : ∀ l ∈ (putCopies body e dst).1, l.length < lineSize)
    (h : At { st with statement := behind, expansionWidth := 0, expansionIndex := 0 } false behind
      (putCopies body e dst).2 lines) :
    At st lineStart (textOf body ++ ';' :: behind) dst ((putCopies body e dst).1 ++ lines) := by
  induction e generalizing st lineStart dst with
  | zero =>
    obtain ⟨width, hfold, hnone, hw⟩ := foldl_after body st huniform
    refine at_pieces body hp hs.of_or hcomment hrep hdst hshort huniform hwidth hindex hfits ?_
    rw [hfold]
    refine at_nextStatement hcomment (fun hends => ?_) (hshort _ (List.suffix_append _ _)) ?_ h
    · exact putAll_endsLine hp hdst hends
    · -- a statement without expansions has one copy
      show width = 0 ∨ width = st.expansionIndex + 1
      rcases hw with hw | hno
      · omega
      · have hkept := hnone hno
        omega
  | succ e ih =>
    obtain ⟨width, hfold, _, hw⟩ := foldl_after body st huniform
    have hlist : (putCopies body (e + 1) dst).1 = (putAll (e + 1) dst body).1 ++
        ((putAll (e + 1) dst body).2 ++ [';']) :: (putCopies body e []).1 := rfl
    have hsame : width = w := by
      rcases hw with hw | hno
      · exact hw
      · have := hone hno
        omega
    rw [hlist] at hfits ⊢
    rw [List.append_assoc]
    refine at_pieces body hp hs.of_or hcomment hrep hdst hshort huniform hwidth hindex
      (fun l hl => hfits l (List.mem_append_left _ hl)) ?_
    rw [hfold]
    refine at_sameStatement hcomment hrep (fun hends => ?_) (hshort _ (List.suffix_append _ _)) ?_
      (hfits _ (List.mem_append_right _ List.mem_cons_self)) ?_
    · exact putAll_endsLine hp hdst hends
    · show ¬(width = 0 ∨ width = st.expansionIndex + 1)
      omega
    · have htwo : decide (2 ≤ w) = true := decide_eq_true (by omega)
      rw [htwo, Bool.or_true] at hs
      have hcopies : At { st with expansionWidth := width, expansionIndex := st.expansionIndex + 1 } true
          (textOf body ++ ';' :: behind) [] ((putCopies body e []).1 ++ lines) :=
        ih hp.true hs hcomment hrep (fun _ => rfl) hstatement (.inr hsame) (by dsimp only; omega)
          (fun l hl => hfits l (List.mem_append_right _ (List.mem_cons_of_mem _ hl))) h
      rw [← hstatement] at hcopies
      exact hcopies

/-- **Over all statements.** -/
theorem at_statements (ss : List Statement) {last : List Piece} (hp : ProperFrom lineStart ss last)
    (hs : ScannableFrom lineStart ss) (hcomment : st.bCommentSpansEol = false)
    (hrep : st.bRepositionToLineStart = false) (hdst : lineStart = true → dst = [])
    (hshort : ShortLines (ss.flatMap Statement.text ++ textOf last))
    (hstatement : st.statement = ss.flatMap Statement.text ++ textOf last) (hwidth : st.expansionWidth = 0)
    (hindex : st.expansionIndex = 0) (hfits : ∀ l ∈ (putStatements dst ss).1, l.length < lineSize)
    (h : At { st with statement := textOf last, expansionWidth := 0, expansionIndex := 0 } (lineStart && ss.isEmpty)
      (textOf last) (putStatements dst ss).2 lines) :
    At st lineStart (ss.flatMap Statement.text ++ textOf last) dst ((putStatements dst ss).1 ++ lines) := by
  induction ss generalizing st lineStart dst with
  | nil =>
    have hst : { st with statement := textOf last, expansionWidth := 0, expansionIndex := 0 } = st := by
      obtain ⟨fp, statement, bComment, width, index, bRep⟩ := st
      obtain rfl : statement = textOf last := hstatement
      obtain rfl : width = 0 := hwidth
      obtain rfl : index = 0 := hindex
      rfl
    rw [hst, List.isEmpty_nil, Bool.and_true] at h
    exact h
  | cons s ss ih =>
    obtain ⟨hp1, hp2⟩ := hp
    obtain ⟨hs1, hs2⟩ := hs
    have htext : (s :: ss).flatMap Statement.text ++ textOf last =
        textOf s.body ++ ';' :: (ss.flatMap Statement.text ++ textOf last) := by
      rw [List.flatMap_cons, Statement.text, List.append_assoc, List.append_assoc, List.singleton_append]
    have hlist : (putStatements dst (s :: ss)).1 = (putCopies s.body (s.count - 1) dst).1 ++
        (putStatements (putCopies s.body (s.count - 1) dst).2 ss).1 := rfl
    rw [htext] at hshort hstatement ⊢
    rw [hlist] at hfits ⊢
    rw [List.append_assoc]
    have hpos := s.pos
    have hfalse : (lineStart && (s :: ss).isEmpty) = false := by rw [List.isEmpty_cons, Bool.and_false]
    rw [hfalse] at h
    refine at_copies hp1 hs1 hcomment hrep hdst hshort s.uniform s.one hstatement (.inl hwidth) (by omega)
      (fun l hl => hfits l (List.mem_append_left _ hl)) ?_
    exact ih hp2 hs2 hcomment hrep (fun hfalse => absurd hfalse Bool.false_ne_true)
      (fun t ht => hshort t (ht.trans ((List.suffix_cons _ _).trans (List.suffix_append _ _)))) rfl rfl rfl
      (fun l hl => hfits l (List.mem_append_right _ hl)) h

/-- The end of the file. -/
theorem at_eof (hrep : st.bRepositionToLineStart = false) (hdst : lineStart = true → dst = [])
    (hfits : ∀ l ∈ lastLine lineStart dst, l.length < lineSize) : At st lineStart [] dst (lastLine lineStart dst) := by
  have hloop : Loop { st with fp := [] } [] := by
    intro f hf
    cases f with
    | zero => cases hf
    | succ f => exact rfl
  cases lineStart with
  | true => exact ⟨hdst rfl, hloop⟩
  | false => exact from_endLine (hfits dst List.mem_cons_self) (calls_of_loop hrep hloop)

/-! ## The delivered text -/

theorem flatten_put (p : Piece) (e : ℕ) (dst : Str) :
    (p.put e dst).1.flatten ++ (p.put e dst).2 = dst ++ p.copy e := by
  cases p with
  | char c =>
    by_cases hc : c = '\n'
    · have hput : (Piece.char c).put e dst = ([dst ++ [c]], []) := if_pos hc
      rw [hput, List.flatten_singleton, List.append_nil]
      rfl
    · have hput : (Piece.char c).put e dst = ([], dst ++ [c]) := if_neg hc
      rw [hput]
      rfl
  | comment body =>
    show (commentLines dst (body.count '\n')).1.flatten ++ (commentLines dst (body.count '\n')).2 = dst ++ []
    cases body.count '\n' with
    | zero => simp [commentLines]
    | succ n => simp [commentLines]
  | lineComment body bEol => simp [Piece.put, Piece.copy]
  | expansion src elements => simp [Piece.put, Piece.copy]
  | directive body bEol => simp [Piece.put, Piece.copy]

theorem flatten_putAll (ps : List Piece) (e : ℕ) (dst : Str) :
    (putAll e dst ps).1.flatten ++ (putAll e dst ps).2 = dst ++ ps.flatMap (Piece.copy e) := by
  induction ps generalizing dst with
  | nil => exact (List.append_nil dst).symm
  | cons p ps ih =>
    show ((p.put e dst).1 ++ (putAll e (p.put e dst).2 ps).1).flatten ++ (putAll e (p.put e dst).2 ps).2 = _
    rw [List.flatten_append, List.append_assoc, ih, ← List.append_assoc, flatten_put, List.flatMap_cons,
      List.append_assoc]

theorem flatten_putCopies (body : List Piece) (e : ℕ) (dst : Str) :
    (putCopies body e dst).1.flatten ++ (putCopies body e dst).2 =
      dst ++ (List.range (e + 1)).flatMap fun k => body.flatMap (Piece.copy (e - k)) ++ [';'] := by
  induction e generalizing dst with
  | zero =>
    show (putAll 0 dst body).1.flatten ++ ((putAll 0 dst body).2 ++ [';']) = _
    rw [← List.append_assoc, flatten_putAll, List.append_assoc]
    simp
  | succ e ih =>
    show ((putAll (e + 1) dst body).1 ++ ((putAll (e + 1) dst body).2 ++ [';']) :: (putCopies body e []).1).flatten ++
      (putCopies body e []).2 = _
    rw [List.range_succ_eq_map, List.flatMap_cons, List.flatMap_map]
    have hshift : (List.range (e + 1)).flatMap (fun k => body.flatMap (Piece.copy (e + 1 - k.succ)) ++ [';']) =
        (List.range (e + 1)).flatMap fun k => body.flatMap (Piece.copy (e - k)) ++ [';'] := by
      simp only [Nat.succ_eq_add_one, Nat.add_sub_add_right]
    rw [hshift, List.flatten_append, List.flatten_cons, List.append_assoc, List.append_assoc, ih, List.nil_append,
      ← List.append_assoc, ← List.append_assoc, flatten_putAll, Nat.sub_zero]
    simp only [List.append_assoc]

theorem flatten_putStatements (ss : List Statement) (dst : Str) :
    (putStatements dst ss).1.flatten ++ (putStatements dst ss).2 = dst ++ ss.flatMap Statement.copies := by
  induction ss generalizing dst with
  | nil => exact (List.append_nil dst).symm
  | cons s ss ih =>
    show ((putCopies s.body (s.count - 1) dst).1 ++ (putStatements (putCopies s.body (s.count - 1) dst).2 ss).1).flatten ++
      (putStatements (putCopies s.body (s.count - 1) dst).2 ss).2 = _
    have hpos : s.count - 1 + 1 = s.count := Nat.sub_add_cancel s.pos
    rw [List.flatten_append, List.append_assoc, ih, ← List.append_assoc, flatten_putCopies, hpos, List.flatMap_cons,
      List.append_assoc]
    rfl

theorem ProperFrom.last {ss : List Statement} {last : List Piece} (h : ProperFrom lineStart ss last) :
    Proper (lineStart && ss.isEmpty) last [] := by
  induction ss generalizing lineStart with
  | nil =>
    rw [List.isEmpty_nil, Bool.and_true]
    exact h
  | cons s ss ih =>
    have hlast := ih h.2
    rw [List.isEmpty_cons, Bool.and_false]
    exact hlast

/-- At the start of the file no line has been started. -/
theorem putStatements_isEmpty {ss : List Statement} (h : ss.isEmpty = true) : (putStatements [] ss).2 = [] := by
  cases ss with
  | nil => rfl
  | cons s ss => cases h

/-- The lines are those of the expected text. -/
theorem flatten_lines (src : Source) (hp : ProperFrom true src.statements src.last) : src.lines.flatten = src.expected := by
  have hlast (b : Bool) (dst : Str) (hb : b = true → dst = []) : (lastLine b dst).flatten = dst := by
    cases b with
    | true => exact (hb rfl).symm
    | false => exact List.flatten_singleton
  have hempty : endsLine src.statements.isEmpty src.last = true →
      (putAll 0 (putStatements [] src.statements).2 src.last).2 = [] :=
    putAll_endsLine hp.last putStatements_isEmpty
  unfold Source.lines Source.expected
  dsimp only
  rw [List.flatten_append, List.flatten_append, hlast _ _ hempty, List.append_assoc, flatten_putAll,
    ← List.append_assoc, flatten_putStatements, List.nil_append]

theorem scannable_plain {ps : List Piece} (h : ∀ src elements, Piece.expansion src elements ∉ ps) :
    Scannable lineStart ps := by
  induction ps generalizing lineStart with
  | nil => trivial
  | cons p ps ih =>
    refine ⟨?_, ih fun src elements hmem => h src elements (List.mem_cons_of_mem p hmem)⟩
    cases p with
    | expansion src elements => exact absurd List.mem_cons_self (h src elements)
    | _ => trivial

theorem shortLines_of_length {text : Str} (h : text.length < lineSize) : ShortLines text := by
  intro s hs
  have hline := congrArg List.length (lineOf_append_dropLine s)
  rw [List.length_append] at hline
  have hlen := hs.length_le
  omega

/-- The expansion of `x,y`. -/
def listXY : Piece := .expansion ['x', ',', 'y', '}'] [['x'], ['y']]

theorem listXY_proper (lineStart : Bool) (behind : Str) : listXY.Proper lineStart behind := fun _ => rfl

/-- A statement that has a text before its expansion. -/
def inLine : Statement where
  body := [.char 'a', listXY]
  count := 2
  pos := Nat.two_pos
  uniform := by
    intro src elements hmem
    rcases List.mem_cons.1 hmem with heq | hmem
    · cases heq
    · cases List.mem_singleton.1 hmem
      rfl
  one h := absurd (List.mem_cons_of_mem _ List.mem_cons_self) (h ['x', ',', 'y', '}'] [['x'], ['y']])

/-- The statement `a`, and one that starts with its expansion. -/
def atStart : Source where
  statements := [⟨[.char 'a'], 1, Nat.one_pos, fun _ _ h => (nomatch List.mem_singleton.1 h), fun _ => rfl⟩,
    ⟨[listXY], 2, Nat.two_pos, fun _ _ h => by cases List.mem_singleton.1 h; rfl,
      fun h => absurd List.mem_cons_self (h ['x', ',', 'y', '}'] [['x'], ['y']])⟩]
  last := []
  plain _ _ h := (nomatch h)

end OpenHT.Vex
