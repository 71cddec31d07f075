import OpenHT.Vex.PreProcess
import Mathlib.Data.Prod.Lex

/-!
# The preprocessor comes to the end of its file

`GetLine` goes back to the start of a statement, so the length of the file alone does not bound its calls.

* `Sound`: the statement does not start behind the position in the file, and `m_expansionIndex` is an index.
* `rank`: what is left of the statement and of the file behind it, the copies that are still to come, and the position.
* `getLine_spec`: a line takes the rank down.
-/

namespace OpenHT.Vex

/-- What holds of the members between two calls. -/
structure Sound (st : CPreProcess) : Prop where
  statement : st.fp.length ≤ st.statement.length
  index : st.expansionWidth = 0 → st.expansionIndex = 0
  width : st.expansionWidth ≠ 0 → st.expansionIndex < st.expansionWidth

abbrev Rank : Type := ℕ ×ₗ ℕ ×ₗ ℕ ×ₗ ℕ

/-- The rank at a position. Before its first expansion a statement has any number of copies. -/
def rankAt (st : CPreProcess) (pos : ℕ) : Rank :=
  toLex (st.statement.length, toLex (if st.expansionWidth = 0 then 1 else 0,
    toLex (st.expansionWidth - st.expansionIndex, pos)))

def rank (st : CPreProcess) : Rank :=
  rankAt st (if st.bRepositionToLineStart then st.statement.length else st.fp.length)

theorem toLex_lt {α β : Type} [LT α] [LT β] {a b : α × β} : toLex a < toLex b ↔ a.1 < b.1 ∨ a.1 = b.1 ∧ a.2 < b.2 :=
  Prod.Lex.toLex_lt_toLex

theorem rankAt_lt {st st' : CPreProcess} {pos pos' : ℕ} : rankAt st' pos' < rankAt st pos ↔
    st'.statement.length < st.statement.length ∨ st'.statement.length = st.statement.length ∧
      ((if st'.expansionWidth = 0 then 1 else 0) < (if st.expansionWidth = 0 then 1 else 0) ∨
        (if st'.expansionWidth = 0 then 1 else 0) = (if st.expansionWidth = 0 then 1 else 0) ∧
          (st'.expansionWidth - st'.expansionIndex < st.expansionWidth - st.expansionIndex ∨
            st'.expansionWidth - st'.expansionIndex = st.expansionWidth - st.expansionIndex ∧ pos' < pos)) := by
  unfold rankAt
  rw [toLex_lt, toLex_lt, toLex_lt]

/-- Members in the middle of a line. -/
structure InLine (st : CPreProcess) (src : Str) : Prop where
  statement : src.length + st.fp.length ≤ st.statement.length
  index : st.expansionWidth = 0 → st.expansionIndex = 0
  width : st.expansionWidth ≠ 0 → st.expansionIndex < st.expansionWidth
  atLine : st.bRepositionToLineStart = false

theorem InLine.rest {st : CPreProcess} {src src' : Str} (h : InLine st src) (hle : src'.length ≤ src.length) :
    InLine st src' := ⟨Nat.le_trans (Nat.add_le_add_right hle _) h.statement, h.index, h.width, h.atLine⟩

/-- A flag of the members does not count. -/
theorem InLine.comment {st : CPreProcess} {src : Str} (h : InLine st src) (b : Bool) :
    InLine { st with bCommentSpansEol := b } src := ⟨h.statement, h.index, h.width, h.atLine⟩

/-- How a line ends, where `n` characters stand behind it. -/
def Scans (pos : Rank) (n : ℕ) : Scanned → Prop
  | .line _ st' => Sound st' ∧ rank st' ≤ pos
  | .dropped st' => Sound st' ∧ rank st' ≤ pos ∧ st'.bRepositionToLineStart = false ∧ st'.fp.length ≤ n
  | .undef => True
  | .fuel => False

theorem Scans.mono {pos pos' : Rank} {n : ℕ} (hle : pos ≤ pos') {r : Scanned} (h : Scans pos n r) :
    Scans pos' n r := by
  cases r with
  | line t st => exact ⟨h.1, le_trans h.2 hle⟩
  | dropped st => exact ⟨h.1, le_trans h.2.1 hle, h.2.2⟩
  | undef => trivial
  | fuel => exact h

theorem scans_endLine {st : CPreProcess} {dst : Str} {pos : Rank} {n : ℕ} (h : Sound st) (hle : rank st ≤ pos) :
    Scans pos n (endLine st dst) := by
  unfold endLine
  split
  · trivial
  · exact ⟨h, hle⟩

theorem InLine.sound {st : CPreProcess} {src : Str} (h : InLine st src) : Sound st :=
  ⟨Nat.le_trans (Nat.le_add_left ..) h.statement, h.index, h.width⟩

theorem InLine.rank_eq {st : CPreProcess} {src : Str} (h : InLine st src) : rank st = rankAt st st.fp.length := by
  rw [rank, h.atLine, if_neg Bool.false_ne_true]

theorem skipComment_length {s s' : Str} (h : skipComment s = some s') : s'.length < s.length := by
  induction s with
  | nil => cases h
  | cons c s ih =>
    rw [List.length_cons]
    unfold skipComment at h
    split at h
    · cases h
      have htail := List.length_tail (l := s)
      omega
    · exact Nat.lt_succ_of_lt (ih h)

/-! ## Errors in expansions -/

theorem skipToRBrace_length (s : Str) : (skipToRBrace s).length ≤ s.length := by
  induction s with
  | nil => exact Nat.le_refl _
  | cons c s ih =>
    unfold skipToRBrace
    split
    · exact Nat.le_succ _
    · exact Nat.le_succ_of_le ih

theorem expandCount_error {base incBase inc incDiv : Int} {src s : Str} {list : List Str}
    (h : expandCount base incBase inc incDiv src list = .error s) : s.length ≤ src.length := by
  have hskip := skipToRBrace_length src
  unfold expandCount at h
  split at h
  · cases h
    exact hskip
  · split at h
    · cases h
    · next src₁ hnum =>
      have hle := getNum_length hnum
      have hskip := skipToRBrace_length src₁
      split at h
      · cases h
        omega
      · split at h
        · cases h
        · cases h
          omega
        · cases h

theorem expandRange_error {base : Int} {src s : Str} {list : List Str} (h : expandRange base src list = .error s) :
    s.length ≤ src.length := by
  have hskip := skipToRBrace_length src
  unfold expandRange at h
  split at h
  · cases h
    exact hskip
  · split at h
    · cases h
    · next hnums =>
      have hle := rangeNums_length hnums
      split at h
      · cases h
      · next src₁ =>
        have hskip := skipToRBrace_length src₁
        rw [List.length_cons] at hle
        split at h
        · have herr := expandCount_error h
          omega
        · cases h
          omega

theorem expandConst_error {width : ℕ} {src s : Str} {list : List Str} (h : expandConst width src list = .error s) :
    s.length ≤ src.length := by
  unfold expandConst at h
  split at h
  · cases h
  · next c src₁ =>
    have hskip := skipToRBrace_length src₁
    rw [List.length_cons]
    split at h
    · cases h
      omega
    · simp only at h
      split at h
      · cases h
      · cases h

theorem expandPrefix_error {expand : Str → List Str → Parsed}
    (hok : ∀ src list s l, expand src list = .ok s l → s.length ≤ src.length)
    (herror : ∀ src list s, expand src list = .error s → s.length ≤ src.length) {src s : Str} {list : List Str}
    (h : expandPrefix expand src list = .error s) : s.length ≤ src.length := by
  unfold expandPrefix at h
  split at h
  · cases h
  · split at h
    · cases h
    · cases h
    · next base c s₁ hnum =>
      have hle := getNum_length hnum
      rw [List.length_cons] at hle
      split at h
      · have herr := expandRange_error h
        omega
      · split at h
        · unfold expandReplication at h
          split at h
          · next src₂ list₂ hexp =>
            have hexp := hok _ _ _ _ hexp
            have hskip := skipToRBrace_length src₂
            split at h
            · cases h
              omega
            · cases h
          · next src₂ hexp =>
            cases h
            have hexp := herror _ _ _ hexp
            omega
          · cases h
          · cases h
        · split at h
          · have herr := expandConst_error h
            omega
          · cases h

/-- Behind an error the text is not longer either. -/
theorem expand_error (f : ℕ) :
    (∀ src list s, expandItems f src list = .error s → s.length ≤ src.length) ∧
      ∀ src list startIdx expCount buf s, expandText f src list startIdx expCount buf = .error s →
        s.length ≤ src.length := by
  induction f with
  | zero => exact ⟨fun _ _ _ h => Parsed.noConfusion h, fun _ _ _ _ _ _ h => Parsed.noConfusion h⟩
  | succ f ih =>
    obtain ⟨ihitems, ihtext⟩ := ih
    obtain ⟨hitems, htext⟩ := expand_length f
    have hok (src : Str) (list : List Str) (s : Str) (l : List Str) (h : expandItems f src list = .ok s l) :
        s.length ≤ src.length := Nat.le_of_lt (hitems src list s l h)
    constructor
    · intro src list s h
      have hskip := skip_length src (· = ' ')
      rw [expandItems] at h
      split at h
      · next hprefix =>
        cases h
        have herr := expandPrefix_error hok ihitems hprefix
        omega
      · cases h
      · cases h
      · next expCount src₁ list₁ hprefix =>
        have hle := expandPrefix_length hok hprefix
        split at h
        · cases h
          exact Nat.zero_le _
        · next c src₂ list₂ htext₂ =>
          have hle₂ := htext _ _ _ _ _ _ _ htext₂
          rw [List.length_cons] at hle₂
          split at h
          · have herr := ihitems _ _ _ h
            omega
          · cases h
        · next htext₂ =>
          cases h
          have herr := ihtext _ _ _ _ _ _ htext₂
          omega
        · cases h
        · cases h
    · intro src list startIdx expCount buf s h
      rw [expandText.eq_def] at h
      simp only at h
      split at h
      · cases h
      · split at h
        · split at h <;> cases h
        · next c src₁ =>
          rw [List.length_cons]
          split at h
          · split at h
            · next src₂ list₂ hitems₂ =>
              have hlt := hitems _ _ _ _ hitems₂
              have hskip := skipToRBrace_length src₂
              split at h
              · have herr := ihtext _ _ _ _ _ _ h
                omega
              · split at h
                · cases h
                  omega
                · split at h
                  · cases h
                  · have herr := ihtext _ _ _ _ _ _ h
                    omega
            · next hitems₂ =>
              cases h
              have herr := ihitems _ _ _ hitems₂
              omega
            · cases h
            · cases h
          · split at h
            · split at h <;> cases h
            · have herr := ihtext _ _ _ _ _ _ h
              omega

/-! ## Lines -/

/-- An expansion only lowers the number of copies. -/
theorem rankAt_width {st : CPreProcess} {w pos : ℕ} (hindex : st.expansionIndex < w)
    (hw : st.expansionWidth ≠ 0 → w ≤ st.expansionWidth) :
    rankAt { st with expansionWidth := w } pos ≤ rankAt st pos := by
  have hw0 : w ≠ 0 := by omega
  rw [← not_lt, rankAt_lt]
  dsimp only
  rw [if_neg hw0]
  by_cases hwidth : st.expansionWidth = 0
  · rw [if_pos hwidth]
    omega
  · have hle := hw hwidth
    rw [if_neg hwidth]
    omega

theorem InLine.expand {st : CPreProcess} {src : Str} {w : ℕ} (h : InLine st src) (hindex : st.expansionIndex < w) :
    InLine { st with expansionWidth := w } src where
  statement := h.statement
  index hzero := by
    have hw : w = 0 := hzero
    omega
  width _ := hindex
  atLine := h.atLine

/-- The end of a statement with another copy to come. -/
theorem scans_again {st : CPreProcess} {src dst : Str} {pos : ℕ} (h : InLine st src) (hwidth : st.expansionWidth ≠ 0)
    (hlast : st.expansionWidth ≠ st.expansionIndex + 1) : Scans (rankAt st pos) st.fp.length
      (endLine { st with expansionIndex := st.expansionIndex + 1, bRepositionToLineStart := true } dst) := by
  have hindex := h.width hwidth
  apply scans_endLine
  · exact ⟨h.sound.statement, fun hzero => absurd hzero hwidth, fun _ => by dsimp only; omega⟩
  · apply le_of_lt
    rw [rank, rankAt_lt]
    dsimp only
    omega

/-- The end of the last copy. -/
theorem rankAt_nextStatement {st : CPreProcess} {src : Str} {c : Char} {pos pos' : ℕ} (h : InLine st (c :: src)) :
    rankAt { st with statement := src ++ st.fp, expansionWidth := 0, expansionIndex := 0 } pos' ≤ rankAt st pos := by
  have hle := h.statement
  rw [List.length_cons] at hle
  apply le_of_lt
  rw [rankAt_lt]
  dsimp only
  rw [List.length_append]
  omega

/-- **The loop over a line** does not take the rank up. -/
theorem scan_spec (f : ℕ) {first : Bool} {st : CPreProcess} {src dst : Str} (hf : src.length < f) (h : InLine st src) :
    Scans (rankAt st st.fp.length) st.fp.length (scan f first st src dst) := by
  induction f generalizing first st src dst with
  | zero => cases hf
  | succ f ih =>
    cases src with
    | nil => exact scans_endLine h.sound (le_of_eq h.rank_eq)
    | cons c src =>
      have hlen : (c :: src).length = src.length + 1 := rfl
      have htail := List.length_tail (l := src)
      unfold scan
      split
      · -- in a comment the line may end
        split
        · have hcomment := h.comment true
          exact scans_endLine hcomment.sound (le_of_eq hcomment.rank_eq)
        · next src' hskip =>
          have hlt : src'.length < (c :: src).length := by
            have hlt := skipComment_length hskip
            split at hlt <;> omega
          exact ih (by omega) ((h.comment false).rest (by omega))
      · split
        · exact scans_endLine h.sound (le_of_eq h.rank_eq)
        · split
          · split
            · exact ⟨h.sound, le_of_eq h.rank_eq, h.atLine, Nat.le_refl _⟩
            · split
              · split
                · next src' list hexp =>
                  have hlt := (expand_length _).1 _ _ _ _ hexp
                  dsimp only
                  generalize hw : (if st.expansionWidth = 0 then list.length else min st.expansionWidth list.length) = w
                  split
                  · next hindex =>
                    have hrest : InLine { st with expansionWidth := w } src' := (h.expand hindex).rest (by omega)
                    refine (ih (by omega) hrest).mono (rankAt_width hindex fun hwidth => ?_)
                    rw [if_neg hwidth] at hw
                    omega
                  · trivial
                · next src' hexp =>
                  have hle := (expand_error _).1 _ _ _ hexp
                  exact ih (by omega) (h.rest (by omega))
                · trivial
                · next hexp => exact expandString_ends _ hexp
              · split
                · trivial
                · next d src' _ _ _ =>
                  have hlen' : (d :: src').length = src'.length + 1 := rfl
                  exact ih (by omega) (h.rest (by omega))
          · split
            · split
              · have hle := h.statement
                have hrest :
                    InLine { st with statement := src ++ st.fp, expansionWidth := 0, expansionIndex := 0 } src :=
                  ⟨by rw [List.length_append], fun _ => rfl, fun hne => absurd rfl hne, h.atLine⟩
                exact (ih (by omega) hrest).mono (rankAt_nextStatement h)
              · next hend =>
                rw [not_or] at hend
                exact scans_again h hend.1 hend.2
            · exact ih (by omega) (h.rest (by omega))

theorem fgets_length (n : ℕ) (s : Str) : (fgets n s).1.length + (fgets n s).2.length = s.length := by
  induction n generalizing s with
  | zero => exact Nat.zero_add _
  | succ n ih =>
    cases s with
    | nil => rfl
    | cons c s =>
      unfold fgets
      split
      · exact Nat.add_comm 1 _
      · have hrest := ih s
        simp only [List.length_cons]
        omega

theorem fgets_pos {n : ℕ} {s : Str} (hs : s ≠ []) : (fgets (n + 1) s).1 ≠ [] := by
  cases s with
  | nil => exact absurd rfl hs
  | cons c s =>
    unfold fgets
    split
    · exact List.cons_ne_nil _ _
    · exact List.cons_ne_nil _ _

/-- How a call ends. -/
def Reads (pos : Rank) : GetLine → Prop
  | .line _ st' => Sound st' ∧ rank st' < pos
  | .eof | .undef => True
  | .fuel => False

theorem Reads.mono {pos pos' : Rank} (hle : pos ≤ pos') {r : GetLine} (h : Reads pos r) : Reads pos' r := by
  cases r with
  | line t st => exact ⟨h.1, lt_of_lt_of_le h.2 hle⟩
  | eof => trivial
  | undef => trivial
  | fuel => exact h

theorem readLine_spec (f : ℕ) {st : CPreProcess} (hf : st.fp.length < f) (h : Sound st)
    (hrep : st.bRepositionToLineStart = false) : Reads (rank st) (readLine f st) := by
  induction f generalizing st with
  | zero => cases hf
  | succ f ih =>
    unfold readLine
    split
    · trivial
    · next hfp =>
      have hlen := fgets_length 1023 st.fp
      have hpos : 0 < (fgets 1023 st.fp).1.length := List.length_pos_iff.2 (fgets_pos hfp)
      have hle := h.statement
      show Reads (rank st) (match scan ((fgets 1023 st.fp).1.length + 1) true { st with fp := (fgets 1023 st.fp).2 }
          (fgets 1023 st.fp).1 [] with
        | .line text st => .line text st
        | .dropped st => readLine f st
        | .undef => .undef
        | .fuel => .fuel)
      have hline : InLine { st with fp := (fgets 1023 st.fp).2 } (fgets 1023 st.fp).1 :=
        ⟨by dsimp only; omega, h.index, h.width, hrep⟩
      have hscan : Scans _ _ (scan ((fgets 1023 st.fp).1.length + 1) true { st with fp := (fgets 1023 st.fp).2 }
          (fgets 1023 st.fp).1 []) := scan_spec _ (Nat.lt_succ_self _) hline
      have hlt : rankAt { st with fp := (fgets 1023 st.fp).2 } (fgets 1023 st.fp).2.length < rank st := by
        rw [rank, hrep, if_neg Bool.false_ne_true, rankAt_lt]
        dsimp only
        omega
      split
      · next hline =>
        rw [hline] at hscan
        exact ⟨hscan.1, lt_of_le_of_lt hscan.2 hlt⟩
      · next st' hdrop =>
        rw [hdrop] at hscan
        obtain ⟨hsound, hrank, hrep, hfp⟩ := hscan
        have hfp : st'.fp.length ≤ (fgets 1023 st.fp).2.length := hfp
        exact (ih (by omega) hsound hrep).mono (le_of_lt (lt_of_le_of_lt hrank hlt))
      · trivial
      · next hfuel =>
        rw [hfuel] at hscan
        exact hscan

/-- **A line takes the rank down**, and there is always fuel enough to read one. -/
theorem getLine_spec {st : CPreProcess} (h : Sound st) : Reads (rank st) (getLine st) := by
  unfold getLine
  cases hrep : st.bRepositionToLineStart with
  | true =>
    rw [if_pos rfl]
    have hsound : Sound { st with fp := st.statement, bRepositionToLineStart := false } :=
      ⟨Nat.le_refl _, h.index, h.width⟩
    refine (readLine_spec _ (Nat.lt_succ_self _) hsound rfl).mono (le_of_eq ?_)
    rw [rank, rank, hrep, if_pos rfl]
    rfl
  | false =>
    rw [if_neg Bool.false_ne_true]
    exact readLine_spec _ (Nat.lt_succ_self _) h hrep

end OpenHT.Vex
