import Mathlib.Data.Int.Notation
import Mathlib.Data.Nat.Notation

/-!
# Line positions under macro expansion

`CLinePos` keeps, for the line that is preprocessed, a list of offset deltas that lead from a position of the
expanded text back to the file. A macro expansion is a `Delete` and an `Insert` at one position.

* `CLinePos`: the class, its list in the order of the source.
* `deltas_shiftFrom_right`, `deltas_shiftFrom_left`: what a change does to the positions on its two sides.
* `Replacement`, `expand`: what `PerformMacroExpansion` does to the text and to the positions.
* `follow`: where a character of the line is, until a replacement touches it.
* `get_input_file_offset_follow`: after any replacements.
-/

namespace OpenHT.Htfe.LinePos

structure CLinePosDelta where
  linePos : ℤ
  delta : ℤ
deriving DecidableEq, Repr

structure CLinePos where
  baseOffset : ℤ
  deltaList : List CLinePosDelta
deriving DecidableEq, Repr

/-- An entry after a change of `length` characters at `linePos`. -/
def CLinePosDelta.shift (linePos length : ℤ) (e : CLinePosDelta) : CLinePosDelta :=
  if e.linePos < linePos then e else { e with linePos := e.linePos + length }

/-- The loop of `Insert` and `Delete`: the new entry goes before the first one that is moved. -/
def shiftFrom (linePos length : ℤ) : List CLinePosDelta → List CLinePosDelta
  | [] => [⟨linePos, -length⟩]
  | e :: es =>
    if e.linePos < linePos then e :: shiftFrom linePos length es
    else ⟨linePos, -length⟩ :: (e :: es).map (.shift linePos length)

/-- The loop of `GetInputFileOffset`, which stops at the first entry after the position. -/
def deltas (linePos : ℤ) : List CLinePosDelta → ℤ
  | [] => 0
  | e :: es => if e.linePos ≤ linePos then e.delta + deltas linePos es else 0

namespace CLinePos

def setBaseOffset (baseOffset : ℤ) : CLinePos := ⟨baseOffset, []⟩

def insert (linePos length : ℤ) (s : CLinePos) : CLinePos :=
  { s with deltaList := shiftFrom linePos length s.deltaList }

def delete (linePos length : ℤ) (s : CLinePos) : CLinePos :=
  { s with deltaList := shiftFrom linePos (-length) s.deltaList }

def getInputFileOffset (s : CLinePos) (linePos : ℤ) : ℤ := s.baseOffset + linePos + deltas linePos s.deltaList

end CLinePos

section

variable {p q n : ℤ}

attribute [local simp] deltas shiftFrom

/-- **A change on the right** leaves the entries before a position alone. -/
theorem deltas_shiftFrom_right (hq : p < q) (es : List CLinePosDelta) :
    deltas p (shiftFrom q n es) = deltas p es := by
  have hnew : ¬q ≤ p := by omega
  induction es with
  | nil => exact if_neg hnew
  | cons e es ih =>
    by_cases he : e.linePos < q
    · rw [shiftFrom, if_pos he, deltas, deltas, ih]
    · -- the new entry stops the loop where the old one did
      have hold : ¬e.linePos ≤ p := by omega
      rw [shiftFrom, if_neg he, deltas, deltas, if_neg hnew, if_neg hold]

/-- The loop sees the same entries before the change and after it. -/
theorem deltas_map_shift (hq : q ≤ p) (hn : q ≤ p + n) (es : List CLinePosDelta) :
    deltas (p + n) (es.map (.shift q n)) = deltas p es := by
  induction es with
  | nil => rfl
  | cons e es ih =>
    have hle : (e.shift q n).linePos ≤ p + n ↔ e.linePos ≤ p := by
      unfold CLinePosDelta.shift
      split
      · omega
      · change e.linePos + n ≤ p + n ↔ e.linePos ≤ p
        omega
    have hdelta : (e.shift q n).delta = e.delta := by
      unfold CLinePosDelta.shift
      split <;> rfl
    rw [List.map_cons, deltas, deltas, ih, hdelta]
    by_cases he : e.linePos ≤ p
    · rw [if_pos he, if_pos (hle.2 he)]
    · rw [if_neg he, if_neg fun h => he (hle.1 h)]

/-- **A change on the left** is undone by its own entry. -/
theorem deltas_shiftFrom_left (hq : q ≤ p) (hn : q ≤ p + n) (es : List CLinePosDelta) :
    deltas (p + n) (shiftFrom q n es) = deltas p es - n := by
  induction es with
  | nil =>
    have hone : deltas (p + n) (shiftFrom q n []) = -n + 0 := if_pos hn
    rw [hone, deltas]
    omega
  | cons e es ih =>
    by_cases he : e.linePos < q
    · have hold : e.linePos ≤ p := by omega
      have hnew : e.linePos ≤ p + n := by omega
      rw [shiftFrom, if_pos he, deltas, if_pos hnew, ih, deltas, if_pos hold]
      omega
    · have hfirst : deltas (p + n) (shiftFrom q n (e :: es)) =
          -n + deltas (p + n) ((e :: es).map (.shift q n)) := by
        rw [shiftFrom, if_neg he]
        exact if_pos hn
      rw [hfirst, deltas_map_shift hq hn]
      omega

end

/-! ## Replacements -/

/-- A token of the text, where it starts and how long it is, and the text it is replaced by. -/
structure Replacement where
  startPos : ℕ
  length : ℕ
  expansion : List Char
deriving DecidableEq, Repr

/-- The line and the positions. -/
structure LineBuf where
  text : List Char
  linePos : CLinePos
deriving DecidableEq, Repr

/-- A line as it was read. -/
def LineBuf.read (baseOffset : ℤ) (line : List Char) : LineBuf := ⟨line, .setBaseOffset baseOffset⟩

/-- `lineBuf.replace`, `m_linePos.Delete` and `m_linePos.Insert`. -/
def Replacement.apply (r : Replacement) (b : LineBuf) : LineBuf where
  text := b.text.take r.startPos ++ r.expansion ++ b.text.drop (r.startPos + r.length)
  linePos := (b.linePos.delete r.startPos r.length).insert r.startPos r.expansion.length

/-- Replacements one after the other, each of a part of the text as it is then. -/
def expand : List Replacement → LineBuf → Option LineBuf
  | [], b => some b
  | r :: rs, b => if r.startPos + r.length ≤ b.text.length then expand rs (r.apply b) else none

/-- The position of a character after a replacement, `none` if it was part of the token. -/
def Replacement.follow (r : Replacement) (p : ℕ) : Option ℕ :=
  if p < r.startPos then some p
  else if p < r.startPos + r.length then none
  else some (p - r.length + r.expansion.length)

/-- The position of a character that no replacement touched. -/
def follow : List Replacement → ℕ → Option ℕ
  | [], p => some p
  | r :: rs, p => (r.follow p).bind (follow rs)

section

variable {r : Replacement} {b b' : LineBuf} {rs : List Replacement} {p p' i : ℕ}

/-- The text keeps the characters that are not replaced. -/
theorem Replacement.apply_text (hr : r.startPos + r.length ≤ b.text.length) (h : r.follow p = some p') :
    (r.apply b).text[p']? = b.text[p]? := by
  have hlen : (b.text.take r.startPos).length = r.startPos := by
    rw [List.length_take]
    omega
  unfold Replacement.follow at h
  unfold Replacement.apply
  dsimp only
  split at h
  · rename_i hlt
    cases h
    rw [List.append_assoc, List.getElem?_append_left (by omega), List.getElem?_take_of_lt hlt]
  · split at h
    · cases h
    · cases h
      rw [List.getElem?_append_right (by rw [List.length_append]; omega), List.getElem?_drop, List.length_append, hlen]
      congr 1
      omega

/-- **One replacement**: the offset goes with the character. -/
theorem Replacement.apply_offset (h : r.follow p = some p') :
    (r.apply b).linePos.getInputFileOffset p' = b.linePos.getInputFileOffset p := by
  unfold Replacement.follow at h
  unfold Replacement.apply CLinePos.getInputFileOffset CLinePos.insert CLinePos.delete
  dsimp only
  split at h
  · rename_i hlt
    cases h
    have hq : (p : ℤ) < r.startPos := by omega
    rw [deltas_shiftFrom_right hq, deltas_shiftFrom_right hq]
  · split at h
    · cases h
    · rename_i hge hend
      cases h
      -- the position between the two steps
      have hmid : ((p - r.length + r.expansion.length : ℕ) : ℤ) =
          (p : ℤ) + -(r.length : ℤ) + (r.expansion.length : ℤ) := by omega
      rw [hmid, deltas_shiftFrom_left (by omega) (by omega), deltas_shiftFrom_left (by omega) (by omega)]
      omega

/-- Replacements keep the file offset of a character they do not touch. -/
theorem expand_offset (hrun : expand rs b = some b') (h : follow rs p = some p') :
    b'.text[p']? = b.text[p]? ∧ b'.linePos.getInputFileOffset p' = b.linePos.getInputFileOffset p := by
  induction rs generalizing b p with
  | nil =>
    cases hrun
    cases h
    exact ⟨rfl, rfl⟩
  | cons r rs ih =>
    obtain ⟨q, hq, hrest⟩ := Option.bind_eq_some_iff.1 h
    rw [expand] at hrun
    split at hrun
    · rename_i hr
      obtain ⟨htext, hoff⟩ := ih hrun hrest
      exact ⟨htext.trans (r.apply_text hr hq), hoff.trans (r.apply_offset hq)⟩
    · cases hrun

end

/-- `AB+C`: the first word becomes a longer one, a part of that a shorter one, and then the last word goes. -/
def demoRun : List Replacement :=
  [⟨0, 2, ['X', 'Y', 'Z', 'W']⟩, ⟨0, 3, ['Q']⟩, ⟨3, 1, []⟩]

/-- `QW+`; an entry of the first word has moved to the left of the line. -/
def demoBuf : LineBuf := ⟨['Q', 'W', '+'], ⟨100, [⟨0, -1⟩, ⟨1, 3⟩, ⟨-3, -4⟩, ⟨2, 2⟩, ⟨3, 0⟩, ⟨3, 1⟩]⟩⟩

end OpenHT.Htfe.LinePos
