import OpenHT.Vex.ExpandString

/-!
# `CPreProcess::GetLine`

A statement with expansions is read once for every element: at its `;` the file goes back to its start.

* `CPreProcess`: the members that `GetLine` works with.
* `scan`: the loop over a line.
* `getLine`, `Calls`: a call, and all calls up to the end of the file.
-/

namespace OpenHT.Vex

/-- `LINE_SIZE`, and the `maxLineLen` of the calls. -/
def lineSize : ℕ := 1024

def backQuote : Char := Char.ofNat 96

/-- A position in the file is the text from there on. It has no null characters. -/
structure CPreProcess where
  fp : Str
  /-- At `m_statementFilePos`. -/
  statement : Str
  bCommentSpansEol : Bool
  expansionWidth : ℕ
  expansionIndex : ℕ
  bRepositionToLineStart : Bool
deriving DecidableEq

/-- The constructor. -/
def CPreProcess.openFile (file : Str) : CPreProcess := ⟨file, file, false, 0, 0, false⟩

/-- `fgets`, with the number of characters that it may read. -/
def fgets : ℕ → Str → Str × Str
  | 0, s => ([], s)
  | _ + 1, [] => ([], [])
  | n + 1, c :: s => if c = '\n' then ([c], s) else (c :: (fgets n s).1, (fgets n s).2)

/-- The text behind the end of a comment. -/
def skipComment : Str → Option Str
  | [] => none
  | c :: s => if c = '*' ∧ s.head? = some '/' then some s.tail else skipComment s

/-- How the loop over a line ends: the line is delivered, it is a directive, or C++ leaves the step undefined. -/
inductive Scanned
  | line (text : Str) (st : CPreProcess)
  | dropped (st : CPreProcess)
  | undef
  | fuel

/-- The terminator is put behind the line. In a line that fills the buffer it is outside. -/
def endLine (st : CPreProcess) (dst : Str) : Scanned := if lineSize ≤ dst.length then .undef else .line dst st

/-- The loop over a line. `first`: `pSrc` is at its start. -/
def scan : ℕ → Bool → CPreProcess → Str → Str → Scanned
  | 0, _, _, _, _ => .fuel
  | _ + 1, _, st, [], dst => endLine st dst
  | f + 1, first, st, c :: src, dst =>
    if st.bCommentSpansEol = true ∨ c = '/' ∧ src.head? = some '*' then
      match skipComment (if st.bCommentSpansEol then c :: src else src.tail) with
      | none => endLine { st with bCommentSpansEol := true } dst
      | some src => scan f false { st with bCommentSpansEol := false } src dst
    else if c = '/' ∧ src.head? = some '/' then endLine st dst
    else if c = backQuote then
      if first then .dropped st
      else if src.head? = some '{' then
        match expandString src.tail with
        | .ok src list =>
          let width := if st.expansionWidth = 0 then list.length else min st.expansionWidth list.length
          if st.expansionIndex < width then
            scan f false { st with expansionWidth := width } src (dst ++ list.getD (width - 1 - st.expansionIndex) [])
          else .undef
        | .error src => scan f false st src dst
        | .undef => .undef
        | .fuel => .fuel
      else match src with
        | [] => .undef
        | d :: src => scan f false st src (dst ++ [d])
    else if c = ';' then
      if st.expansionWidth = 0 ∨ st.expansionWidth = st.expansionIndex + 1 then
        scan f false { st with statement := src ++ st.fp, expansionWidth := 0, expansionIndex := 0 } src (dst ++ [c])
      else
        endLine { st with expansionIndex := st.expansionIndex + 1, bRepositionToLineStart := true } (dst ++ [c])
    else scan f false st src (dst ++ [c])

inductive GetLine
  | line (text : Str) (st : CPreProcess)
  | eof
  | undef
  | fuel

/-- The outer loop of `GetLine`, behind the test of `m_bRepositionToLineStart`. -/
def readLine : ℕ → CPreProcess → GetLine
  | 0, _ => .fuel
  | f + 1, st =>
    if st.fp = [] then .eof
    else
      let r := fgets (lineSize - 1) st.fp
      match scan (r.1.length + 1) true { st with fp := r.2 } r.1 [] with
      | .line text st => .line text st
      | .dropped st => readLine f st
      | .undef => .undef
      | .fuel => .fuel

def getLine (st : CPreProcess) : GetLine :=
  let st := if st.bRepositionToLineStart then { st with fp := st.statement, bRepositionToLineStart := false } else st
  readLine (st.fp.length + 1) st

/-- The lines of all calls, up to the one that returns false. -/
inductive Calls : CPreProcess → List Str → Prop
  | done {st : CPreProcess} (h : getLine st = .eof) : Calls st []
  | more {st st' : CPreProcess} {text : Str} {lines : List Str} (h : getLine st = .line text st')
      (hrest : Calls st' lines) : Calls st (text :: lines)

/-- The text that the calls deliver. -/
def Delivers (file text : Str) : Prop := ∃ lines, Calls (.openFile file) lines ∧ lines.flatten = text

end OpenHT.Vex
