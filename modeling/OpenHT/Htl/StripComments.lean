import Mathlib.Data.Nat.Notation

/-!
# Lines without comments

`GetLineWithCommentsStripped` joins lines that end with a backslash, replaces comments by blanks, and joins the lines of
a comment that goes over several.

* `getLineFromFile`, `readLines`: a line of the file, and one with its continuations.
* `scan`: the search for comments in what is new of a line.
* `getLineWithCommentsStripped`: the call. Its loops are bounded, as they need not end.
* `Delivers`: the lines of all calls up to the end of the file.
-/

namespace OpenHT.Htl.Strip

abbrev Str := List Char

/-- The next line. Carriage returns are left out. There is none at the end of the file. -/
def getLineFromFile : Str → Option (Str × Str)
  | [] => none
  | file => some ((file.takeWhile (· ≠ '\n')).filter (· ≠ '\r'), (file.dropWhile (· ≠ '\n')).tail)

/-- `lineBuf.length() > 0 && lineBuf[lineBuf.length() - 1] == '\\'` -/
def endsInBackslash (lineBuf : Str) : Bool := lineBuf.getLast? = some '\\'

inductive ReadResult
  | endOfFile
  | line (file lineBuf : Str) (bContinue : Bool)
deriving DecidableEq, Repr

/-- The loop that joins lines. A line that ends with a backslash sets `bContinue`; at the end of the file there is an
error then, and the loop goes on with the line it has. -/
def readLines : ℕ → Str → Str → Bool → Bool → Option ReadResult
  | 0, _, _, _, _ => none
  | n + 1, file, lineBuf, bContinue, bInComment =>
    match getLineFromFile file with
    | none =>
      if bContinue then
        if endsInBackslash lineBuf then readLines n file lineBuf.dropLast true bInComment
        else some (.line file lineBuf true)
      else some .endOfFile
    | some (line, file) =>
      let lineBuf := (if bContinue || bInComment then lineBuf else []) ++ line
      if endsInBackslash lineBuf then readLines n file lineBuf.dropLast true bInComment
      else some (.line file lineBuf bContinue)

/-- The search for comments. A line is what stands before the position or the open comment, that comment up to the
position, and what is behind. -/
def scan : Bool → Str → Str → Str → Bool × Str × Str
  | false, done, _, [] => (false, done, [])
  | false, done, _, [c] => (false, done ++ [c], [])
  | false, done, _, c :: d :: t =>
    if c = '/' ∧ d = '/' then (false, done ++ [' '], [])
    else if c = '/' ∧ d = '*' then scan true done [c, d] t
    else scan false (done ++ [c]) [] (d :: t)
  | true, done, comment, [] => (true, done, comment)
  | true, done, comment, [c] => (true, done, comment ++ [c])
  | true, done, comment, c :: d :: t =>
    if c = '*' ∧ d = '/' then scan false (done ++ List.replicate (comment.length + 2) ' ') [] t
    else scan true done (comment ++ [c]) (d :: t)

/-- The variables of the call: what is left of the file, and the line with its positions. -/
structure CallState where
  file : Str
  lineBuf : Str
  scanPos : ℕ
  commentPos : ℕ
  bContinue : Bool
  bInComment : Bool

inductive CallResult
  | endOfFile
  | line (file lineBuf : Str)
deriving DecidableEq, Repr

/-- The outer loop, which goes on while there is an open comment. -/
def getLineWithCommentsStripped : ℕ → CallState → Option CallResult
  | 0, _ => none
  | n + 1, s =>
    match readLines (n + 1) s.file s.lineBuf s.bContinue s.bInComment with
    | none => none
    | some .endOfFile => some .endOfFile
    | some (.line file lineBuf bContinue) =>
      let before := lineBuf.take s.scanPos
      let r := if s.bInComment then scan true (before.take s.commentPos) (before.drop s.commentPos) (lineBuf.drop s.scanPos)
        else scan false before [] (lineBuf.drop s.scanPos)
      if r.1 then
        let lineBuf := r.2.1 ++ r.2.2
        getLineWithCommentsStripped n ⟨file, lineBuf, lineBuf.length, r.2.1.length, bContinue, true⟩
      else some (.line file r.2.1)

/-- The variables at a call for a new line. -/
def CallState.start (file : Str) : CallState := ⟨file, [], 0, 0, false, false⟩

/-- Calls up to the one that finds the end of the file deliver these lines. -/
inductive Delivers : Str → List Str → Prop
  | endOfFile {file : Str} {n : ℕ} : getLineWithCommentsStripped n (.start file) = some .endOfFile → Delivers file []
  | line {file file' line : Str} {lines : List Str} {n : ℕ} :
    getLineWithCommentsStripped n (.start file) = some (.line file' line) → Delivers file' lines →
      Delivers file (line :: lines)

/-! ## What the text says -/

/-- The lines of a file, without carriage returns. -/
def physical : Str → List Str
  | [] => []
  | c :: t =>
    if c = '\n' then [] :: physical t
    else
      let first := if c = '\r' then [] else [c]
      match physical t with
      | [] => [first]
      | l :: ls => (first ++ l) :: ls

/-- A text without the backslashes at its end. -/
def dropBackslashes (l : Str) : Str := (l.reverse.dropWhile (· = '\\')).reverse

/-- The lines with their continuations, and whether they have one. A line that ends with a backslash is joined with the
next one, and with nothing at the end of the file. -/
def logical : Str → Bool → List Str → List (Str × Bool)
  | acc, b, [] => if b then [(dropBackslashes acc, true)] else []
  | acc, b, p :: ps =>
    if endsInBackslash (acc ++ p) then logical (acc ++ p).dropLast true ps else (acc ++ p, b) :: logical [] false ps

/-- Where a character of a line is. `enter` and `leave` are at the second character of `/*` and `*/`; the number is that
of the characters of the comment so far. -/
inductive Mode
  | code
  | enter
  | block (n : ℕ)
  | leave (n : ℕ)
  | literal (quote : Char)
  | escape (quote : Char)

/-- A literal ends on its line. -/
def closes (quote : Char) : Bool → Str → Bool
  | _, [] => false
  | true, _ :: t => closes quote false t
  | false, c :: t => if c = quote then true else closes quote (c = '\\') t

/-- A quote that starts a string or a character literal. -/
def opens (c : Char) (t : Str) : Bool := (c = '"' || c = Char.ofNat 39) && closes c false t

/-- A line with blanks for its comments, and the length of a comment that is open at its end. Whether comments are also
looked for in literals is a parameter. -/
def strip (literals : Bool) : Mode → Str → Str × Option ℕ
  | .code, [] => ([], none)
  | .code, c :: t =>
    if c = '/' ∧ t.head? = some '/' then ([' '], none)
    else if c = '/' ∧ t.head? = some '*' then strip literals .enter t
    else
      let r := strip literals (if literals && opens c t then .literal c else .code) t
      (c :: r.1, r.2)
  | .enter, [] => ([], some 1)
  | .enter, _ :: t => strip literals (.block 2) t
  | .block n, [] => ([], some n)
  | .block n, c :: t =>
    if c = '*' ∧ t.head? = some '/' then strip literals (.leave (n + 2)) t else strip literals (.block (n + 1)) t
  | .leave _, [] => ([], none)
  | .leave n, _ :: t =>
    let r := strip literals .code t
    (List.replicate n ' ' ++ r.1, r.2)
  | .literal _, [] => ([], none)
  | .literal q, c :: t =>
    let r := strip literals (if c = q then .code else if c = '\\' then .escape q else .literal q) t
    (c :: r.1, r.2)
  | .escape _, [] => ([], none)
  | .escape q, c :: t =>
    let r := strip literals (.literal q) t
    (c :: r.1, r.2)

/-- The mode at the start of a line. -/
def Mode.start : Option ℕ → Mode
  | none => .code
  | some n => .block n

/-- The lines with blanks for comments, where the lines of a comment are joined; and the line that a comment at the end
of the file leaves open, with whether it has a continuation. -/
def stripLines (literals : Bool) : Str → Option ℕ → Bool → List (Str × Bool) → List Str × Option (Str × Bool)
  | acc, m, b, [] => ([], m.map fun _ => (acc, b))
  | acc, m, b, (l, f) :: ls =>
    match strip literals (.start m) l with
    | (o, none) =>
      let r := stripLines literals [] none false ls
      ((acc ++ o) :: r.1, r.2)
    | (o, some n) => stripLines literals (acc ++ o) (some n) (b || f) ls

/-- The logical lines of a file. -/
def logicalLines (file : Str) : List (Str × Bool) := logical [] false (physical file)

/-- The lines of the file with blanks for the comments outside literals. -/
def expected (file : Str) : List Str :=
  let r := stripLines true [] none false (logicalLines file)
  r.1 ++ (r.2.map Prod.fst).toList

def Blank (l : Str) : Prop := ∀ c ∈ l, c = ' ' ∨ c = '\t'

/-- The calls come to the end of the file, and deliver its lines; a last line of blanks may be missing. -/
def StripsExactly (file : Str) : Prop :=
  ∃ lines, Delivers file lines ∧ (expected file = lines ∨ ∃ l, Blank l ∧ expected file = lines ++ [l])

/-- The character and what is behind it start with `//` or `/*`. -/
def opener (c : Char) (t : Str) : Bool := c = '/' && (t.head? = some '/' || t.head? = some '*')

/-- No `//` or `/*` stands in a literal of the line. -/
def cleanLine : Mode → Str → Bool
  | _, [] => true
  | .code, c :: t =>
    if c = '/' ∧ t.head? = some '/' then true
    else if c = '/' ∧ t.head? = some '*' then cleanLine .enter t
    else cleanLine (if opens c t then .literal c else .code) t
  | .enter, _ :: t => cleanLine (.block 2) t
  | .block n, c :: t => if c = '*' ∧ t.head? = some '/' then cleanLine (.leave (n + 2)) t else cleanLine (.block (n + 1)) t
  | .leave _, _ :: t => cleanLine .code t
  | .literal q, c :: t =>
    !(c = '/' && (t.head? = some '/' || t.head? = some '*')) &&
      cleanLine (if c = q then .code else if c = '\\' then .escape q else .literal q) t
  | .escape q, c :: t => !(c = '/' && (t.head? = some '/' || t.head? = some '*')) && cleanLine (.literal q) t

/-- No `//` or `/*` stands in a literal of the lines. -/
def CleanLines : Option ℕ → List (Str × Bool) → Prop
  | _, [] => True
  | m, (l, _) :: ls => cleanLine (.start m) l = true ∧ CleanLines (strip true (.start m) l).2 ls

/-- The file does not end in a comment; or if it does, there is nothing else on the line of the comment, and no
continuation. -/
def EndsOutside (file : Str) : Prop :=
  ∀ l b, (stripLines true [] none false (logicalLines file)).2 = some (l, b) → b = false ∧ Blank l

end OpenHT.Htl.Strip
