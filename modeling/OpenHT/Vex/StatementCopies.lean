import OpenHT.Vex.PreProcess

/-!
# Statements with expansions

* `Piece`, `Statement`, `Source`: a source file, as what it stands for.
* `Source.expected`: every statement once for each element of its expansions, from the last element to the first.
* `Source.lines`: the lines that it is to come in.
* `CopiesWhen`: the condition on the source.
-/

namespace OpenHT.Vex

/-- A part of a source file. `bEol`: it ends with a newline, and not with the file. -/
inductive Piece
  | char (c : Char)
  | comment (body : Str)
  | lineComment (body : Str) (bEol : Bool)
  | expansion (src : Str) (elements : List Str)
  | directive (body : Str) (bEol : Bool)
deriving DecidableEq

def eol (bEol : Bool) : Str := if bEol then ['\n'] else []

namespace Piece

def text : Piece → Str
  | char c => [c]
  | comment body => '/' :: '*' :: (body ++ ['*', '/'])
  | lineComment body bEol => '/' :: '/' :: (body ++ eol bEol)
  | expansion src _ => backQuote :: '{' :: src
  | directive body bEol => backQuote :: (body ++ eol bEol)

/-- What is behind the piece is at the first column. -/
def endsLine : Piece → Bool
  | char c => c == '\n'
  | comment _ => false
  | lineComment _ _ => true
  | expansion _ _ => false
  | directive _ _ => true

/-- The piece stands for itself, with the text `behind` it. -/
def Proper (lineStart : Bool) (behind : Str) : Piece → Prop
  | char c => c ≠ ';' ∧ c ≠ backQuote ∧ (c = '/' → behind.head? ≠ some '/' ∧ behind.head? ≠ some '*')
  | comment body => skipComment (body ++ ['*', '/']) = some []
  | lineComment body bEol => '\n' ∉ body ∧ (bEol = false → behind = [])
  | expansion src elements => ∀ tail, expandString (src ++ tail) = .ok tail elements
  | directive body bEol => lineStart = true ∧ body.head? ≠ some '{' ∧ '\n' ∉ body ∧ (bEol = false → behind = [])

/-- An expansion is in one line, and not at its first column. -/
def Scannable (lineStart : Bool) : Piece → Prop
  | expansion src _ => lineStart = false ∧ '\n' ∉ src
  | _ => True

/-- What a copy of a statement has for the piece. -/
def copy (e : ℕ) : Piece → Str
  | char c => [c]
  | expansion _ elements => elements.getD e []
  | _ => []

end Piece

def textOf (ps : List Piece) : Str := ps.flatMap Piece.text

def Proper : Bool → List Piece → Str → Prop
  | _, [], _ => True
  | lineStart, p :: ps, behind => p.Proper lineStart (textOf ps ++ behind) ∧ Proper p.endsLine ps behind

def Scannable : Bool → List Piece → Prop
  | _, [] => True
  | lineStart, p :: ps => p.Scannable lineStart ∧ Scannable p.endsLine ps

/-- A statement, up to its semicolon, with the element count of its expansions. -/
structure Statement where
  body : List Piece
  count : ℕ
  pos : 0 < count
  uniform : ∀ src elements, Piece.expansion src elements ∈ body → elements.length = count
  one : (∀ src elements, Piece.expansion src elements ∉ body) → count = 1

def Statement.text (s : Statement) : Str := textOf s.body ++ [';']

/-- The copies of a statement: the one that is `k`-th has the elements `count - 1 - k`. -/
def Statement.copies (s : Statement) : Str :=
  (List.range s.count).flatMap fun k => s.body.flatMap (Piece.copy (s.count - 1 - k)) ++ [';']

/-- A source file: its statements and what is behind the last one. -/
structure Source where
  statements : List Statement
  last : List Piece
  plain : ∀ src elements, Piece.expansion src elements ∉ last

namespace Source

variable (src : Source)

def text : Str := src.statements.flatMap Statement.text ++ textOf src.last

/-- The text that is to be delivered. -/
def expected : Str := src.statements.flatMap Statement.copies ++ src.last.flatMap (Piece.copy 0)

end Source

/-- The statements are read as what they are. -/
def ProperFrom : Bool → List Statement → List Piece → Prop
  | lineStart, [], last => Proper lineStart last []
  | lineStart, s :: ss, last =>
    Proper lineStart s.body (';' :: (ss.flatMap Statement.text ++ textOf last)) ∧ ProperFrom false ss last

/-- No expansion is at a first column: also not behind the semicolon, if the statement has more than one copy. -/
def ScannableFrom : Bool → List Statement → Prop
  | _, [] => True
  | lineStart, s :: ss => Scannable (lineStart || decide (2 ≤ s.count)) s.body ∧ ScannableFrom false ss

/-! ## The lines -/

/-- The lines that end in a comment with `n` newlines, and the line behind them, which starts with `dst`. -/
def commentLines (dst : Str) : ℕ → List Str × Str
  | 0 => ([], dst)
  | n + 1 => (dst :: List.replicate n [], [])

/-- The lines that end in a piece, and the line behind them. -/
def Piece.put (e : ℕ) (dst : Str) : Piece → List Str × Str
  | .char c => if c = '\n' then ([dst ++ [c]], []) else ([], dst ++ [c])
  | .comment body => commentLines dst (body.count '\n')
  | .lineComment _ _ => ([dst], [])
  | .expansion _ elements => ([], dst ++ elements.getD e [])
  | .directive _ _ => ([], dst)

def putAll (e : ℕ) : Str → List Piece → List Str × Str
  | dst, [] => ([], dst)
  | dst, p :: ps => ((p.put e dst).1 ++ (putAll e (p.put e dst).2 ps).1, (putAll e (p.put e dst).2 ps).2)

/-- The copies with the elements `e` to 0. -/
def putCopies (body : List Piece) : ℕ → Str → List Str × Str
  | 0, dst => ((putAll 0 dst body).1, (putAll 0 dst body).2 ++ [';'])
  | e + 1, dst => ((putAll (e + 1) dst body).1 ++ ((putAll (e + 1) dst body).2 ++ [';']) :: (putCopies body e []).1,
      (putCopies body e []).2)

def putStatements : Str → List Statement → List Str × Str
  | dst, [] => ([], dst)
  | dst, s :: ss =>
    ((putCopies s.body (s.count - 1) dst).1 ++ (putStatements (putCopies s.body (s.count - 1) dst).2 ss).1,
      (putStatements (putCopies s.body (s.count - 1) dst).2 ss).2)

/-- Behind the pieces is a first column. -/
def endsLine : Bool → List Piece → Bool
  | lineStart, [] => lineStart
  | _, p :: ps => endsLine p.endsLine ps

/-- The line that ends with the file. -/
def lastLine (lineStart : Bool) (dst : Str) : List Str := if lineStart then [] else [dst]

/-- The lines of the expected text, as they are delivered. -/
def Source.lines (src : Source) : List Str :=
  let r := putStatements [] src.statements
  let r' := putAll 0 r.2 src.last
  r.1 ++ r'.1 ++ lastLine (endsLine src.statements.isEmpty src.last) r'.2

/-- A line, with its newline. -/
def lineOf : Str → Str
  | [] => []
  | c :: s => if c = '\n' then [c] else c :: lineOf s

def dropLine : Str → Str
  | [] => []
  | c :: s => if c = '\n' then s else dropLine s

/-- The lines of the file fit in the buffer. -/
def ShortLines (text : Str) : Prop := ∀ s, s <:+ text → (lineOf s).length < lineSize

/-- The condition under which statements are copied. -/
structure CopiesWhen (src : Source) : Prop where
  scannable : ScannableFrom true src.statements
  short : ShortLines src.text
  fits : ∀ l ∈ src.lines, l.length < lineSize

end OpenHT.Vex
