import Mathlib.Data.Nat.Notation
import OpenHT.Lib.Fuel
import OpenHT.Htl.StripComments

/-!
# The arguments of a macro

`PerformMacroExpansion` reads the arguments of a macro from the line, and appends further lines where the line ends
between the parentheses.

* `scanArg`, `scanArgs`: one argument, and all of them. The position may come behind the end of the line.
* `expandMacro`: the text of the macro with its arguments.
* `expandInvocation`: the line after the expansion.
* `SameExpansion`: the lines and the text that is joined with spaces have one expansion.
* `HarmlessBreaks`: what the breaks have to be like.
-/

namespace OpenHT.Htl.MacroArgs

open Strip (Str getLineFromFile getLineWithCommentsStripped)

/-- The two programs that share the code. -/
inductive Tool
  | htl
  | htfe
deriving DecidableEq, Repr

/-- What `c_str` has behind the last character. -/
def nul : Char := Char.ofNat 0

/-- `*pPos`. There is nothing to read behind the terminator. -/
def charAt (lineBuf : Str) (pPos : ℕ) : Option Char := (lineBuf ++ [nul])[pPos]?

def isBlank (c : Char) : Bool := c = ' ' || c = '\t'

def identStart (c : Char) : Bool := c = '_' || c.isAlpha

def identChar (c : Char) : Bool := c = '_' || c.isAlphanum

def IsIdent : Str → Prop
  | [] => False
  | c :: t => identStart c = true ∧ ∀ d ∈ t, identChar d = true

/-- The parameters of a macro: `InsertParam` takes no name twice. -/
structure ParamList where
  names : List Str
  nodup : names.Nodup
  ident : ∀ p ∈ names, IsIdent p

def vaArgs : Str := "__VA_ARGS__".toList

/-- In the program that has such arguments, the last one takes the commas. -/
def isVariadicArg (tool : Tool) (params : ParamList) (argId : ℕ) : Bool :=
  tool = .htfe && params.names.contains vaArgs && argId + 1 = params.names.length

/-! ## The scan -/

def skipSpace (lineBuf : Str) (pPos : ℕ) : ℕ := pPos + ((lineBuf.drop pPos).takeWhile isBlank).length

inductive ArgEnd
  | overread
  | stop (file lineBuf : Str) (pPos : ℕ)
deriving DecidableEq, Repr

/-- The loop over the characters of an argument. At the end of the line it appends the next one, and goes one character
on without a look at it. -/
def scanArg (bVariadicArg : Bool) : ℕ → Str → Str → ℕ → ℕ → Option ArgEnd
  | 0, _, _, _, _ => none
  | n + 1, file, lineBuf, pPos, parenLvl =>
    match charAt lineBuf pPos with
    | none => some .overread
    | some c =>
      if parenLvl = 0 ∧ ((bVariadicArg = false ∧ c = ',') ∨ c = ')') then some (.stop file lineBuf pPos)
      else if c = nul then
        match getLineWithCommentsStripped (n + 1) ⟨file, lineBuf, 0, 0, true, false⟩ with
        | none => none
        | some .endOfFile => scanArg bVariadicArg n file lineBuf (pPos + 1) parenLvl
        | some (.line file lineBuf) => scanArg bVariadicArg n file lineBuf (pPos + 1) parenLvl
      else
        scanArg bVariadicArg n file lineBuf (pPos + 1)
          (if c = '(' then parenLvl + 1 else if c = ')' then parenLvl - 1 else parenLvl)

/-- The loop that takes the blanks from the end of an argument. It looks for a space before the position, and for a tab
at the position. -/
def trimArg (lineBuf : Str) (pStartArgPos : ℕ) : ℕ → ℕ
  | 0 => 0
  | p + 1 =>
    if pStartArgPos < p + 1 ∧ (charAt lineBuf p = some ' ' ∨ charAt lineBuf (p + 1) = some '\t') then
      trimArg lineBuf pStartArgPos p
    else p + 1

inductive ArgsEnd
  | overread
  | argumentError
  | args (file lineBuf : Str) (pPos : ℕ) (argList : List Str)
deriving DecidableEq, Repr

/-- The loop over the arguments. An argument without characters is left out. -/
def scanArgs (tool : Tool) (params : ParamList) : ℕ → Str → Str → ℕ → List Str → Option ArgsEnd
  | 0, _, _, _, _ => none
  | n + 1, file, lineBuf, pPos, argList =>
    let pStartArgPos := skipSpace lineBuf pPos
    match scanArg (isVariadicArg tool params argList.length) (n + 1) file lineBuf pStartArgPos 0 with
    | none => none
    | some .overread => some .overread
    | some (.stop file lineBuf pPos) =>
      let pPos := trimArg lineBuf pStartArgPos pPos
      if charAt lineBuf pPos = some nul then some .argumentError
      else
        let argList := if pPos = pStartArgPos then argList else argList ++ [(lineBuf.take pPos).drop pStartArgPos]
        let pPos := skipSpace lineBuf pPos
        if charAt lineBuf pPos = some ',' then
          scanArgs tool params n file lineBuf (skipSpace lineBuf (pPos + 1)) argList
        else if charAt lineBuf pPos = some ')' then some (.args file lineBuf (pPos + 1) argList)
        else some .argumentError

/-! ## The expansion -/

/-- `argList[paramId]` for the name of a parameter, and the name for another one. -/
def substitute (params : ParamList) (argList : List Str) (identifier : Str) : Str :=
  match params.names.idxOf? identifier with
  | none => identifier
  | some paramId => argList.getD paramId []

theorem dropWhile_length_le {α : Type} (p : α → Bool) (l : List α) : (l.dropWhile p).length ≤ l.length :=
  (List.dropWhile_sublist p).length_le

/-- The loop over the text of a macro. -/
def expandMacro (params : ParamList) (argList : List Str) : Str → Str
  | [] => []
  | c :: t =>
    if identStart c then
      substitute params argList (c :: t.takeWhile identChar) ++ expandMacro params argList (t.dropWhile identChar)
    else c :: expandMacro params argList t
termination_by expansion => expansion.length
decreasing_by
  · have := dropWhile_length_le identChar t
    simp only [List.length_cons]
    omega
  · simp only [List.length_cons]
    omega

inductive Expanded
  | overread
  | argumentError
  | line (file lineBuf : Str)
deriving DecidableEq, Repr

/-- An invocation whose name starts at `startPos`, from the opening parenthesis at `pPos` on. -/
def expandInvocation (tool : Tool) (params : ParamList) (expansion : Str) (n : ℕ) (file lineBuf : Str)
    (startPos pPos : ℕ) : Option Expanded :=
  match scanArgs tool params n file lineBuf (pPos + 1) [] with
  | none => none
  | some .overread => some .overread
  | some .argumentError => some .argumentError
  | some (.args file lineBuf endPos argList) =>
    if argList.length ≠ params.names.length then some .argumentError
    else some (.line file (lineBuf.take startPos ++ expandMacro params argList expansion ++ lineBuf.drop endPos))

/-! ## The text of an invocation -/

/-- Where the reading is: before an argument, or behind some of its characters and inside so many parentheses. -/
inductive At
  | start
  | inside (arg : Str) (parenLvl : ℕ)

def At.text : At → Str
  | .start => []
  | .inside arg _ => arg

def At.level : At → ℕ
  | .start => 0
  | .inside _ parenLvl => parenLvl

def At.isStart : At → Bool
  | .start => true
  | .inside _ _ => false

def delimiter (bVariadicArg : Bool) (c : Char) : Bool := (!bVariadicArg && c = ',') || c = ')'

def depth (c : Char) (parenLvl : ℕ) : ℕ :=
  if c = '(' then parenLvl + 1 else if c = ')' then parenLvl - 1 else parenLvl

/-- An argument without the spaces at its end. -/
def trimmed (arg : Str) : Str := (arg.reverse.dropWhile (· = ' ')).reverse

/-- One more argument, if it has a character. -/
def push (args : List Str) (arg : Str) : List Str := if trimmed arg = [] then args else args ++ [trimmed arg]

/-- What is known at the end of a line: all arguments and what is behind the parenthesis, or some and where the reading
is. -/
inductive LineEnd
  | found (args : List Str) (rest : Str)
  | ends (args : List Str) (s : At)

/-- The arguments in one line. -/
def line (bVariadicArg : ℕ → Bool) : List Str → At → Str → LineEnd
  | args, s, [] => .ends args s
  | args, s, c :: t =>
    if s.level = 0 ∧ delimiter (bVariadicArg args.length) c then
      if c = ')' then .found (push args s.text) t else line bVariadicArg (push args s.text) .start t
    else if s.isStart && isBlank c then line bVariadicArg args .start t
    else line bVariadicArg args (.inside (s.text ++ [c]) (depth c s.level)) t

/-- Lines joined with a space each. -/
def joined (lines : List Str) : Str := lines.flatMap (' ' :: ·)

/-- The text of the lines ends with the closing parenthesis, in the last one. -/
def Closes (bVariadicArg : ℕ → Bool) : LineEnd → List Str → Prop
  | .found _ _, [] => True
  | .found _ _, _ :: _ => False
  | .ends _ _, [] => False
  | .ends args s, t :: ls => Closes bVariadicArg (line bVariadicArg args s (' ' :: t)) ls

/-- There are only spaces up to the end of the argument; each further line there starts with one. -/
def Delimited (bVariadicArg : Bool) : Str → List Str → Prop
  | t, [] => ∃ d, (t.dropWhile (· = ' ')).head? = some d ∧ delimiter bVariadicArg d = true
  | t, l :: ls =>
    match t.dropWhile (· = ' ') with
    | d :: _ => delimiter bVariadicArg d = true
    | [] => ∃ t', l = ' ' :: t' ∧ Delimited bVariadicArg t' ls

/-- A break where the reading is `s`, before the line. Either the break is before an argument, and the line starts with a
character of it that is no parenthesis; or it is behind an argument, and the line starts with a space and goes on with
spaces to the end of the argument. -/
def HarmlessBreak (bVariadicArg : Bool) (s : At) (l : Str) (ls : List Str) : Prop :=
  ∃ c t, l = c :: t ∧
    ((s.isStart = true ∧ isBlank c = false ∧ c ≠ '(' ∧ delimiter bVariadicArg c = false) ∨
      (s.level = 0 ∧ c = ' ' ∧ Delimited bVariadicArg t ls))

/-- All breaks are harmless. -/
def HarmlessBreaks (bVariadicArg : ℕ → Bool) : LineEnd → List Str → Prop
  | .found _ _, _ => True
  | .ends _ _, [] => True
  | .ends args s, l :: ls => HarmlessBreak (bVariadicArg args.length) s l ls ∧
      HarmlessBreaks bVariadicArg (line bVariadicArg args s (' ' :: l)) ls

/-- No `//` and no `/*`. -/
def noComment : Str → Bool
  | [] => true
  | c :: t => !Strip.opener c t && noComment t

/-- The file starts with these lines. -/
def Lines : Str → List Str → Str → Prop
  | file, [], rest => file = rest
  | file, l :: ls, rest => ∃ file', getLineFromFile file = some (l, file') ∧ Lines file' ls rest

/-- The text of an invocation from the opening parenthesis on, in a line and further ones: it ends with the closing
parenthesis and has as many arguments as the macro has parameters. The lines are physical ones, without comments. -/
structure Invocation (tool : Tool) (params : ParamList) (t : Str) (ls : List Str) : Prop where
  closes : Closes (isVariadicArg tool params) (line (isVariadicArg tool params) [] .start t) ls
  count : ∀ args r, line (isVariadicArg tool params) [] .start (t ++ joined ls) = .found args r →
    args.length = params.names.length
  noNul : ∀ c ∈ t ++ ls.flatten, c ≠ nul
  noSlash : ∀ l ∈ t :: ls, Strip.endsInBackslash l = false
  noComment : ∀ l ∈ t :: ls, noComment l = true

/-- The text has the expansion that it has where the lines are joined with a space, and nothing behind the end of a line
is read. -/
def SameExpansion (tool : Tool) (params : ParamList) (expansion file lineBuf t : Str) (ls : List Str) (rest : Str)
    (startPos : ℕ) : Prop :=
  ∃ r, r ≠ .overread ∧
    Fuel.Returns (fun n => expandInvocation tool params expansion n file (lineBuf ++ '(' :: t) startPos lineBuf.length) r ∧
    Fuel.Returns (fun n => expandInvocation tool params expansion n rest (lineBuf ++ '(' :: (t ++ joined ls)) startPos
      lineBuf.length) r

end OpenHT.Htl.MacroArgs
