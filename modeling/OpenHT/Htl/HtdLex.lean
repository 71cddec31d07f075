import OpenHT.Htl.Token

/-!
# The lexer of HTD files

`CLex` reads the lines that the preprocessor returns, one token at a time.

* `Lex`: the token last read, the rest of its line, and the lines after it.
* `getNextTk`, `skipTo`, `getExprStr`: the operations of the parsers.
* `Lex.size`: what is left to read.
* `getNextTk_size`: every token makes it smaller, up to the end of the file.
-/

namespace OpenHT.Htl.HtdFile

inductive EToken
  | ident | equal | period | lParen | rParen | string | integer | comma | semi
  | plus | minus | slash | asterisk | percent | vbar | carot | ampersand | less | greater
  | pound | lBrack | rBrack | colon | question | lBrace | rBrace | fTick | bTick | eof | unknown
deriving DecidableEq, Repr

/-- Why the parser does not go on. -/
inductive Stop
  /-- `loadHtdFile` returns. -/
  | eof
  /-- `ParseMsg(Fatal, ..)`: the program ends. -/
  | fatal
  /-- Undefined behaviour: a null pointer, or a character behind a buffer. -/
  | undef
deriving DecidableEq, Repr

/-- The characters of the lines, with their ends. -/
def linesLength : List Text → ℕ
  | [] => 0
  | l :: ls => l.length + 1 + linesLength ls

/-- `m_tk`, `m_string`, what is left of `m_lineBuf` from `m_pLine` on, the lines that `GetNextLine` has still to
return, and the messages, the last one first. -/
structure Lex where
  tk : EToken
  string : String
  line : Text
  lines : List Text
  msgs : List String
deriving DecidableEq, Repr

namespace Lex

def parseMsg (lx : Lex) (msg : String) : Lex := { lx with msgs := msg :: lx.msgs }

/-- What is left to read. -/
def size (lx : Lex) : ℕ :=
  lx.line.length + linesLength lx.lines + if lx.tk = .eof then 0 else 1

end Lex

/-! ## Tokens -/

/-- The tokens of one character. -/
def punct : Char → Option EToken
  | '(' => some .lParen
  | ')' => some .rParen
  | '=' => some .equal
  | ',' => some .comma
  | ';' => some .semi
  | '.' => some .period
  | '#' => some .pound
  | '[' => some .lBrack
  | ']' => some .rBrack
  | '{' => some .lBrace
  | '}' => some .rBrace
  | '-' => some .minus
  | '+' => some .plus
  | '*' => some .asterisk
  | '%' => some .percent
  | '<' => some .less
  | '>' => some .greater
  | ':' => some .colon
  | '?' => some .question
  | '|' => some .vbar
  | '&' => some .ampersand
  | '^' => some .carot
  | '/' => some .slash
  | _ => none

/-- The tokens that are returned but not stored. -/
def tick : Char → Option EToken
  | '\'' => some .fTick
  | '\x60' => some .bTick
  | _ => none

/-- Where the next token of a line starts, unless only blanks and a comment are left. -/
def tokenStart (line : Text) : Option (Char × Text) :=
  match line.dropWhile isBlank with
  | [] => none
  | '/' :: '/' :: _ => none
  | c :: cs => if c = '\r' || c = '\n' then none else some (c, cs)

/-- The lines that `GetNextLine` returns out of those of `GetLine`: the ones with a token, without the blanks at
their start. -/
def nextLines (lines : List Text) : List Text :=
  (lines.filter fun l => (tokenStart l).isSome).map (List.dropWhile isBlank)

/-- What stands at a place of a line where a token starts. -/
inductive Scan
  | tk (tk : EToken) (rest : Text)
  | word (tk : EToken) (string : Text) (rest : Text)
  | tick (tk : EToken) (rest : Text)
  | unclosed (string : Text)
  | unknown
deriving DecidableEq, Repr

def scan (c : Char) (cs : Text) : Scan :=
  match tick c, punct c with
  | some t, _ => .tick t cs
  | none, some t => .tk t cs
  | none, none =>
    let digits := (c :: cs).takeWhile Char.isDigit
    let rest := (c :: cs).dropWhile Char.isDigit
    if c.isDigit && !(rest.head?.any fun c => c.isAlpha || c = '_') then .word .integer digits rest
    else if isIdent c then .word .ident ((c :: cs).takeWhile isIdent) ((c :: cs).dropWhile isIdent)
    else if c = '"' then
      let string := cs.takeWhile (· != '"')
      if string.length < cs.length then .word .string string (cs.drop (string.length + 1)) else .unclosed string
    else .unknown

/-- The token at a place. A tick is returned, and stored only by a call that has gone on to another line. -/
def Scan.read (sc : Scan) (stored : Bool) (lines : List Text) (lx : Lex) : Except Stop (EToken × Lex) :=
  match sc with
  | .tk t rest => .ok (t, { lx with tk := t, line := rest, lines := lines })
  | .word t s rest => .ok (t, { lx with tk := t, string := String.ofList s, line := rest, lines := lines })
  | .tick t rest => .ok (t, { lx with tk := if stored then t else lx.tk, line := rest, lines := lines })
  | .unclosed s =>
    .ok (.string, { lx with
      tk := .string, string := String.ofList s, line := [], lines := lines,
      msgs := "Expected a closing quote for string" :: lx.msgs })
  | .unknown => .error .fatal

def nextTk (lx : Lex) : Bool → Text → List Text → Except Stop (EToken × Lex)
  | stored, line, [] =>
    match tokenStart line with
    | some (c, cs) => (scan c cs).read stored [] lx
    | none => .ok (.eof, { lx with tk := .eof, line := [], lines := [] })
  | stored, line, l :: ls =>
    match tokenStart line with
    | some (c, cs) => (scan c cs).read stored (l :: ls) lx
    | none => nextTk lx true l ls

namespace Lex

/-- `GetNextTk`: the token it returns, which `m_tk` need not be. -/
def getNextTk (lx : Lex) : Except Stop (EToken × Lex) :=
  if lx.tk = .eof then .ok (.eof, lx) else nextTk lx false lx.line lx.lines

/-- The token after this one, where the caller goes on with `GetTk`. -/
def next (lx : Lex) : Except Stop Lex := lx.getNextTk.map Prod.snd

/-- `LexOpen`, before it reads the first token. -/
def init (lines : List Text) : Lex := ⟨.unknown, "", [], nextLines lines, []⟩

/-- The loop of `SkipTo`, for at most as many tokens as there can be. -/
def skipLoop (skipTk : EToken) : ℕ → Lex → Except Stop Lex
  | 0, lx => .ok lx
  | n + 1, lx => do
    let (tk, lx) ← lx.getNextTk
    if tk ≠ skipTk ∧ tk ≠ .eof then skipLoop skipTk n lx else .ok lx

def skipTo (lx : Lex) (skipTk : EToken) : Except Stop Lex := skipLoop skipTk (lx.size + 1) lx

/-- What most errors do: the message, `SkipTo(eTkSemi)` and `GetNextTk`. -/
def errorSkip (lx : Lex) (msg : String) : Except Stop Lex := do
  let lx ← (lx.parseMsg msg).skipTo .semi
  lx.next

end Lex

/-! ## Expressions -/

def isSpace (c : Char) : Bool := isBlank c || c = '\n' || c = '\x0b' || c = '\x0c' || c = '\r'

/-- The characters up to the end of an expression, what is left from there on, and the open parentheses. -/
def exprEnd (termCh : Char) : ℕ → Text → Text × Option Text × ℕ
  | n, [] => ([], none, n)
  | n, c :: cs =>
    let n' := if c = '(' then n + 1 else if c = ')' then n - 1 else n
    if c = ')' ∧ n = 0 ∨ c = termCh ∧ n' = 0 then ([], some (c :: cs), n)
    else
      let r := exprEnd termCh n' cs
      (c :: r.1, r.2)

/-- An expression may go on on the next line. -/
def exprLines (termCh : Char) (n : ℕ) (str line : Text) (lines : List Text) :
    Except Stop (Text × Text × List Text) :=
  let r := exprEnd termCh n line
  match r.2.1 with
  | some rest => .ok (str ++ r.1, rest, lines)
  | none =>
    match lines with
    | [] => .error .fatal
    | l :: ls => exprLines termCh r.2.2 (str ++ r.1 ++ [' ']) l ls

def quotedLines (str line : Text) (lines : List Text) : Except Stop (Text × Text × List Text) :=
  let s := line.takeWhile (· != '"')
  if s.length < line.length then .ok (str ++ s ++ ['"'], line.drop (s.length + 1), lines)
  else match lines with
    | [] => .error .fatal
    | l :: ls => quotedLines (str ++ s ++ [' ']) l ls

/-- `GetExprStr` -/
def Lex.getExprStr (lx : Lex) (termCh : Char) : Except Stop (String × Lex) := do
  let (str, line, lines) ←
    match lx.line.dropWhile isSpace with
    | '"' :: cs => quotedLines ['"'] cs lx.lines
    | cs => exprLines termCh 0 [] cs lx.lines
  return (String.ofList str, { lx with line := line, lines := lines })

/-! ## What is left to read -/

/-- If the call returns, `P` holds of what it returns. -/
def Out {α : Type} (P : α → Prop) : Except Stop α → Prop
  | .ok a => P a
  | .error _ => True

namespace Out

variable {α β : Type} {P Q : α → Prop} {R : β → Prop} {x : Except Stop α} {f : α → Except Stop β}

theorem bind (h : Out P x) (hf : ∀ a, P a → Out R (f a)) : Out R (x >>= f) := by
  cases x with
  | ok a => exact hf a h
  | error e => trivial

theorem map {g : α → β} (h : Out P x) (hg : ∀ a, P a → R (g a)) : Out R (x.map g) := by
  cases x with
  | ok a => exact hg a h
  | error e => trivial

theorem mono (h : Out P x) (hpq : ∀ a, P a → Q a) : Out Q x := by
  cases x with
  | ok a => exact hpq a h
  | error e => trivial

theorem of_ok (h : Out P x) {a : α} (hx : x = .ok a) : P a := by
  rw [hx] at h
  exact h

end Out

/-- The characters of a line and the lines after it, with their ends. -/
def weight (line : Text) (lines : List Text) : ℕ := line.length + linesLength lines

theorem weight_cons (line l : Text) (ls : List Text) : weight line (l :: ls) = line.length + 1 + weight l ls := by
  unfold weight
  rw [linesLength]
  omega

theorem weight_nil_line (line : Text) (lines : List Text) : weight [] lines ≤ weight line lines := by
  unfold weight
  rw [List.length_nil]
  omega

variable {lx : Lex} {line cs : Text} {lines : List Text} {c : Char}

namespace Lex

theorem size_le : lx.size ≤ weight lx.line lx.lines + 1 := by
  unfold size weight
  split <;> omega

theorem size_eq (h : lx.tk ≠ .eof) : lx.size = weight lx.line lx.lines + 1 := by
  unfold size weight
  rw [if_neg h]

theorem weight_le_size : weight lx.line lx.lines ≤ lx.size := Nat.le_add_right _ _

end Lex

theorem tokenStart_length (h : tokenStart line = some (c, cs)) : cs.length < line.length := by
  have hle := (List.dropWhile_sublist (l := line) isBlank).length_le
  unfold tokenStart at h
  split at h
  · cases h
  · cases h
  next c' cs' _ heq =>
    split at h
    · cases h
    · cases h
      rw [heq, List.length_cons] at hle
      omega

theorem dropWhile_cons_length (p : Char → Bool) (h : p c = true) : ((c :: cs).dropWhile p).length ≤ cs.length := by
  rw [List.dropWhile_cons_of_pos h]
  exact (List.dropWhile_sublist p).length_le

/-- A token has at least one character. -/
theorem scan_read (stored : Bool) :
    Out (fun r => r.2.size ≤ weight cs lines + 1) ((scan c cs).read stored lines lx) := by
  have hle : ∀ (lx' : Lex), lx'.lines = lines → lx'.line.length ≤ cs.length → lx'.size ≤ weight cs lines + 1 := by
    intro lx' hl hlen
    have hsize := lx'.size_le
    unfold weight at *
    rw [hl] at hsize
    omega
  unfold scan
  split
  · exact hle _ rfl (Nat.le_refl _)
  · exact hle _ rfl (Nat.le_refl _)
  · dsimp only
    split
    next hd =>
      rw [Bool.and_eq_true] at hd
      exact hle _ rfl (dropWhile_cons_length _ hd.1)
    · split
      next hi => exact hle _ rfl (dropWhile_cons_length _ hi)
      · split
        · split
          · refine hle _ rfl ?_
            rw [List.length_drop]
            exact Nat.sub_le _ _
          · exact hle _ rfl (Nat.zero_le _)
        · trivial

theorem nextTk_size (stored : Bool) :
    Out (fun r => r.2.size ≤ weight line lines) (nextTk lx stored line lines) := by
  induction lines generalizing stored line with
  | nil =>
    unfold nextTk
    split
    next hc =>
      have hlt := tokenStart_length hc
      refine (scan_read stored).mono fun r hr => Nat.le_trans hr ?_
      unfold weight
      omega
    · exact Nat.zero_le _
  | cons l ls ih =>
    unfold nextTk
    split
    next hc =>
      have hlt := tokenStart_length hc
      refine (scan_read stored).mono fun r hr => Nat.le_trans hr ?_
      unfold weight
      omega
    · refine (ih true).mono fun r hr => ?_
      rw [weight_cons]
      omega

namespace Lex

/-- **Every token consumes input**, until the end of the file. -/
theorem getNextTk_size (h : lx.tk ≠ .eof) : Out (fun r => r.2.size < lx.size) lx.getNextTk := by
  unfold getNextTk
  rw [if_neg h]
  refine (nextTk_size false).mono fun r hr => ?_
  rw [size_eq h]
  omega

theorem getNextTk_eof (h : lx.tk = .eof) : lx.getNextTk = .ok (.eof, lx) := if_pos h

theorem getNextTk_le : Out (fun r => r.2.size ≤ lx.size) lx.getNextTk := by
  by_cases h : lx.tk = .eof
  · rw [getNextTk_eof h]
    exact Nat.le_refl _
  · exact (getNextTk_size h).mono fun r hr => Nat.le_of_lt hr

theorem next_size (h : lx.tk ≠ .eof) : Out (fun lx' => lx'.size < lx.size) lx.next :=
  (getNextTk_size h).map fun _ hr => hr

theorem next_le : Out (fun lx' => lx'.size ≤ lx.size) lx.next := getNextTk_le.map fun _ hr => hr

theorem parseMsg_size (msg : String) : (lx.parseMsg msg).size = lx.size := rfl

theorem skipLoop_le (skipTk : EToken) (n : ℕ) : Out (fun lx' => lx'.size ≤ lx.size) (skipLoop skipTk n lx) := by
  induction n generalizing lx with
  | zero => exact Nat.le_refl _
  | succ n ih =>
    refine getNextTk_le.bind fun r hr => ?_
    dsimp only
    split
    · exact ih.mono fun lx' h => Nat.le_trans h hr
    · exact hr

/-- More rounds than there are tokens change nothing. -/
theorem skipLoop_enough (lx : Lex) (skipTk : EToken) {n m : ℕ} (hn : lx.size < n) (hm : lx.size < m) :
    skipLoop skipTk n lx = skipLoop skipTk m lx := by
  induction n generalizing lx m with
  | zero => omega
  | succ n ih =>
    obtain ⟨m, rfl⟩ : ∃ k, m = k + 1 := ⟨m - 1, by omega⟩
    unfold skipLoop
    by_cases h : lx.tk = .eof
    · have hend : ¬(EToken.eof ≠ skipTk ∧ EToken.eof ≠ .eof) := fun hgo => hgo.2 rfl
      rw [getNextTk_eof h]
      exact (if_neg hend).trans (if_neg hend).symm
    · have hsize := getNextTk_size h
      cases hx : lx.getNextTk with
      | error e => rfl
      | ok r =>
        have hlt := hsize.of_ok hx
        change (if r.1 ≠ skipTk ∧ r.1 ≠ .eof then _ else _) = if r.1 ≠ skipTk ∧ r.1 ≠ .eof then _ else _
        exact congrArg (fun res => if r.1 ≠ skipTk ∧ r.1 ≠ .eof then res else _) (ih r.2 (by omega) (by omega))

/-- **The loop of `SkipTo`**: it goes on up to the token or the end of the file. -/
theorem skipTo_eq (skipTk : EToken) : lx.skipTo skipTk = lx.getNextTk >>= fun r =>
    if r.1 ≠ skipTk ∧ r.1 ≠ .eof then r.2.skipTo skipTk else .ok r.2 := by
  unfold skipTo
  rw [skipLoop]
  cases hx : lx.getNextTk with
  | error e => rfl
  | ok r =>
    have hle := getNextTk_le.of_ok hx
    change (if r.1 ≠ skipTk ∧ r.1 ≠ .eof then _ else _) = if r.1 ≠ skipTk ∧ r.1 ≠ .eof then _ else _
    split
    next hgo =>
      by_cases h : lx.tk = .eof
      · rw [getNextTk_eof h] at hx
        cases hx
        exact absurd rfl hgo.2
      · have hlt := (getNextTk_size h).of_ok hx
        exact skipLoop_enough _ skipTk hlt (Nat.lt_succ_self _)
    · rfl

theorem skipTo_le (skipTk : EToken) : Out (fun lx' => lx'.size ≤ lx.size) (lx.skipTo skipTk) := skipLoop_le skipTk _

theorem skipTo_size (lx : Lex) (skipTk : EToken) (h : lx.tk ≠ .eof) :
    Out (fun lx' => lx'.size < lx.size) (lx.skipTo skipTk) := by
  rw [skipTo_eq]
  refine (getNextTk_size h).bind fun r hr => ?_
  split
  · exact (skipTo_le skipTk).mono fun lx' hle => Nat.lt_of_le_of_lt hle hr
  · exact hr

theorem errorSkip_le (msg : String) : Out (fun lx' => lx'.size ≤ lx.size) (lx.errorSkip msg) :=
  (skipTo_le .semi).bind fun _ h => next_le.mono fun _ h' => Nat.le_trans h' h

theorem errorSkip_size (msg : String) (h : lx.tk ≠ .eof) :
    Out (fun lx' => lx'.size < lx.size) (lx.errorSkip msg) :=
  (skipTo_size (lx.parseMsg msg) .semi h).bind fun _ hlt => next_le.mono fun _ h' => Nat.lt_of_le_of_lt h' hlt

theorem exprEnd_length {termCh : Char} {n : ℕ} {rest : Text} (h : (exprEnd termCh n cs).2.1 = some rest) :
    rest.length ≤ cs.length := by
  induction cs generalizing n with
  | nil => cases h
  | cons c cs ih =>
    rw [exprEnd] at h
    generalize (if c = '(' then n + 1 else if c = ')' then n - 1 else n) = n' at h
    dsimp only at h
    split at h
    · cases h
      exact Nat.le_refl _
    · exact Nat.le_succ_of_le (ih h)

theorem exprLines_weight (termCh : Char) (n : ℕ) (str line : Text) (lines : List Text) :
    Out (fun r => weight r.2.1 r.2.2 ≤ weight line lines) (exprLines termCh n str line lines) := by
  induction lines generalizing n str line with
  | nil =>
    rw [exprLines]
    split
    next heq => exact Nat.add_le_add_right (exprEnd_length heq) _
    · trivial
  | cons l ls ih =>
    rw [exprLines]
    split
    next heq => exact Nat.add_le_add_right (exprEnd_length heq) _
    · refine (ih _ _ l).mono fun r hr => ?_
      rw [weight_cons]
      omega

theorem quotedLines_weight (str line : Text) (lines : List Text) :
    Out (fun r => weight r.2.1 r.2.2 ≤ weight line lines) (quotedLines str line lines) := by
  have hdrop : ∀ (line : Text) (k : ℕ) (ls : List Text), weight (line.drop k) ls ≤ weight line ls := by
    intro line k ls
    apply Nat.add_le_add_right
    rw [List.length_drop]
    exact Nat.sub_le _ _
  induction lines generalizing str line with
  | nil =>
    rw [quotedLines]
    split
    · exact hdrop _ _ _
    · trivial
  | cons l ls ih =>
    rw [quotedLines]
    split
    · exact hdrop _ _ _
    · refine (ih _ l).mono fun r hr => ?_
      rw [weight_cons]
      omega

theorem getExprStr_le (termCh : Char) : Out (fun r => r.2.size ≤ lx.size) (lx.getExprStr termCh) := by
  have hspace : weight (lx.line.dropWhile isSpace) lx.lines ≤ weight lx.line lx.lines :=
    Nat.add_le_add_right (List.dropWhile_sublist isSpace).length_le _
  have hsize : ∀ line lines, weight line lines ≤ weight (lx.line.dropWhile isSpace) lx.lines →
      ({ lx with line := line, lines := lines } : Lex).size ≤ lx.size := by
    intro line lines hle
    exact Nat.add_le_add_right (Nat.le_trans hle hspace) _
  unfold getExprStr
  split
  next cs heq =>
    refine (quotedLines_weight _ cs lx.lines).bind fun r hr => hsize _ _ (Nat.le_trans hr ?_)
    rw [heq]
    exact Nat.add_le_add_right (Nat.le_succ _) _
  next cs heq => exact (exprLines_weight _ _ _ _ lx.lines).bind fun r hr => hsize _ _ hr

end Lex

end OpenHT.Htl.HtdFile
