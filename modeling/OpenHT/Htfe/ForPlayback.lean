import OpenHT.Htl.Token
import OpenHT.HtvClang.UniqueName
import OpenHT.Lib.CInt

/-!
# For loops by playback of their tokens

`ParseForStatement` records the tokens of the statement of a loop, and `GetNextToken` plays them back once for each
value of the control variable. A loop in a loop is recorded from tokens that are played back. All of it works on one
stack of records and one level.

* `getNextToken`, `recordTokens`, `removeLastRecordedToken`, `forLoopTokenPlayback`, `forLoopExit`: the scanner.
* `forStatement`: the end of `ParseForStatement`, after the header.
* `TokStream`: the tokens that are still to come, as iterations of loops and the rest of the source.
* `TokStream.forLoop`: a loop is its unrolling.
* `ForLoop.Meets`: the loops that are played back as they should.
-/

namespace OpenHT.Htfe.Playback

open CInt CInt.IntType Htl
open HtvClang.UniqueName (printInt)

/-- The tokens that have a text in `m_stringBuf`. -/
inductive TextKind
  | identifier
  | numInt
  | numHex
  | numFloat
  | numString
  | string
deriving DecidableEq, Repr

inductive EToken
  | text (kind : TextKind)
  /-- Reserved words and operators. -/
  | other (id : ℕ)
  | eof
  | eor
deriving DecidableEq, Repr

structure CToken where
  token : EToken
  string : Text
deriving DecidableEq, Repr

def CToken.getString (t : CToken) : Text :=
  if t.token = .text .string then '"' :: t.string ++ ['"'] else t.string

structure CTokenRecord where
  value : Int := 0
  exitValue : Int := 0
  incValue : Int := 0
  playbackPos : Int := 0
  ctrlVarName : Text := []
  bUnsignedCtrlVar : Bool := false
  tokenList : List CToken := []
deriving DecidableEq, Repr

/-- `m_tokenList[m_playbackPos]` -/
def CTokenRecord.playbackToken (r : CTokenRecord) : Option CToken :=
  if r.playbackPos < 0 then none else r.tokenList[r.playbackPos.toNat]?

/-- What `GetNextToken2` finds in the source; operators leave `m_stringBuf` alone. -/
inductive Lexeme
  | text (kind : TextKind) (s : Text)
  | word (id : ℕ) (s : Text)
  | symbol (id : ℕ)
deriving DecidableEq, Repr

/-- The members of the scanner that take part, outside of `OpenLine`. `m_tokenRecord` has its back at the end, and
`removedToken` is `m_removedToken` while `m_bRemovedToken` is set. -/
structure CHtfeLex where
  token : EToken
  stringBuf : Text
  bTokenRecording : Bool := false
  bTokenPlayback : Bool := false
  tokenPlaybackLevel : Int := -1
  tokenRecord : List CTokenRecord := []
  removedToken : Option CToken := none
  source : List Lexeme
deriving DecidableEq, Repr

/-! ## Strings -/

/-- The loop over a string, where `%` and a name is replaced; the number is of characters still to be skipped. -/
def replaceNames (isName : Text → Bool) (varLen : ℕ) (value : Text) : ℕ → Text → Text
  | _, [] => []
  | skip + 1, _ :: s => replaceNames isName varLen value skip s
  | 0, c :: s =>
    if c = '%' && isName s then value ++ replaceNames isName varLen value varLen s
    else c :: replaceNames isName varLen value 0 s

/-- `strncmp(pStr+1, pVar, varLen) == 0` -/
def replacePrefix (var : Text) (v : Int) (s : Text) : Text :=
  replaceNames var.isPrefixOf var.length (printInt v) 0 s

namespace CHtfeLex

/-! ## The scanner -/

def getNextToken2 (s : CHtfeLex) : CHtfeLex :=
  match s.source with
  | [] => { s with token := .eof }
  | .text kind str :: source => { s with token := .text kind, stringBuf := str, source }
  | .word id str :: source => { s with token := .other id, stringBuf := str, source }
  | .symbol id :: source => { s with token := .other id, source }

/-- `m_tokenRecord[m_tokenPlaybackLevel]` -/
def playing (s : CHtfeLex) : Option CTokenRecord :=
  if s.tokenPlaybackLevel < 0 then none else s.tokenRecord[s.tokenPlaybackLevel.toNat]?

def setPlaying (r : CTokenRecord) (s : CHtfeLex) : CHtfeLex :=
  { s with tokenRecord := s.tokenRecord.set s.tokenPlaybackLevel.toNat r }

/-- Changes `m_tokenRecord.back()`. -/
def updateBack (f : CTokenRecord → CTokenRecord) (s : CHtfeLex) : Option CHtfeLex := do
  let r ← s.tokenRecord.getLast?
  return { s with tokenRecord := s.tokenRecord.dropLast ++ [f r] }

/-- A token of a record is the next one, with the control variable replaced. `none`: outside of the buffer of 256
characters. -/
def playToken (r : CTokenRecord) (t : CToken) (s : CHtfeLex) : Option CHtfeLex :=
  if t.token = .text .identifier ∧ t.getString = r.ctrlVarName then
    some { s with
      token := .text .numInt
      stringBuf := printInt r.value ++ if r.bUnsignedCtrlVar then ['u', 'l'] else [] }
  else
    match t.token with
    | .text .string =>
      let buf := replacePrefix r.ctrlVarName r.value t.string
      if buf.length < 256 then some { s with token := t.token, stringBuf := buf } else none
    | .text .identifier | .text .numInt | .text .numHex | .text .numString =>
      some { s with token := t.token, stringBuf := t.getString }
    | .text .numFloat | .other _ | .eof | .eor => some { s with token := t.token }

/-- The end of a playback step: the token at the playback position. -/
def present (s : CHtfeLex) : Option CHtfeLex := do
  let r ← s.playing
  let t ← r.playbackToken
  s.playToken r t

def recordToken (s : CHtfeLex) : Option CHtfeLex :=
  if s.bTokenRecording then s.updateBack fun r => { r with tokenList := r.tokenList ++ [⟨s.token, s.stringBuf⟩] }
  else some s

/-- `GetNextToken`; the number bounds its calls of itself, which each pop a record. `none`: a failed assertion, an
index outside of a vector, or an `int` that overflows. -/
def nextWithin : ℕ → CHtfeLex → Option CHtfeLex
  | 0, _ => none
  | n + 1, s =>
    if s.bTokenPlayback then do
      let r ← s.playing
      let bEndOfRecordedList := decide (r.playbackPos + 1 = r.tokenList.length)
      if s.bTokenRecording && bEndOfRecordedList then return { s with token := .eor }
      else if bEndOfRecordedList then
        let value := r.value + r.incValue
        if ¬ int32.InRange value then none
        else if value < r.exitValue then
          (← (s.setPlaying { r with value, playbackPos := 0 }).present).recordToken
        else if s.tokenPlaybackLevel ≠ s.tokenRecord.length - 1 then none
        else
          let s := { s with tokenPlaybackLevel := s.tokenPlaybackLevel - 1, tokenRecord := s.tokenRecord.dropLast }
          if s.tokenRecord = [] then
            let s := { s with bTokenPlayback := false }
            match s.removedToken with
            | some t => return { s with removedToken := none, token := t.token, stringBuf := t.getString }
            | none => nextWithin n s
          else
            let s ← nextWithin n s
            if s.tokenRecord = [] then return s else (← s.present).recordToken
      else (← (s.setPlaying { r with playbackPos := r.playbackPos + 1 }).present).recordToken
    else s.getNextToken2.recordToken

def getNextToken (s : CHtfeLex) : Option CHtfeLex := nextWithin (s.tokenRecord.length + 1) s

def recordTokens (s : CHtfeLex) : CHtfeLex :=
  { s with tokenRecord := s.tokenRecord ++ [{}], bTokenRecording := true }

/-- The last token of the last record is erased. -/
def eraseLastToken (s : CHtfeLex) : Option CHtfeLex := do
  let r ← s.tokenRecord.getLast?
  if r.tokenList = [] then none else s.updateBack fun r => { r with tokenList := r.tokenList.dropLast }

def removeLastRecordedToken (s : CHtfeLex) : Option CHtfeLex := do
  let s ←
    if s.tokenRecord.length = 1 then
      (s.tokenRecord.getLast?.bind (·.tokenList.getLast?)).map fun t => { s with removedToken := some t }
    else if s.token ≠ .eor then
      s.playing.map fun r => s.setPlaying { r with playbackPos := r.playbackPos - 1 }
    else some s
  if s.token ≠ .eor then s.eraseLastToken else some s

def forLoopTokenPlayback (ctrlVarName : Text) (bUnsignedCtrlVar : Bool) (initValue exitValue incValue : Int)
    (s : CHtfeLex) : Option CHtfeLex := do
  let s ← s.updateBack fun r => { r with
    ctrlVarName, bUnsignedCtrlVar
    value := int32.wrap initValue
    exitValue := int32.wrap exitValue
    incValue := int32.wrap incValue
    playbackPos := -1 }
  getNextToken { s with
    bTokenRecording := false
    bTokenPlayback := true
    tokenPlaybackLevel := s.tokenPlaybackLevel + 1 }

def forLoopExit (s : CHtfeLex) : Option CHtfeLex :=
  if s.tokenPlaybackLevel ≠ -1 ∨ s.tokenRecord = [] then none
  else
    let s := { s with tokenRecord := s.tokenRecord.dropLast, bTokenRecording := false, bTokenPlayback := false }
    match s.removedToken with
    | some t => some { s with removedToken := none, token := t.token, stringBuf := t.getString }
    | none => s.getNextToken

end CHtfeLex

/-! ## The parser -/

/-- The header of a loop, and the number of tokens that its statement has. -/
structure ForLoop where
  tokens : ℕ
  ctrlVarName : Text
  bUnsignedCtrlVar : Bool
  initValue : Int
  exitValue : Int
  incValue : Int
deriving DecidableEq, Repr

inductive Step
  /-- The parser goes to the next token. -/
  | next
  /-- The parser is at the end of the header of a loop. -/
  | forLoop (l : ForLoop)
deriving DecidableEq, Repr

namespace CHtfeLex

def nextTokens : ℕ → CHtfeLex → Option CHtfeLex
  | 0, s => some s
  | n + 1, s => s.getNextToken.bind (nextTokens n)

/-- The end of `ParseForStatement`: `SkipStatement` goes to the token after the statement. -/
def forStatement (l : ForLoop) (s : CHtfeLex) : Option CHtfeLex := do
  let s ← nextTokens (l.tokens + 1) s.recordTokens
  let s ← s.removeLastRecordedToken
  if l.initValue < l.exitValue then
    s.forLoopTokenPlayback l.ctrlVarName l.bUnsignedCtrlVar l.initValue l.exitValue l.incValue
  else s.forLoopExit

def step (s : CHtfeLex) : Step → Option CHtfeLex
  | .next => s.getNextToken
  | .forLoop l => s.forStatement l

def run : CHtfeLex → List Step → Option CHtfeLex
  | s, [] => some s
  | s, a :: as => (s.step a).bind fun s => s.run as

end CHtfeLex

/-! ## Tokens to come -/

/-- A token as the parser sees it. -/
inductive Tok
  | text (kind : TextKind) (s : Text)
  | other (id : ℕ)
  | eof
  | eor
deriving DecidableEq, Repr

def EToken.tok (buf : Text) : EToken → Tok
  | text kind => .text kind buf
  | other id => .other id
  | eof => .eof
  | eor => .eor

def Lexeme.tok : Lexeme → Tok
  | text kind s => .text kind s
  | word id _ | symbol id => .other id

def CHtfeLex.tok (s : CHtfeLex) : Tok := s.token.tok s.stringBuf

def Tok.isString : Tok → Bool
  | .text .string _ => true
  | _ => false

/-- The tokens of the next calls of `GetNextToken`, from the current one on. -/
def CHtfeLex.deliver : ℕ → CHtfeLex → Option (List Tok)
  | 0, s => some [s.tok]
  | n + 1, s => s.getNextToken.bind fun s' => (deliver n s').map (s.tok :: ·)

/-- `init`, `init + inc`, … below `exit`, at most as many as the number says. -/
def valuesWithin (exit inc : Int) : ℕ → Int → List Int
  | 0, _ => []
  | n + 1, v => if v < exit then v :: valuesWithin exit inc n (v + inc) else []

/-- The values of the control variable. -/
def loopValues (init exit inc : Int) : List Int := valuesWithin exit inc (exit - init).toNat init

/-- The literal for a value, in the type of the variable. -/
def literal (bUnsigned : Bool) (v : Int) : Text := printInt v ++ if bUnsigned then ['u', 'l'] else []

/-- The control variable replaced by a value, in strings after `%`, where the whole name has to be the variable. -/
def Tok.subst (var : Text) (bUnsigned : Bool) (v : Int) : Tok → Tok
  | .text .identifier s => if s = var then .text .numInt (literal bUnsigned v) else .text .identifier s
  | .text .string s =>
    .text .string (replaceNames (fun s => s.takeWhile isIdent = var) var.length (printInt v) 0 s)
  | t => t

def ForLoop.values (l : ForLoop) : List Int := loopValues l.initValue l.exitValue l.incValue

/-- The body of a loop once for each value. -/
def ForLoop.unroll (l : ForLoop) (body : List Tok) : List (List Tok) :=
  l.values.map fun v => body.map (Tok.subst l.ctrlVarName l.bUnsignedCtrlVar v)

/-- The current token and those to come: what is left of an iteration and the iterations after it, from the innermost
loop outwards, and then the source. -/
structure TokStream where
  cur : Tok
  iters : List (List Tok)
  source : List Tok
deriving DecidableEq, Repr

namespace TokStream

def start (cur : Tok) (source : List Lexeme) : TokStream := ⟨cur, [], source.map Lexeme.tok⟩

/-- The next token. -/
def pop : List (List Tok) → List Tok → TokStream
  | [], [] => ⟨.eof, [], []⟩
  | [], t :: source => ⟨t, [], source⟩
  | [] :: iters, source => pop iters source
  | (t :: it) :: iters, source => ⟨t, it :: iters, source⟩

def next (q : TokStream) : TokStream := pop q.iters q.source

/-- The tokens a statement can have here: a loop in an iteration ends with it. -/
def ahead (q : TokStream) : List Tok := q.iters.head?.getD q.source

def dropAhead (k : ℕ) (q : TokStream) : TokStream :=
  match q.iters with
  | [] => { q with source := q.source.drop k }
  | it :: iters => { q with iters := it.drop k :: iters }

/-- A loop: its statement is replaced by the iterations. -/
def forLoop (l : ForLoop) (q : TokStream) : TokStream :=
  let rest := q.dropAhead l.tokens
  next { rest with iters := l.unroll (q.ahead.take l.tokens) ++ rest.iters }

def step (q : TokStream) : Step → TokStream
  | .next => q.next
  | .forLoop l => q.forLoop l

def run : TokStream → List Step → TokStream
  | q, [] => q
  | q, a :: as => (q.step a).run as

/-- The current token and the next ones. -/
def toList : ℕ → TokStream → List Tok
  | 0, q => [q.cur]
  | n + 1, q => q.cur :: toList n q.next

end TokStream

/-! ## The loops that are played back -/

/-- The names after `%` that begin with the variable are the variable. -/
def ExactNames (var : Text) : Text → Prop
  | [] => True
  | c :: s => (c = '%' → var <+: s → s.takeWhile isIdent = var) ∧ ExactNames var s

instance ExactNames.decidable (var : Text) : (s : Text) → Decidable (ExactNames var s)
  | [] => .isTrue trivial
  | _ :: s => @instDecidableAnd _ _ inferInstance (ExactNames.decidable var s)

/-- A token keeps its text when it is played back for a value. -/
def Tok.Plays (var : Text) (v : Int) : Tok → Prop
  | .text .numFloat _ => False
  | .text .string s => ExactNames var s ∧ (replacePrefix var v s).length < 256
  | _ => True

instance (var : Text) (v : Int) (t : Tok) : Decidable (t.Plays var v) := by
  cases t with
  | text kind s => cases kind <;> unfold Tok.Plays <;> infer_instance
  | other | eof | eor => exact .isTrue trivial

namespace ForLoop

/-- The values, and the first one that is too large, are of type `int`. -/
def IntValues (l : ForLoop) : Prop :=
  int32.InRange l.initValue ∧ int32.InRange l.exitValue ∧ int32.InRange l.incValue ∧
    ∀ v ∈ l.values, int32.InRange (v + l.incValue)

instance (l : ForLoop) : Decidable l.IntValues := by unfold IntValues; infer_instance

/-- A loop, at the end of its header. -/
structure Wf (l : ForLoop) (q : TokStream) : Prop where
  /-- The statement has a token. -/
  nonempty : 0 < l.tokens
  /-- The statement is within the one around it. -/
  within : l.tokens ≤ q.ahead.length
  up : 0 < l.incValue
  /-- `ForLoopExit` asserts that a loop without iterations is not in another one. -/
  runs : l.initValue < l.exitValue ∨ q.iters = []

/-- A loop that is played back as it should. -/
structure Meets (l : ForLoop) (q : TokStream) : Prop extends l.Wf q where
  ints : l.initValue < l.exitValue → l.IntValues
  plays : ∀ v ∈ l.values, ∀ t ∈ q.ahead.take l.tokens, t.Plays l.ctrlVarName v
  /-- The token after an outermost loop is no string. -/
  after : q.iters = [] → ∀ t ∈ (q.ahead.drop l.tokens).head?, t.isString = false

instance (l : ForLoop) (q : TokStream) : Decidable (l.Wf q) :=
  decidable_of_iff (0 < l.tokens ∧ l.tokens ≤ q.ahead.length ∧ 0 < l.incValue ∧
      (l.initValue < l.exitValue ∨ q.iters = []))
    ⟨fun h => ⟨h.1, h.2.1, h.2.2.1, h.2.2.2⟩, fun h => ⟨h.nonempty, h.within, h.up, h.runs⟩⟩

instance (l : ForLoop) (q : TokStream) : Decidable (l.Meets q) :=
  decidable_of_iff (l.Wf q ∧ (l.initValue < l.exitValue → l.IntValues) ∧
      (∀ v ∈ l.values, ∀ t ∈ q.ahead.take l.tokens, t.Plays l.ctrlVarName v) ∧
      (q.iters = [] → ∀ t ∈ (q.ahead.drop l.tokens).head?, t.isString = false))
    ⟨fun h => ⟨h.1, h.2.1, h.2.2.1, h.2.2.2⟩, fun h => ⟨h.toWf, h.ints, h.plays, h.after⟩⟩

end ForLoop

/-- Every loop of a run is played back as it should. -/
def Meets : TokStream → List Step → Prop
  | _, [] => True
  | q, .next :: as => Meets q.next as
  | q, .forLoop l :: as => l.Meets q ∧ Meets (q.forLoop l) as

instance Meets.decidable : (q : TokStream) → (as : List Step) → Decidable (Meets q as)
  | _, [] => .isTrue trivial
  | q, .next :: as => Meets.decidable q.next as
  | q, .forLoop l :: as => @instDecidableAnd _ _ inferInstance (Meets.decidable (q.forLoop l) as)

end OpenHT.Htfe.Playback
