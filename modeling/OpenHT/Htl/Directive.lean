import Mathlib.Data.Nat.Notation
import OpenHT.Lib.Lts

/-!
# Conditional directives of the preprocessor

`GetLine` reads lines until it can return one; both tools have the same directive code.

* `FileFrame`: the three stacks of an open file.
* `PreProcess`: the file stack, `m_bSkipLines`, the messages and the lines returned.
* `PreProcess.step`: what `GetLine` does with one line, or with the end of a file.
* `Consistent`: the stacks have one size, at least one, and the flag is the top of the skip stack.
* `directives_consistent`: runs in which no included file ends while lines are skipped.
-/

namespace OpenHT.Htl

/-- What stops the preprocessor. -/
inductive Stop
  /-- `back`, `pop_back` or an index on a vector that is too short. -/
  | emptyStack
  /-- `Open` with all of `m_fileStack` in use. -/
  | fileStackFull
  /-- `GetLine` after the end of the initial file. -/
  | noFile
  /-- `ParseMsg(Fatal, ..)`. -/
  | fatal (msg : String)
deriving DecidableEq, Repr

/-- `MAX_FILE_STACK` -/
def maxFileStack : ℕ := 32

/-- The stacks of an open file, last pushed first. -/
structure FileFrame where
  bSkipStack : List Bool
  bElseStack : List Bool
  bSkipToEndif : List Bool
deriving DecidableEq, Repr

/-- The stacks after `Open`. -/
def FileFrame.opened : FileFrame := ⟨[false], [false], [false]⟩

/-- `v.back()` -/
def back : List Bool → Except Stop Bool
  | [] => .error .emptyStack
  | b :: _ => .ok b

/-- `v[v.size() - 2]` -/
def belowBack : List Bool → Except Stop Bool
  | _ :: b :: _ => .ok b
  | _ => .error .emptyStack

/-- `v.back() = b` -/
def setBack (b : Bool) : List Bool → Except Stop (List Bool)
  | [] => .error .emptyStack
  | _ :: v => .ok (b :: v)

/-- `v.pop_back()` -/
def popBack : List Bool → Except Stop (List Bool)
  | [] => .error .emptyStack
  | _ :: v => .ok v

/-- What a directive leaves: the stacks, `m_bSkipLines` and its messages. -/
structure Outcome where
  frame : FileFrame
  bSkipLines : Bool
  msgs : List String
deriving DecidableEq, Repr

namespace FileFrame

variable (f : FileFrame)

/-- `#if`, `#ifdef` and `#ifndef`; `skip` is the result of `PreProcessIf` and its siblings. -/
def dirIf (skip : Bool) : Except Stop Outcome :=
  return ⟨⟨skip :: f.bSkipStack, false :: f.bElseStack, (!skip) :: f.bSkipToEndif⟩, skip, []⟩

/-- `bSkipStack.size() <= 1 || bElseStack.back() == true` -/
def noOpenIf : Except Stop Bool :=
  if f.bSkipStack.length ≤ 1 then return true else back f.bElseStack

/-- `#else` and `#elif` after lines that were read: the rest of the group is skipped. -/
def endRead (elseSeen : Bool) (msg : String) : Except Stop Outcome := do
  if ← f.noOpenIf then
    return ⟨f, false, [msg]⟩
  else
    return ⟨⟨← setBack true f.bSkipStack, ← setBack elseSeen f.bElseStack, ← setBack true f.bSkipToEndif⟩,
      true, []⟩

def dirElse : Except Stop Outcome := f.endRead true "Unexpected #else directive"

def dirElif : Except Stop Outcome := f.endRead false "Unexpected #elif directive"

def dirEndif : Except Stop Outcome := do
  if f.bSkipStack.length ≤ 1 then
    return ⟨f, false, ["Unexpected #endif directive"]⟩
  else
    return ⟨⟨← popBack f.bSkipStack, ← popBack f.bElseStack, ← popBack f.bSkipToEndif⟩, false, []⟩

/-- `#if`, `#ifdef` and `#ifndef` in skipped lines; the condition is not evaluated. -/
def skipIf : Except Stop Outcome :=
  return ⟨⟨true :: f.bSkipStack, false :: f.bElseStack, true :: f.bSkipToEndif⟩, true, []⟩

/-- `bSkipStack[size - 2] == false && bSkipToEndif.back() == false` -/
def mayResume : Except Stop Bool := do
  if ← belowBack f.bSkipStack then return false else return !(← back f.bSkipToEndif)

/-- The message of an `#else` or `#elif` after `#else`. -/
def afterElse (msg : String) : Except Stop (List String) := do
  return if ← back f.bElseStack then [msg] else []

def skipElse : Except Stop Outcome := do
  let msgs ← f.afterElse "Unexpected #else directive"
  let elseStack ← setBack true f.bElseStack
  if ← f.mayResume then
    return ⟨⟨← setBack false f.bSkipStack, elseStack, f.bSkipToEndif⟩, false, msgs⟩
  else
    return ⟨⟨f.bSkipStack, elseStack, f.bSkipToEndif⟩, true, msgs⟩

def skipElif (skip : Bool) : Except Stop Outcome := do
  let msgs ← f.afterElse "Unexpected #elif directive"
  if ← f.mayResume then
    return ⟨⟨← setBack skip f.bSkipStack, ← setBack false f.bElseStack, ← setBack (!skip) f.bSkipToEndif⟩,
      skip, msgs⟩
  else
    return ⟨f, true, msgs⟩

def skipEndif : Except Stop Outcome := do
  let elseStack ← popBack f.bElseStack
  let skipStack ← popBack f.bSkipStack
  let skipToEndif ← popBack f.bSkipToEndif
  return ⟨⟨skipStack, elseStack, skipToEndif⟩, ← back skipStack, []⟩

/-- The loop at the end of a file: pop the three stacks down to one entry of the skip stack. -/
def popGroups : List Bool → List Bool → List Bool → Except Stop FileFrame
  | _ :: b :: sk, el, te => do popGroups (b :: sk) (← popBack el) (← popBack te)
  | sk, el, te => return ⟨sk, el, te⟩

end FileFrame

/-- What `PreProcessInclude` finds. -/
inductive IncludeArg
  | system
  /-- No file name in quotes. -/
  | malformed
  /-- A file on the list of `#pragma once`. -/
  | once
  | file
  | missing (fileName : String)
deriving DecidableEq, Repr

/-- A line after comment stripping, or the end of a file. An `#if` or `#elif` carries what its
condition comes to if it is evaluated. -/
inductive Event
  | text (line : String)
  | dirNull
  | dirDefine
  | dirUndef
  | dirInclude (a : IncludeArg)
  | dirPragma
  /-- `#pragma htl`; `Htfe` has no such pragma. -/
  | dirPragmaHtl (line : String)
  | dirIf (skip : Bool)
  | dirIfdef (skip : Bool)
  | dirIfndef (skip : Bool)
  | dirElse
  | dirElif (skip : Bool)
  | dirEndif
  | dirUnknown (line : String)
  | eof
deriving DecidableEq, Repr

structure PreProcess where
  /-- `m_fileStack`, the current file first. -/
  fileStack : List FileFrame
  bSkipLines : Bool
  msgs : List String
  /-- The lines `GetLine` returned, before macro expansion. -/
  lines : List String
deriving DecidableEq, Repr

namespace PreProcess

variable (s : PreProcess)

/-- The constructor and `Open` of the initial file. -/
def start : PreProcess := ⟨[.opened], false, [], []⟩

def openFile : Except Stop PreProcess :=
  if s.fileStack.length < maxFileStack then return { s with fileStack := .opened :: s.fileStack }
  else .error .fileStackFull

def preProcessInclude : IncludeArg → Except Stop PreProcess
  | .system | .once => return s
  | .malformed => return { s with msgs := s.msgs ++ ["Include file error"] }
  | .file => s.openFile
  | .missing fileName => .error (.fatal ("Could not open file '" ++ fileName ++ "'"))

/-- The end of the current file; `m_bSkipLines` is left as it is. -/
def endOfFile (f : FileFrame) (rest : List FileFrame) : Except Stop PreProcess := do
  if f.bSkipStack.length ≠ 1 then
    let _ ← FileFrame.popGroups f.bSkipStack f.bElseStack f.bSkipToEndif
    return { s with fileStack := rest, msgs := s.msgs ++ ["EOF - Expected #endif"] }
  else return { s with fileStack := rest }

/-- A directive that works on the stacks of the current file. -/
def onFrame (rest : List FileFrame) (r : Except Stop Outcome) : Except Stop PreProcess := do
  let o ← r
  return { s with fileStack := o.frame :: rest, bSkipLines := o.bSkipLines, msgs := s.msgs ++ o.msgs }

/-- A line while no lines are skipped. -/
def readLine (f : FileFrame) (rest : List FileFrame) : Event → Except Stop PreProcess
  | .text line => return { s with lines := s.lines ++ [line] }
  | .dirNull | .dirDefine | .dirUndef | .dirPragma => return s
  | .dirPragmaHtl line => return { s with lines := s.lines ++ [line ++ "#"] }
  | .dirInclude a => s.preProcessInclude a
  | .dirIf skip | .dirIfdef skip | .dirIfndef skip => s.onFrame rest (f.dirIf skip)
  | .dirElse => s.onFrame rest f.dirElse
  | .dirElif _ => s.onFrame rest f.dirElif
  | .dirEndif => s.onFrame rest f.dirEndif
  | .dirUnknown line =>
    return { s with msgs := s.msgs ++ ["Unknown preprocessing directive"], lines := s.lines ++ [line] }
  | .eof => s.endOfFile f rest

/-- A line while lines are skipped. -/
def skipLine (f : FileFrame) (rest : List FileFrame) : Event → Except Stop PreProcess
  | .dirIf _ | .dirIfdef _ | .dirIfndef _ => s.onFrame rest f.skipIf
  | .dirElse => s.onFrame rest f.skipElse
  | .dirElif skip => s.onFrame rest (f.skipElif skip)
  | .dirEndif => s.onFrame rest f.skipEndif
  | .eof => s.endOfFile f rest
  | .text _ | .dirNull | .dirDefine | .dirUndef | .dirInclude _ | .dirPragma | .dirPragmaHtl _
  | .dirUnknown _ => return s

/-- One pass of the loop in `GetLine`. -/
def step (e : Event) : Except Stop PreProcess :=
  match s.fileStack with
  | [] => .error .noFile
  | f :: rest => if s.bSkipLines then s.skipLine f rest e else s.readLine f rest e

end PreProcess

/-! ## Stacks of one file -/

/-- A skip stack that ends in the `false` of `Open` and has `true` on top of every `true`. -/
def SkipOk : List Bool → Prop
  | [] => False
  | [b] => b = false
  | a :: b :: sk => (b = true → a = true) ∧ SkipOk (b :: sk)

attribute [local simp] SkipOk

theorem SkipOk.push {a b : Bool} {sk : List Bool} (h : SkipOk (b :: sk)) (hab : b = true → a = true) :
    SkipOk (a :: b :: sk) := ⟨hab, h⟩

theorem SkipOk.exists_cons {sk : List Bool} (h : SkipOk sk) : ∃ b sk', sk = b :: sk' := by
  cases sk with
  | nil => exact absurd h (by simp [SkipOk])
  | cons b sk' => exact ⟨b, sk', rfl⟩

/-- A skipped group lies inside a file: there is an entry below. -/
theorem SkipOk.of_true {sk : List Bool} (h : SkipOk (true :: sk)) :
    ∃ b sk', sk = b :: sk' ∧ SkipOk (b :: sk') := by
  cases sk with
  | nil => exact absurd h (by simp [SkipOk])
  | cons b sk' => exact ⟨b, sk', rfl, h.2⟩

/-- Below a group that is read, lines are read. -/
theorem SkipOk.of_false {b : Bool} {sk : List Bool} (h : SkipOk (false :: b :: sk)) :
    b = false ∧ SkipOk (b :: sk) := by
  cases b with
  | false => exact ⟨rfl, h.2⟩
  | true => exact absurd (h.1 rfl) (by simp)

/-- The stacks of a file match; `top` is the entry on top of the skip stack. -/
structure FrameOk (f : FileFrame) (top : Bool) : Prop where
  elseLen : f.bElseStack.length = f.bSkipStack.length
  elifLen : f.bSkipToEndif.length = f.bSkipStack.length
  skipOk : SkipOk f.bSkipStack
  headTop : f.bSkipStack.head? = some top

theorem FrameOk.opened : FrameOk .opened false := ⟨rfl, rfl, rfl, rfl⟩

/-- The three stacks of a file, written out. -/
theorem FrameOk.cons {f : FileFrame} {top : Bool} (h : FrameOk f top) :
    ∃ sk e el t te, f = ⟨top :: sk, e :: el, t :: te⟩ ∧ el.length = sk.length ∧ te.length = sk.length := by
  obtain ⟨sk, el, te⟩ := f
  obtain ⟨b, sk, rfl⟩ := h.skipOk.exists_cons
  obtain rfl : b = top := by simpa using h.headTop
  have h1 := h.elseLen
  have h2 := h.elifLen
  cases el with
  | nil => simp at h1
  | cons e el =>
    cases te with
    | nil => simp at h2
    | cons t te => exact ⟨sk, e, el, t, te, rfl, by simpa using h1, by simpa using h2⟩

theorem FrameOk.of_tails {top e t : Bool} {sk el te : List Bool} (h : SkipOk (top :: sk))
    (h1 : el.length = sk.length) (h2 : te.length = sk.length) :
    FrameOk ⟨top :: sk, e :: el, t :: te⟩ top := by
  refine ⟨?_, ?_, h, rfl⟩
  · simp [h1]
  · simp [h2]

/-- A handler of a directive that stops nowhere and leaves matching stacks. -/
def Keeps (r : Except Stop Outcome) : Prop := ∃ o, r = .ok o ∧ FrameOk o.frame o.bSkipLines

section Handlers

variable {f : FileFrame}

theorem dirIf_keeps (h : FrameOk f false) (skip : Bool) : Keeps (f.dirIf skip) := by
  obtain ⟨sk, e, el, t, te, rfl, h1, h2⟩ := h.cons
  have hs : SkipOk (skip :: false :: sk) := h.skipOk.push (by simp)
  exact ⟨_, rfl, .of_tails hs (by simp [h1]) (by simp [h2])⟩

theorem endRead_keeps (h : FrameOk f false) (elseSeen : Bool) (msg : String) :
    Keeps (f.endRead elseSeen msg) := by
  obtain ⟨sk, e, el, t, te, rfl, h1, h2⟩ := h.cons
  unfold FileFrame.endRead FileFrame.noOpenIf
  cases sk with
  | nil => exact ⟨_, rfl, h⟩
  | cons b sk =>
    have hs : SkipOk (true :: b :: sk) := h.skipOk.of_false.2.push (by simp)
    cases e with
    | true => exact ⟨_, rfl, h⟩
    | false => exact ⟨_, rfl, .of_tails hs h1 h2⟩

theorem dirEndif_keeps (h : FrameOk f false) : Keeps f.dirEndif := by
  obtain ⟨sk, e, el, t, te, rfl, h1, h2⟩ := h.cons
  unfold FileFrame.dirEndif
  cases sk with
  | nil => exact ⟨_, rfl, h⟩
  | cons b sk =>
    -- The group was read, so the lines around it are.
    obtain ⟨rfl, hs⟩ := h.skipOk.of_false
    refine ⟨_, rfl, ?_⟩
    have h' : FrameOk ⟨false :: sk, el, te⟩ false := ⟨by simpa using h1, by simpa using h2, hs, rfl⟩
    exact h'

theorem skipIf_keeps (h : FrameOk f true) : Keeps f.skipIf := by
  obtain ⟨sk, e, el, t, te, rfl, h1, h2⟩ := h.cons
  have hs : SkipOk (true :: true :: sk) := h.skipOk.push (by simp)
  exact ⟨_, rfl, .of_tails hs (by simp [h1]) (by simp [h2])⟩

/-- Both ways `#else` and `#elif` can go in skipped lines: lines may be read again only
where the lines around the group are. -/
theorem mayResume_cases (h : FrameOk f true) :
    ∃ b sk e el t te, f = ⟨true :: b :: sk, e :: el, t :: te⟩ ∧
      el.length = (b :: sk).length ∧ te.length = (b :: sk).length ∧ SkipOk (b :: sk) ∧
      (f.mayResume = .ok true ∧ b = false ∨ f.mayResume = .ok false) := by
  obtain ⟨sk, e, el, t, te, rfl, h1, h2⟩ := h.cons
  obtain ⟨b, sk, rfl, hb⟩ := h.skipOk.of_true
  refine ⟨b, sk, e, el, t, te, rfl, h1, h2, hb, ?_⟩
  cases b with
  | true => exact .inr rfl
  | false =>
    cases t with
    | true => exact .inr rfl
    | false => exact .inl ⟨rfl, rfl⟩

theorem afterElse_ok {e : Bool} {sk el te : List Bool} (msg : String) :
    FileFrame.afterElse ⟨sk, e :: el, te⟩ msg = .ok (if e then [msg] else []) := rfl

theorem skipElse_keeps (h : FrameOk f true) : Keeps f.skipElse := by
  obtain ⟨b, sk, e, el, t, te, rfl, h1, h2, hb, hr⟩ := mayResume_cases h
  unfold FileFrame.skipElse
  obtain ⟨hr, rfl⟩ | hr := hr
  · rw [hr, afterElse_ok]
    exact ⟨_, rfl, .of_tails (hb.push (by simp)) h1 h2⟩
  · rw [hr, afterElse_ok]
    exact ⟨_, rfl, .of_tails (hb.push (by simp)) h1 h2⟩

theorem skipElif_keeps (h : FrameOk f true) (skip : Bool) : Keeps (f.skipElif skip) := by
  obtain ⟨b, sk, e, el, t, te, rfl, h1, h2, hb, hr⟩ := mayResume_cases h
  unfold FileFrame.skipElif
  obtain ⟨hr, rfl⟩ | hr := hr
  · rw [hr, afterElse_ok]
    exact ⟨_, rfl, .of_tails (hb.push (by simp)) h1 h2⟩
  · rw [hr, afterElse_ok]
    exact ⟨_, rfl, h⟩

theorem skipEndif_keeps (h : FrameOk f true) : Keeps f.skipEndif := by
  obtain ⟨sk, e, el, t, te, rfl, h1, h2⟩ := h.cons
  obtain ⟨b, sk, rfl, hb⟩ := h.skipOk.of_true
  have h' : FrameOk ⟨b :: sk, el, te⟩ b := ⟨by simpa using h1, by simpa using h2, hb, rfl⟩
  exact ⟨_, rfl, h'⟩

/-- The loop at the end of a file stops nowhere. -/
theorem popGroups_ok (sk el te : List Bool) (h1 : el.length = sk.length) (h2 : te.length = sk.length) :
    ∃ g, FileFrame.popGroups sk el te = .ok g := by
  induction sk generalizing el te with
  | nil => exact ⟨_, rfl⟩
  | cons a sk ih =>
    cases sk with
    | nil => exact ⟨_, rfl⟩
    | cons b sk =>
      cases el with
      | nil => simp at h1
      | cons e el =>
        cases te with
        | nil => simp at h2
        | cons t te => exact ih el te (by simpa using h1) (by simpa using h2)

end Handlers

/-! ## All open files -/

namespace PreProcess

variable {s s' : PreProcess}

/-- The three stacks of the current file have one size, at least one, and `m_bSkipLines` is the
top of the skip stack. -/
def Consistent (s : PreProcess) : Prop :=
  ∀ f ∈ s.fileStack.head?, f.bElseStack.length = f.bSkipStack.length ∧
    f.bSkipToEndif.length = f.bSkipStack.length ∧ 1 ≤ f.bSkipStack.length ∧
    f.bSkipStack.head? = some s.bSkipLines

/-- The stacks of every open file match. Files below the current one are at an `#include`, so
their lines are read. -/
structure Inv (s : PreProcess) : Prop where
  current : ∀ f ∈ s.fileStack.head?, FrameOk f s.bSkipLines
  below : ∀ f ∈ s.fileStack.tail, FrameOk f false

theorem Inv.start : Inv start := by
  constructor
  · simp [PreProcess.start, FrameOk.opened]
  · simp [PreProcess.start]

theorem Inv.consistent (h : Inv s) : Consistent s := by
  intro f hf
  obtain ⟨sk, e, el, t, te, rfl, h1, h2⟩ := (h.current f hf).cons
  have ht := (h.current _ hf).headTop
  refine ⟨?_, ?_, ?_, ht⟩
  · simp [h1]
  · simp [h2]
  · simp

/-- **The condition.** An included file does not end while lines are skipped. -/
def EofWhileRead (s : PreProcess) (e : Event) : Prop :=
  e = .eof → 1 < s.fileStack.length → s.bSkipLines = false

instance (s : PreProcess) (e : Event) : Decidable (EofWhileRead s e) :=
  inferInstanceAs (Decidable (e = .eof → 1 < s.fileStack.length → s.bSkipLines = false))

/-- What a step did with the current file `f`, over the files `rest`. -/
inductive Effect (s : PreProcess) (f : FileFrame) (rest : List FileFrame) : Event → Except Stop PreProcess → Prop
  /-- The line changed no stack. -/
  | line {e : Event} (msgs lines : List String) : e ≠ .eof →
      Effect s f rest e (.ok { s with msgs := msgs, lines := lines })
  | directive {e : Event} (o : Outcome) : e ≠ .eof → FrameOk o.frame o.bSkipLines →
      Effect s f rest e (.ok { s with
        fileStack := o.frame :: rest, bSkipLines := o.bSkipLines, msgs := s.msgs ++ o.msgs })
  | opened : s.bSkipLines = false → Effect s f rest (.dirInclude .file) s.openFile
  | missing (n : String) : Effect s f rest (.dirInclude (.missing n))
      (.error (.fatal ("Could not open file '" ++ n ++ "'")))
  | eof : Effect s f rest .eof (.ok { s with
      fileStack := rest, msgs := s.msgs ++ if f.bSkipStack.length = 1 then [] else ["EOF - Expected #endif"] })

theorem onFrame_effect {f : FileFrame} {rest : List FileFrame} {e : Event} {r : Except Stop Outcome}
    (he : e ≠ .eof) (h : Keeps r) : Effect s f rest e (s.onFrame rest r) := by
  obtain ⟨o, rfl, ho⟩ := h
  exact .directive o he ho

theorem endOfFile_effect {f : FileFrame} {rest : List FileFrame} {top : Bool} (h : FrameOk f top) :
    Effect s f rest .eof (s.endOfFile f rest) := by
  unfold endOfFile
  obtain ⟨g, hg⟩ := popGroups_ok _ _ _ h.elseLen h.elifLen
  have he : Effect s f rest .eof _ := .eof
  by_cases h1 : f.bSkipStack.length = 1
  · rw [if_pos h1, List.append_nil] at he
    rw [if_neg (by simpa using h1)]
    exact he
  · rw [if_neg h1] at he
    rw [if_pos h1, hg]
    exact he

theorem readLine_effect {f : FileFrame} {rest : List FileFrame} (h : FrameOk f false)
    (hb : s.bSkipLines = false) (e : Event) : Effect s f rest e (s.readLine f rest e) := by
  cases e with
  | text line => exact .line _ _ (by simp)
  | dirNull | dirDefine | dirUndef | dirPragma => exact .line _ _ (by simp)
  | dirPragmaHtl line => exact .line _ _ (by simp)
  | dirUnknown line => exact .line _ _ (by simp)
  | dirInclude a =>
    cases a with
    | system | malformed | once => exact .line _ _ (by simp)
    | file => exact .opened hb
    | missing n => exact .missing n
  | dirIf skip | dirIfdef skip | dirIfndef skip => exact onFrame_effect (by simp) (dirIf_keeps h skip)
  | dirElse => exact onFrame_effect (by simp) (endRead_keeps h _ _)
  | dirElif skip => exact onFrame_effect (by simp) (endRead_keeps h _ _)
  | dirEndif => exact onFrame_effect (by simp) (dirEndif_keeps h)
  | eof => exact endOfFile_effect h

theorem skipLine_effect {f : FileFrame} {rest : List FileFrame} (h : FrameOk f true) (e : Event) :
    Effect s f rest e (s.skipLine f rest e) := by
  cases e with
  | text line => exact .line _ _ (by simp)
  | dirNull | dirDefine | dirUndef | dirPragma => exact .line _ _ (by simp)
  | dirPragmaHtl line => exact .line _ _ (by simp)
  | dirUnknown line => exact .line _ _ (by simp)
  | dirInclude a => exact .line _ _ (by simp)
  | dirIf skip | dirIfdef skip | dirIfndef skip => exact onFrame_effect (by simp) (skipIf_keeps h)
  | dirElse => exact onFrame_effect (by simp) (skipElse_keeps h)
  | dirElif skip => exact onFrame_effect (by simp) (skipElif_keeps h skip)
  | dirEndif => exact onFrame_effect (by simp) (skipEndif_keeps h)
  | eof => exact endOfFile_effect h

/-- Every step on consistent stacks has one of the effects. -/
theorem Inv.effect (h : Inv s) {f : FileFrame} {rest : List FileFrame} (hs : s.fileStack = f :: rest)
    (e : Event) : Effect s f rest e (s.step e) := by
  have hf : FrameOk f s.bSkipLines := h.current f (by rw [hs]; rfl)
  unfold step
  rw [hs]
  cases hb : s.bSkipLines with
  | false => exact readLine_effect (hb ▸ hf) hb e
  | true => exact skipLine_effect (hb ▸ hf) e

theorem fileStack_of_step {e : Event} (h : s.step e = .ok s') : ∃ f rest, s.fileStack = f :: rest := by
  cases hs : s.fileStack with
  | nil => simp [step, hs] at h
  | cons f rest => exact ⟨f, rest, rfl⟩

/-- **One step.** Consistent stacks stay consistent unless an included file ends while lines are skipped. -/
theorem Inv.step (h : Inv s) {e : Event} (hok : EofWhileRead s e) (he : s.step e = .ok s') : Inv s' := by
  obtain ⟨f, rest, hs⟩ := fileStack_of_step he
  have hf : FrameOk f s.bSkipLines := h.current f (by rw [hs]; rfl)
  have hrest : ∀ g ∈ rest, FrameOk g false := by
    intro g hg
    exact h.below g (by rw [hs]; exact hg)
  have heff := h.effect hs e
  rw [he] at heff
  generalize hr : (Except.ok s' : Except Stop PreProcess) = r at heff
  cases heff with
  | line msgs lines hne =>
    cases hr
    exact ⟨h.current, h.below⟩
  | directive o hne ho =>
    cases hr
    refine ⟨?_, hrest⟩
    intro g hg
    cases hg
    exact ho
  | opened hb =>
    unfold openFile at hr
    split at hr
    · cases hr
      refine ⟨?_, ?_⟩
      · intro g hg
        cases hg
        exact hb ▸ .opened
      · intro g hg
        rw [List.tail_cons, hs] at hg
        rcases List.mem_cons.1 hg with rfl | hg
        · exact hb ▸ hf
        · exact hrest g hg
    · cases hr
  | missing n => cases hr
  | eof =>
    cases hr
    refine ⟨?_, fun g hg => hrest g (List.mem_of_mem_tail hg)⟩
    intro g hg
    have hg : g ∈ rest := List.mem_of_mem_head? hg
    -- The includer is at its `#include`; the flag must say the same.
    have hlen : 1 < s.fileStack.length := by
      have := List.length_pos_of_mem hg
      rw [hs, List.length_cons]
      omega
    have hb : s.bSkipLines = false := hok rfl hlen
    have hg' := hrest g hg
    rw [← hb] at hg'
    exact hg'

theorem inv_of_reach (hr : Lts.Reach PreProcess.step EofWhileRead start s) : Inv s := by
  refine hr.invariant Inv.start ?_ s
  intro s s' e _ h hok he
  exact h.step hok he

/-- **No step reads an empty stack.** -/
theorem Inv.step_ne_emptyStack (h : Inv s) (e : Event) : s.step e ≠ .error .emptyStack := by
  cases hs : s.fileStack with
  | nil => simp [PreProcess.step, hs]
  | cons f rest =>
    have heff := h.effect hs e
    intro he
    rw [he] at heff
    generalize hr : (Except.error Stop.emptyStack : Except Stop PreProcess) = r at heff
    cases heff with
    | line msgs lines hne => cases hr
    | directive o hne ho => cases hr
    | opened hb =>
      unfold openFile at hr
      split at hr <;> cases hr
    | missing n => cases hr
    | eof => cases hr

/-- **The end of a file.** An open group is reported and the file is closed. -/
theorem Inv.step_eof (h : Inv s) {f : FileFrame} {rest : List FileFrame} (hs : s.fileStack = f :: rest) :
    s.step .eof = .ok { s with
      fileStack := rest
      msgs := s.msgs ++ if f.bSkipStack.length = 1 then [] else ["EOF - Expected #endif"] } := by
  have heff := h.effect hs .eof
  generalize hr : s.step .eof = r at heff ⊢
  cases heff with
  | line msgs lines hne => exact absurd rfl hne
  | directive o hne ho => exact absurd rfl hne
  | eof => rfl

theorem Inv.consistent_step_iff (h : Inv s) {e : Event} (he : s.step e = .ok s') :
    Consistent s' ↔ EofWhileRead s e := by
  constructor
  · rintro hc rfl hlen
    obtain ⟨f, rest, hs⟩ := fileStack_of_step he
    rw [h.step_eof hs] at he
    cases he
    cases rest with
    | nil => simp [hs] at hlen
    | cons g rest =>
      have htop : g.bSkipStack.head? = some s.bSkipLines := (hc g rfl).2.2.2
      have hg : FrameOk g false := h.below g (by rw [hs]; exact List.mem_cons_self)
      rw [hg.headTop] at htop
      exact (Option.some.inj htop).symm
  · intro hok
    exact (h.step hok he).consistent

/-! ## Included files -/

/-- Steps that do not close the file at depth `n + 1`. -/
def Inside (n : ℕ) (s : PreProcess) (e : Event) : Prop :=
  EofWhileRead s e ∧ (e = .eof → n + 1 < s.fileStack.length)

/-- Inside an included file the files below it stay as they were. -/
theorem Inv.inside_step {base : List FileFrame} {e : Event} (h : Inv s)
    (hb : ∃ f upper, s.fileStack = f :: upper ++ base) (hok : Inside base.length s e)
    (he : s.step e = .ok s') : ∃ f upper, s'.fileStack = f :: upper ++ base := by
  obtain ⟨f, upper, hs⟩ := hb
  have heff := h.effect hs e
  rw [he] at heff
  generalize hr : (Except.ok s' : Except Stop PreProcess) = r at heff
  cases heff with
  | line msgs lines hne =>
    cases hr
    exact ⟨f, upper, hs⟩
  | directive o hne ho =>
    cases hr
    exact ⟨o.frame, upper, rfl⟩
  | opened hb =>
    unfold openFile at hr
    split at hr
    · cases hr
      exact ⟨.opened, f :: upper, by rw [hs]; rfl⟩
    · cases hr
  | missing n => cases hr
  | eof =>
    cases hr
    cases upper with
    | nil =>
      have hlen := hok.2 rfl
      rw [hs] at hlen
      simp at hlen
    | cons g upper => exact ⟨g, upper, rfl⟩

theorem Inv.inside {base : List FileFrame} {s₁ : PreProcess} (h : Inv s₁)
    (hb : ∃ f upper, s₁.fileStack = f :: upper ++ base)
    (hr : Lts.Reach PreProcess.step (Inside base.length) s₁ s) :
    Inv s ∧ ∃ f upper, s.fileStack = f :: upper ++ base := by
  refine hr.invariant (I := fun s => Inv s ∧ ∃ f upper, s.fileStack = f :: upper ++ base) ⟨h, hb⟩ ?_ s
  intro s s' e _ hs hok he
  exact ⟨hs.1.step hok.1 he, hs.1.inside_step hs.2 hok he⟩

/-- **An included file.** Between `#include` and the end of the file opened there, only messages
and returned lines are added. -/
theorem Inv.include_frame {s₁ s₂ s₃ : PreProcess} (h : Inv s) (ho : s.step (.dirInclude .file) = .ok s₁)
    (hlen : s₁.fileStack.length = s.fileStack.length + 1)
    (hr : Lts.Reach PreProcess.step (Inside s.fileStack.length) s₁ s₂)
    (hlen₂ : s₂.fileStack.length = s.fileStack.length + 1) (hok : EofWhileRead s₂ .eof)
    (he : s₂.step .eof = .ok s₃) : s₃.fileStack = s.fileStack ∧ s₃.bSkipLines = s.bSkipLines := by
  obtain ⟨f, rest, hs⟩ := fileStack_of_step ho
  have hbase : s.bSkipLines = false ∧ ∃ g upper, s₁.fileStack = g :: upper ++ s.fileStack := by
    have heff := h.effect hs (.dirInclude .file)
    rw [ho] at heff
    generalize hr : (Except.ok s₁ : Except Stop PreProcess) = r at heff
    cases heff with
    | line msgs lines hne =>
      cases hr
      simp at hlen
    | directive o hne ho =>
      cases hr
      rw [hs] at hlen
      simp at hlen
    | opened hb =>
      unfold openFile at hr
      split at hr
      · cases hr
        exact ⟨hb, .opened, [], rfl⟩
      · cases hr
  have h₁ : Inv s₁ := h.step (by intro hc; cases hc) ho
  obtain ⟨h₂, g, upper, hs₂⟩ := h₁.inside hbase.2 hr
  have hupper : upper = [] := by
    rw [hs₂] at hlen₂
    simpa using hlen₂
  have hskip : s₂.bSkipLines = false := hok rfl (by rw [hlen₂, hs]; simp)
  rw [h₂.step_eof hs₂] at he
  cases he
  refine ⟨?_, ?_⟩
  · simp [hupper]
  · exact hskip.trans hbase.1.symm

/-- **Directive stacks stay consistent** in every run in which no included file ends while lines
are skipped: no step reads an empty stack, an open group at the end of a file is reported, and an
included file leaves its includer's stacks and flag alone. One more step keeps the stacks
consistent exactly when it meets the condition. -/
theorem directives_consistent (hr : Lts.Reach PreProcess.step EofWhileRead PreProcess.start s) :
    Consistent s ∧ (∀ e, s.step e ≠ .error .emptyStack) ∧
    (∀ f rest, s.fileStack = f :: rest → s.step .eof = .ok { s with
      fileStack := rest
      msgs := s.msgs ++ if f.bSkipStack.length = 1 then [] else ["EOF - Expected #endif"] }) ∧
    (∀ s₁ s₂ s₃, s.step (.dirInclude .file) = .ok s₁ → s₁.fileStack.length = s.fileStack.length + 1 →
      Lts.Reach PreProcess.step (Inside s.fileStack.length) s₁ s₂ →
      s₂.fileStack.length = s.fileStack.length + 1 → EofWhileRead s₂ .eof → s₂.step .eof = .ok s₃ →
      s₃.fileStack = s.fileStack ∧ s₃.bSkipLines = s.bSkipLines) ∧
    (∀ e s', s.step e = .ok s' → (Consistent s' ↔ EofWhileRead s e)) := by
  have h : Inv s := inv_of_reach hr
  refine ⟨h.consistent, h.step_ne_emptyStack, fun f rest hs => h.step_eof hs, ?_, ?_⟩
  · intro s₁ s₂ s₃ ho hlen hr₂ hlen₂ hok he
    exact h.include_frame ho hlen hr₂ hlen₂ hok he
  · intro e s' he
    exact h.consistent_step_iff he

/-- A group of an included file that is closed before the end of the file. -/
theorem directives_consistent_demo :
    Consistent ⟨[⟨[false, false], [false, false], [true, false]⟩], false, [], []⟩ := by
  have hrun : Lts.runIf PreProcess.step (fun s e => decide (EofWhileRead s e)) PreProcess.start
      [.dirIf false, .dirInclude .file, .dirIf true, .text "skipped", .dirEndif, .eof] =
      some ⟨[⟨[false, false], [false, false], [true, false]⟩], false, [], []⟩ := rfl
  exact (directives_consistent (Lts.Reach.init.runIf (fun _ _ hc => of_decide_eq_true hc) _ hrun)).1

/-- An included file that ends inside a skipped group: the includer's lines are skipped although
none of its groups is open, and its next `#endif` reads the back of an empty stack. -/
theorem eof_while_skipped :
    ∃ s s', Lts.Reach PreProcess.step (fun _ _ => True) PreProcess.start s ∧
      s.step .eof = .ok s' ∧ ¬ Consistent s' ∧
      s'.step (.text "int i;") = .ok s' ∧ s'.step .dirEndif = .error .emptyStack := by
  have hr : Lts.Reach PreProcess.step (fun _ _ => True) PreProcess.start _ :=
    Lts.Reach.run [.dirInclude .file, .dirIf true] .init (fun _ _ _ => trivial) rfl
  refine ⟨_, _, hr, rfl, ?_, rfl, rfl⟩
  intro hc
  have htop := (hc _ rfl).2.2.2
  simp [FileFrame.opened] at htop

end PreProcess

end OpenHT.Htl
