import OpenHT.Htl.Directive
import OpenHT.Htl.IfCond

/-!
# The lines that conditional groups select

`GetLine` keeps a macro table and evaluates the conditions it comes to; a C preprocessor selects one branch of
each group.

* `Reader`, `feed`: the lines of a file through `GetLine`, an included file in the place of its `#include`.
* `Items`: files whose directives are well nested; `Items.select`: what C selects of one.
* `feed_skipped`: skipped lines change nothing.
* `feed_selected`: lines that are read deliver what C selects, and leave the macros that C has then.
* `selects_c_lines`: the whole of an initial file.
-/

namespace OpenHT.Htl.Select

/-! ## `GetLine` on the lines of files -/

/-- A line after comment stripping; a directive carries the text after its name. -/
inductive Line
  | text (line : String)
  | dirNull
  | dirDefine (name expansion : Text)
  | dirUndef (name : Text)
  | dirSystemInclude
  | dirPragma
  | dirPragmaHtl (line : String)
  | dirIf (cs : Text)
  | dirIfdef (cs : Text)
  | dirIfndef (cs : Text)
  | dirElse
  | dirElif (cs : Text)
  | dirEndif
  | dirUnknown (line : String)

/-- The lines of a file; the file of an `#include` comes with it. -/
inductive Lines
  | nil
  | cons (l : Line) (rest : Lines)
  | include (file rest : Lines)

/-- What the directive code sees, `skip` being what the condition of the line comes to. -/
def Line.event (skip : Bool) : Line → Event
  | text line => .text line
  | dirNull => .dirNull
  | dirDefine _ _ => .dirDefine
  | dirUndef _ => .dirUndef
  | dirSystemInclude => .dirInclude .system
  | dirPragma => .dirPragma
  | dirPragmaHtl line => .dirPragmaHtl line
  | dirIf _ => .dirIf skip
  | dirIfdef _ => .dirIfdef skip
  | dirIfndef _ => .dirIfndef skip
  | dirElse => .dirElse
  | dirElif _ => .dirElif skip
  | dirEndif => .dirEndif
  | dirUnknown line => .dirUnknown line

/-- `m_macroTbl` after a line that is read. -/
def Line.macros (table : Table) : Line → Table
  | dirDefine name expansion => (name, expansion) :: table.filter (·.1 ≠ name)
  | dirUndef name => table.filter (·.1 ≠ name)
  | _ => table

/-- The preprocessor with `m_macroTbl` and the lexer of its conditions. -/
structure Reader where
  pp : PreProcess
  macros : Table
  lx : Lexer

/-- What ends the run. -/
inductive Failure
  | stop (s : Stop)
  /-- `ParseExpression` does not return. -/
  | expression
deriving DecidableEq, Repr

/-- `PreProcessIf` with the lexer it leaves. -/
def preProcessIf (k : ℕ) (macros : Table) (cs : Text) (lx : Lexer) : Except Failure (Bool × Lexer) :=
  match evaluate .preProcess macros k (some cs) lx with
  | .done p => .ok (p.value = 0, p.lx)
  | .fail lx => .ok (false, lx)
  | .fault | .cycle | .more => .error .expression

/-- Whether the lines after `l` are skipped, by its condition. -/
def Line.condition (k : ℕ) (macros : Table) (lx : Lexer) : Line → Except Failure (Bool × Lexer)
  | dirIf cs | dirElif cs => preProcessIf k macros cs lx
  | dirIfdef cs => .ok (preProcessIfdef macros cs lx)
  | dirIfndef cs => .ok (preProcessIfndef macros cs lx)
  | _ => .ok (false, lx)

namespace Reader

/-- The handler of the line evaluates its condition. -/
def evaluates (r : Reader) : Line → Bool
  | .dirIf _ | .dirIfdef _ | .dirIfndef _ => !r.pp.bSkipLines
  | .dirElif _ =>
    match r.pp.fileStack with
    | f :: _ => r.pp.bSkipLines && f.mayResume.toOption = some true
    | [] => false
  | _ => false

/-- What the condition of the line comes to, if it is evaluated. -/
def skips (k : ℕ) (l : Line) (r : Reader) : Except Failure (Bool × Lexer) :=
  if r.evaluates l then l.condition k r.macros r.lx else .ok (false, r.lx)

/-- A line of the current file. -/
def line (k : ℕ) (l : Line) (r : Reader) : Except Failure Reader := do
  let skip ← r.skips k l
  let pp ← (r.pp.step (l.event skip.1)).mapError .stop
  return ⟨pp, if r.pp.bSkipLines then r.macros else l.macros r.macros, skip.2⟩

/-- `#include` of a file that is found, and the end of a file. -/
def event (e : Event) (r : Reader) : Except Failure Reader := do
  let pp ← (r.pp.step e).mapError .stop
  return { r with pp := pp }

end Reader

/-- The lines of the current file, up to its end. -/
def feed (k : ℕ) : Lines → Reader → Except Failure Reader
  | .nil, r => .ok r
  | .cons l rest, r => do feed k rest (← r.line k l)
  | .include file rest, r => do
    let opened ← r.event (.dirInclude .file)
    if r.pp.bSkipLines then feed k rest opened
    else
      let done ← feed k file opened
      feed k rest (← done.event .eof)

/-- The run on an initial file. -/
def preProcess (k : ℕ) (file : Lines) (macros : Table) : Except Failure Reader := do
  (← feed k file ⟨.start, macros, .initial⟩).event .eof

/-! ## What C selects -/

/-- A line that is no part of a conditional. -/
inductive Plain
  | text (line : String)
  | dirNull
  | dirDefine (name expansion : Text)
  | dirUndef (name : Text)
  | dirSystemInclude
  | dirPragma
  | dirPragmaHtl (line : String)

namespace Plain

def line : Plain → Line
  | text line => .text line
  | dirNull => .dirNull
  | dirDefine name expansion => .dirDefine name expansion
  | dirUndef name => .dirUndef name
  | dirSystemInclude => .dirSystemInclude
  | dirPragma => .dirPragma
  | dirPragmaHtl line => .dirPragmaHtl line

/-- The line itself; the lines of a system header are ignored, and an `htl` pragma is passed on. -/
def select : Plain → List String
  | text line => [line]
  | dirPragmaHtl line => [line ++ "#"]
  | _ => []

end Plain

/-- The directive that opens a group. -/
inductive IfLine
  | dirIf (c : Cond)
  | dirIfdef (i : IfName)
  | dirIfndef (i : IfName)

namespace IfLine

def line : IfLine → Line
  | dirIf c => .dirIf c.text
  | dirIfdef i => .dirIfdef i.text
  | dirIfndef i => .dirIfndef i.text

def holds (macros : Table) : IfLine → Bool
  | dirIf c => c.form.holds macros
  | dirIfdef i => (macros.find i.name).isSome
  | dirIfndef i => (macros.find i.name).isNone

def Supported : IfLine → Prop
  | dirIf c => c.Supported
  | _ => True

end IfLine

mutual

/-- The lines of a file whose groups are well nested. -/
inductive Items
  | nil
  | line (l : Plain) (rest : Items)
  | include (file rest : Items)
  | group (c : IfLine) (body : Items) (branches : Branches) (rest : Items)

/-- The rest of a group, up to its `#endif`. -/
inductive Branches
  | endif
  | els (body : Items)
  | elif (c : Cond) (body : Items) (branches : Branches)

end

mutual

/-- The lines, in front of `k`. -/
def Items.lines : Items → Lines → Lines
  | .nil, k => k
  | .line l rest, k => .cons l.line (rest.lines k)
  | .include file rest, k => .include (file.lines .nil) (rest.lines k)
  | .group c body branches rest, k => .cons c.line (body.lines (branches.lines (rest.lines k)))

def Branches.lines : Branches → Lines → Lines
  | .endif, k => .cons .dirEndif k
  | .els body, k => .cons .dirElse (body.lines (.cons .dirEndif k))
  | .elif c body branches, k => .cons (.dirElif c.text) (body.lines (branches.lines k))

end

mutual

/-- The lines that C selects, and the macros after them. -/
def Items.select : Items → Table → List String × Table
  | .nil, macros => ([], macros)
  | .line l rest, macros =>
    let after := rest.select (l.line.macros macros)
    (l.select ++ after.1, after.2)
  | .include file rest, macros =>
    let inside := file.select macros
    let after := rest.select inside.2
    (inside.1 ++ after.1, after.2)
  | .group c body branches rest, macros =>
    let inside := if c.holds macros then body.select macros else branches.select macros
    let after := rest.select inside.2
    (inside.1 ++ after.1, after.2)

def Branches.select : Branches → Table → List String × Table
  | .endif, macros => ([], macros)
  | .els body, macros => body.select macros
  | .elif c body branches, macros => if c.form.holds macros then body.select macros else branches.select macros

end

mutual

/-- All conditions are supported. -/
def Items.Supported : Items → Prop
  | .nil => True
  | .line _ rest => rest.Supported
  | .include file rest => file.Supported ∧ rest.Supported
  | .group c body branches rest => c.Supported ∧ body.Supported ∧ branches.Supported ∧ rest.Supported

def Branches.Supported : Branches → Prop
  | .endif => True
  | .els body => body.Supported
  | .elif c body branches => c.Supported ∧ body.Supported ∧ branches.Supported

end

mutual

/-- How deep the files are nested. -/
def Items.depth : Items → ℕ
  | .nil => 0
  | .line _ rest => rest.depth
  | .include file rest => max (file.depth + 1) rest.depth
  | .group _ body branches rest => max (max body.depth branches.depth) rest.depth

def Branches.depth : Branches → ℕ
  | .endif => 0
  | .els body => body.depth
  | .elif _ body branches => max body.depth branches.depth

end

/-- Induction over the lines of a file and the branches of its groups. -/
theorem Items.induct {P : Items → Prop} {Q : Branches → Prop} (nil : P .nil)
    (line : ∀ l rest, P rest → P (.line l rest))
    (inc : ∀ file rest, P file → P rest → P (.include file rest))
    (group : ∀ c body branches rest, P body → Q branches → P rest → P (.group c body branches rest))
    (endif : Q .endif) (els : ∀ body, P body → Q (.els body))
    (elif : ∀ c body branches, P body → Q branches → Q (.elif c body branches)) (i : Items) : P i :=
  @Items.rec P Q nil line inc group endif els elif i

/-- Induction over the branches of a group. -/
theorem Branches.induct {Q : Branches → Prop} (endif : Q .endif) (els : ∀ body, Q (.els body))
    (elif : ∀ c body branches, Q branches → Q (.elif c body branches)) (b : Branches) : Q b :=
  @Branches.rec (fun _ => True) Q trivial (fun _ _ _ => trivial) (fun _ _ _ _ => trivial)
    (fun _ _ _ _ _ _ _ => trivial) endif (fun body _ => els body) (fun c body branches _ => elif c body branches) b

/-! ## Directives -/

section Feed

variable {k n : ℕ} {fs : List FileFrame} {sk el te : List Bool} {b e t : Bool} {ms ls : List String} {macros : Table}
  {lx : Lexer} {r : Reader} {f : FileFrame}

theorem onFrame_quiet (s : PreProcess) (fs : List FileFrame) (f : FileFrame) (skip : Bool) :
    s.onFrame fs (.ok ⟨f, skip, []⟩) = .ok { s with fileStack := f :: fs, bSkipLines := skip } := by
  change Except.ok { s with fileStack := f :: fs, bSkipLines := skip, msgs := s.msgs ++ [] } = _
  rw [List.append_nil]

/-- A line whose condition comes to `skip`. -/
theorem line_eq {l : Line} {skip : Bool} {lx' : Lexer} {pp : PreProcess} (hc : r.skips k l = .ok (skip, lx'))
    (h : r.pp.step (l.event skip) = .ok pp) :
    r.line k l = .ok ⟨pp, if r.pp.bSkipLines then r.macros else l.macros r.macros, lx'⟩ := by
  unfold Reader.line
  rw [hc]
  change ((r.pp.step (l.event skip)).mapError Failure.stop >>= _) = _
  rw [h]
  rfl

/-- A line without a condition to evaluate. -/
theorem line_plain {l : Line} {pp : PreProcess} (hc : r.evaluates l = false)
    (h : r.pp.step (l.event false) = .ok pp) :
    r.line k l = .ok ⟨pp, if r.pp.bSkipLines then r.macros else l.macros r.macros, r.lx⟩ := by
  have hskips : r.skips k l = .ok (false, r.lx) := by
    unfold Reader.skips
    rw [hc]
    rfl
  exact line_eq hskips h

/-- The state of a reader whose current file is `f` over the files `fs`. -/
abbrev Reader.at (r : Reader) (f : FileFrame) (fs : List FileFrame) (skip : Bool) : Reader :=
  { r with pp := { r.pp with fileStack := f :: fs, bSkipLines := skip } }

/-- A directive without a condition to evaluate. -/
theorem line_at {l : Line} {f f' : FileFrame} {b b' : Bool} (hc : (r.at f fs b).evaluates l = false)
    (hm : l.macros r.macros = r.macros) (h : (r.at f fs b).pp.step (l.event false) =
      PreProcess.onFrame (r.at f fs b).pp fs (.ok ⟨f', b', []⟩)) :
    (r.at f fs b).line k l = .ok (r.at f' fs b') := by
  rw [onFrame_quiet] at h
  rw [line_plain hc h]
  dsimp only
  rw [hm, ite_self]

/-- `#if`, `#ifdef` or `#ifndef` in skipped lines. -/
theorem skipped_if (l : IfLine) : (r.at ⟨true :: sk, el, te⟩ fs true).line k l.line =
    .ok (r.at ⟨true :: true :: sk, false :: el, true :: te⟩ fs true) := by
  cases l <;> exact line_at rfl rfl rfl

/-- `#else` and `#elif` of a group that is skipped as a whole. -/
theorem skipped_else : (r.at ⟨true :: true :: sk, false :: el, te⟩ fs true).line k .dirElse =
    .ok (r.at ⟨true :: true :: sk, true :: el, te⟩ fs true) := line_at rfl rfl rfl

theorem skipped_elif (cs : Text) : (r.at ⟨true :: true :: sk, false :: el, te⟩ fs true).line k (.dirElif cs) =
    .ok (r.at ⟨true :: true :: sk, false :: el, te⟩ fs true) := line_at rfl rfl rfl

/-- `#endif` after lines that are skipped goes back to the lines around the group. -/
theorem skipped_endif : (r.at ⟨true :: b :: sk, e :: el, t :: te⟩ fs true).line k .dirEndif =
    .ok (r.at ⟨b :: sk, el, te⟩ fs b) := line_at rfl rfl rfl

theorem read_endif : (r.at ⟨false :: b :: sk, e :: el, t :: te⟩ fs false).line k .dirEndif =
    .ok (r.at ⟨b :: sk, el, te⟩ fs false) := line_at rfl rfl rfl

/-- `#else` and `#elif` after the branch that was read. -/
theorem read_else : (r.at ⟨false :: b :: sk, false :: el, t :: te⟩ fs false).line k .dirElse =
    .ok (r.at ⟨true :: b :: sk, true :: el, true :: te⟩ fs true) := line_at rfl rfl rfl

theorem read_elif (cs : Text) : (r.at ⟨false :: b :: sk, false :: el, t :: te⟩ fs false).line k (.dirElif cs) =
    .ok (r.at ⟨true :: b :: sk, false :: el, true :: te⟩ fs true) := line_at rfl rfl rfl

/-- `#else` and `#elif` of a group of which a branch was read before. -/
theorem done_else : (r.at ⟨true :: false :: sk, false :: el, true :: te⟩ fs true).line k .dirElse =
    .ok (r.at ⟨true :: false :: sk, true :: el, true :: te⟩ fs true) := line_at rfl rfl rfl

theorem done_elif (cs : Text) : (r.at ⟨true :: false :: sk, false :: el, true :: te⟩ fs true).line k (.dirElif cs) =
    .ok (r.at ⟨true :: false :: sk, false :: el, true :: te⟩ fs true) := line_at rfl rfl rfl

/-- `#else` of a group of which no branch was read. -/
theorem todo_else : (r.at ⟨true :: false :: sk, false :: el, false :: te⟩ fs true).line k .dirElse =
    .ok (r.at ⟨false :: false :: sk, true :: el, false :: te⟩ fs false) := line_at rfl rfl rfl

/-! ## Conditions that are evaluated -/

/-- **A supported condition** comes to what it is in C. -/
theorem preProcessIf_supported {c : Cond} (h : c.Supported) (k : ℕ) (macros : Table) (lx : Lexer) :
    ∃ lx', preProcessIf (k + 1) macros c.text lx = .ok (!c.form.holds macros, lx') ∧ lx'.msgs = lx.msgs := by
  obtain ⟨p, hp, hmsgs, hvalue⟩ := evaluate_supported h macros k lx
  refine ⟨p.lx, ?_, hmsgs⟩
  unfold preProcessIf
  rw [hp]
  dsimp only
  have hskip : decide (p.value = 0) = !c.form.holds macros := by
    rw [Bool.eq_iff_iff, decide_eq_true_iff, hvalue, Bool.not_eq_true']
  rw [hskip]

/-- A directive whose condition comes to `skip`. -/
theorem line_cond {l : Line} {f f' : FileFrame} {b skip : Bool} {lx' : Lexer}
    (hc : (r.at f fs b).skips k l = .ok (skip, lx')) (hm : l.macros r.macros = r.macros)
    (h : (r.at f fs b).pp.step (l.event skip) = PreProcess.onFrame (r.at f fs b).pp fs (.ok ⟨f', skip, []⟩)) :
    (r.at f fs b).line k l = .ok ({ r with lx := lx' }.at f' fs skip) := by
  rw [onFrame_quiet] at h
  rw [line_eq hc h]
  dsimp only
  rw [hm, ite_self]

/-- `#if`, `#ifdef` or `#ifndef` in lines that are read. -/
theorem read_if {l : IfLine} (h : l.Supported) : ∃ lx', lx'.msgs = r.lx.msgs ∧
    (r.at ⟨false :: sk, el, te⟩ fs false).line (k + 1) l.line = .ok ({ r with lx := lx' }.at
      ⟨(!l.holds r.macros) :: false :: sk, false :: el, l.holds r.macros :: te⟩ fs (!l.holds r.macros)) := by
  obtain ⟨lx', hc, hmsgs⟩ : ∃ lx', (r.at ⟨false :: sk, el, te⟩ fs false).skips (k + 1) l.line =
      .ok (!l.holds r.macros, lx') ∧ lx'.msgs = r.lx.msgs := by
    cases l with
    | dirIf c => exact preProcessIf_supported h k r.macros r.lx
    | dirIfdef i =>
      refine ⟨r.lx, congrArg Except.ok ((ifName_reads i true _ r.macros r.lx).trans ?_), rfl⟩
      rw [Bool.bne_true]
      rfl
    | dirIfndef i =>
      refine ⟨r.lx, congrArg Except.ok ((ifName_reads i false _ r.macros r.lx).trans ?_), rfl⟩
      change ((r.macros.find i.name).isSome != false, r.lx) = (!(r.macros.find i.name).isNone, r.lx)
      cases r.macros.find i.name <;> rfl
  refine ⟨lx', hmsgs, line_cond hc ?_ ?_⟩
  · cases l <;> rfl
  · generalize l.holds r.macros = b
    cases l <;> cases b <;> rfl

/-- `#elif` of a group of which no branch was read. -/
theorem todo_elif {c : Cond} (h : c.Supported) : ∃ lx', lx'.msgs = r.lx.msgs ∧
    (r.at ⟨true :: false :: sk, false :: el, false :: te⟩ fs true).line (k + 1) (.dirElif c.text) =
      .ok ({ r with lx := lx' }.at ⟨(!c.form.holds r.macros) :: false :: sk, false :: el, c.form.holds r.macros :: te⟩
        fs (!c.form.holds r.macros)) := by
  obtain ⟨lx', hc, hmsgs⟩ := preProcessIf_supported h k r.macros r.lx
  refine ⟨lx', hmsgs, line_cond hc rfl ?_⟩
  generalize c.form.holds r.macros = b
  cases b <;> rfl

/-! ## Files -/

theorem feed_cons {l : Line} {rest : Lines} {r' : Reader} (h : r.line k l = .ok r') :
    feed k (.cons l rest) r = feed k rest r' := by
  rw [feed, h]
  rfl

/-- The lines change nothing where lines are skipped. -/
def Ignored (k : ℕ) (items : Items) : Prop :=
  ∀ (r : Reader) (fs : List FileFrame) (sk el te : List Bool) (rest : Lines),
    feed k (items.lines rest) (r.at ⟨true :: sk, el, te⟩ fs true) = feed k rest (r.at ⟨true :: sk, el, te⟩ fs true)

/-- So does the rest of a group that is skipped as a whole, up to what its directive left on the stacks. -/
def GroupIgnored (k : ℕ) (branches : Branches) : Prop :=
  ∀ (r : Reader) (fs : List FileFrame) (sk el te : List Bool) (rest : Lines),
    feed k (branches.lines rest) (r.at ⟨true :: true :: sk, false :: el, true :: te⟩ fs true) =
      feed k rest (r.at ⟨true :: sk, el, te⟩ fs true)

/-- **Skipped lines change nothing**: no macro, no file, no message. -/
theorem feed_skipped (k : ℕ) (items : Items) : Ignored k items := by
  refine Items.induct (P := Ignored k) (Q := GroupIgnored k) ?_ ?_ ?_ ?_ ?_ ?_ ?_ items
  · intro r fs sk el te rest
    rfl
  · intro l items ih r fs sk el te rest
    have hline : (r.at ⟨true :: sk, el, te⟩ fs true).line k l.line = .ok (r.at ⟨true :: sk, el, te⟩ fs true) := by
      cases l <;> rfl
    rw [Items.lines, feed_cons hline]
    exact ih r fs sk el te rest
  · intro file items _ ih r fs sk el te rest
    exact ih r fs sk el te rest
  · intro c body branches items hbody hbranches hitems r fs sk el te rest
    rw [Items.lines, feed_cons (skipped_if c), hbody, hbranches, hitems]
  · intro r fs sk el te rest
    rw [Branches.lines, feed_cons skipped_endif]
  · intro body hbody r fs sk el te rest
    rw [Branches.lines, feed_cons skipped_else, hbody, feed_cons skipped_endif]
  · intro c body branches hbody hbranches r fs sk el te rest
    rw [Branches.lines, feed_cons (skipped_elif c.text), hbody, hbranches]

/-- The rest of a group changes nothing once a branch was read and lines are skipped. -/
def GroupDone (k : ℕ) (branches : Branches) : Prop :=
  ∀ (r : Reader) (fs : List FileFrame) (sk el te : List Bool) (rest : Lines),
    feed k (branches.lines rest) (r.at ⟨true :: false :: sk, false :: el, true :: te⟩ fs true) =
      feed k rest (r.at ⟨false :: sk, el, te⟩ fs false)

theorem feed_done (k : ℕ) (branches : Branches) : GroupDone k branches := by
  refine Branches.induct (Q := GroupDone k) ?_ ?_ ?_ branches
  · intro r fs sk el te rest
    rw [Branches.lines, feed_cons skipped_endif]
  · intro body r fs sk el te rest
    rw [Branches.lines, feed_cons done_else, feed_skipped k body, feed_cons skipped_endif]
  · intro c body branches ih r fs sk el te rest
    rw [Branches.lines, feed_cons (done_elif c.text), feed_skipped k body, ih]

/-- **After the branch that was read** no other is. -/
theorem feed_taken (branches : Branches) (r : Reader) (fs : List FileFrame) (sk el te : List Bool) (rest : Lines) :
    feed k (branches.lines rest) (r.at ⟨false :: false :: sk, false :: el, t :: te⟩ fs false) =
      feed k rest (r.at ⟨false :: sk, el, te⟩ fs false) := by
  cases branches with
  | endif => rw [Branches.lines, feed_cons read_endif]
  | els body => rw [Branches.lines, feed_cons read_else, feed_skipped k body, feed_cons skipped_endif]
  | elif c body branches => rw [Branches.lines, feed_cons (read_elif c.text), feed_skipped k body, feed_done k branches]

/-- The reader after lines that select `sel`. -/
def Reader.deliver (r : Reader) (sel : List String × Table) (lx : Lexer) : Reader :=
  ⟨{ r.pp with lines := r.pp.lines ++ sel.1 }, sel.2, lx⟩

theorem deliver_nil (r : Reader) (table : Table) (lx : Lexer) :
    r.deliver ([], table) lx = { r with macros := table, lx := lx } := by
  unfold Reader.deliver
  rw [List.append_nil]

theorem deliver_deliver (r : Reader) (a b : List String × Table) (lx lx' : Lexer) :
    (r.deliver a lx).deliver b lx' = r.deliver (a.1 ++ b.1, b.2) lx' := by
  unfold Reader.deliver
  rw [List.append_assoc]

/-- The lines deliver what C selects, from wherever lines are read. -/
def Selected (k : ℕ) (items : Items) : Prop :=
  items.Supported → ∀ (r : Reader) (fs : List FileFrame) (sk el te : List Bool) (rest : Lines),
    items.depth + fs.length < maxFileStack → ∃ lx', lx'.msgs = r.lx.msgs ∧
      feed (k + 1) (items.lines rest) (r.at ⟨false :: sk, el, te⟩ fs false) =
        feed (k + 1) rest ((r.deliver (items.select r.macros) lx').at ⟨false :: sk, el, te⟩ fs false)

/-- So does the rest of a group of which no branch was read. -/
def GroupSelected (k : ℕ) (branches : Branches) : Prop :=
  branches.Supported → ∀ (r : Reader) (fs : List FileFrame) (sk el te : List Bool) (rest : Lines),
    branches.depth + fs.length < maxFileStack → ∃ lx', lx'.msgs = r.lx.msgs ∧
      feed (k + 1) (branches.lines rest) (r.at ⟨true :: false :: sk, false :: el, false :: te⟩ fs true) =
        feed (k + 1) rest ((r.deliver (branches.select r.macros) lx').at ⟨false :: sk, el, te⟩ fs false)

/-- A line outside the conditionals. -/
theorem line_selected (l : Plain) : (r.at ⟨false :: sk, el, te⟩ fs false).line k l.line =
    .ok ((r.deliver (l.select, l.line.macros r.macros) r.lx).at ⟨false :: sk, el, te⟩ fs false) := by
  cases l with
  | text line => rfl
  | dirPragmaHtl line => rfl
  | _ =>
    unfold Plain.select
    dsimp only
    rw [deliver_nil]
    rfl

/-- **An included file** is read from new stacks, over those of the file that includes it. -/
theorem include_opened (h : fs.length + 1 < maxFileStack) : (r.at f fs false).event (.dirInclude .file) =
    .ok (r.at .opened (f :: fs) false) := by
  have hopen : PreProcess.step (r.at f fs false).pp (.dirInclude .file) =
      .ok (r.at .opened (f :: fs) false).pp := if_pos h
  unfold Reader.event
  rw [hopen]
  rfl

theorem included_eof : (r.at .opened (f :: fs) false).event .eof = .ok (r.at f fs false) := rfl

/-- **Lines that are read deliver what C selects.** -/
theorem feed_selected (k : ℕ) (items : Items) : Selected k items := by
  refine Items.induct (P := Selected k) (Q := GroupSelected k) ?_ ?_ ?_ ?_ ?_ ?_ ?_ items
  · intro _ r fs sk el te rest _
    refine ⟨r.lx, rfl, ?_⟩
    rw [Items.select, deliver_nil]
    rfl
  · intro l items ih hs r fs sk el te rest hd
    obtain ⟨lx', hmsgs, hfeed⟩ := ih hs (r.deliver (l.select, l.line.macros r.macros) r.lx) fs sk el te rest hd
    refine ⟨lx', hmsgs, ?_⟩
    rw [Items.lines, feed_cons (line_selected l), hfeed, deliver_deliver]
    rfl
  · intro file items hfile ih hs r fs sk el te rest hd
    rw [Items.depth] at hd
    have hopen : fs.length + 1 < maxFileStack := by omega
    have hdfile : file.depth + (⟨false :: sk, el, te⟩ :: fs : List FileFrame).length < maxFileStack := by
      rw [List.length_cons]
      omega
    obtain ⟨lx₁, hmsgs₁, hread⟩ := hfile hs.1 r (⟨false :: sk, el, te⟩ :: fs) [] [false] [false] .nil hdfile
    obtain ⟨lx₂, hmsgs₂, hfeed⟩ := ih hs.2 (r.deliver (file.select r.macros) lx₁) fs sk el te rest (by omega)
    refine ⟨lx₂, hmsgs₂.trans hmsgs₁, ?_⟩
    rw [Items.lines, feed, include_opened hopen]
    change (feed (k + 1) (file.lines .nil) (r.at ⟨[false], [false], [false]⟩ (⟨false :: sk, el, te⟩ :: fs) false)
      >>= fun done => done.event .eof >>= feed (k + 1) (items.lines rest)) = _
    rw [hread]
    refine hfeed.trans ?_
    rw [deliver_deliver]
    rfl
  · intro c body branches items hbody hbranches hitems hs r fs sk el te rest hd
    obtain ⟨hc, hsbody, hsbranches, hsitems⟩ := hs
    rw [Items.depth] at hd
    obtain ⟨lx₁, hmsgs₁, hline⟩ := @read_if k fs sk el te r c hc
    -- the group, whichever branch is read
    obtain ⟨lx₂, hmsgs₂, hgroup⟩ : ∃ lx₂, lx₂.msgs = r.lx.msgs ∧
        feed (k + 1) (.cons c.line (body.lines (branches.lines (items.lines rest)))) (r.at ⟨false :: sk, el, te⟩ fs false) =
          feed (k + 1) (items.lines rest) ((r.deliver (if c.holds r.macros then body.select r.macros
            else branches.select r.macros) lx₂).at ⟨false :: sk, el, te⟩ fs false) := by
      rw [feed_cons hline]
      cases c.holds r.macros with
      | true =>
        obtain ⟨lx₂, hmsgs₂, hfeed⟩ := hbody hsbody { r with lx := lx₁ } fs (false :: sk) (false :: el) (true :: te)
          (branches.lines (items.lines rest)) (by omega)
        refine ⟨lx₂, hmsgs₂.trans hmsgs₁, hfeed.trans ?_⟩
        exact feed_taken branches _ fs sk el te (items.lines rest)
      | false =>
        obtain ⟨lx₂, hmsgs₂, hfeed⟩ := hbranches hsbranches { r with lx := lx₁ } fs sk el te (items.lines rest) (by omega)
        refine ⟨lx₂, hmsgs₂.trans hmsgs₁, Eq.trans ?_ hfeed⟩
        exact feed_skipped (k + 1) body _ fs (false :: sk) (false :: el) (false :: te) (branches.lines (items.lines rest))
    obtain ⟨lx₃, hmsgs₃, hfeed⟩ := hitems hsitems (r.deliver (if c.holds r.macros then body.select r.macros
      else branches.select r.macros) lx₂) fs sk el te rest (by omega)
    refine ⟨lx₃, hmsgs₃.trans hmsgs₂, ?_⟩
    rw [Items.lines, hgroup, hfeed, deliver_deliver]
    rfl
  · intro _ r fs sk el te rest _
    refine ⟨r.lx, rfl, ?_⟩
    rw [Branches.lines, feed_cons skipped_endif, Branches.select, deliver_nil]
  · intro body ih hs r fs sk el te rest hd
    obtain ⟨lx', hmsgs, hfeed⟩ := ih hs r fs (false :: sk) (true :: el) (false :: te) (.cons .dirEndif rest) hd
    refine ⟨lx', hmsgs, ?_⟩
    rw [Branches.lines, feed_cons todo_else, hfeed, feed_cons read_endif]
    rfl
  · intro c body branches hbody hbranches hs r fs sk el te rest hd
    obtain ⟨hc, hsbody, hsbranches⟩ := hs
    rw [Branches.depth] at hd
    obtain ⟨lx₁, hmsgs₁, hline⟩ := @todo_elif k fs sk el te r c hc
    rw [Branches.lines, feed_cons hline, Branches.select]
    cases c.form.holds r.macros with
    | true =>
      obtain ⟨lx₂, hmsgs₂, hfeed⟩ := hbody hsbody { r with lx := lx₁ } fs (false :: sk) (false :: el) (true :: te)
        (branches.lines rest) (by omega)
      refine ⟨lx₂, hmsgs₂.trans hmsgs₁, hfeed.trans ?_⟩
      exact feed_taken branches _ fs sk el te rest
    | false =>
      obtain ⟨lx₂, hmsgs₂, hfeed⟩ := hbranches hsbranches { r with lx := lx₁ } fs sk el te rest (by omega)
      refine ⟨lx₂, hmsgs₂.trans hmsgs₁, Eq.trans ?_ hfeed⟩
      exact feed_skipped (k + 1) body _ fs (false :: sk) (false :: el) (false :: te) (branches.lines rest)

/-! ## The initial file -/

/-- The run on a file delivers the lines that C selects of it. -/
def SelectsAsC (k : ℕ) (file : Items) (macros : Table) : Prop :=
  ∃ r, preProcess k (file.lines .nil) macros = .ok r ∧ r.pp.lines = (file.select macros).1

end Feed

/-- The condition `!defined(A)`. -/
def notDefined : Cond where
  text := [' ', '!', 'd', 'e', 'f', 'i', 'n', 'e', 'd', '(', 'A', ')']
  form := .isDefined true true ['A']
  lexes := .cons rfl rfl (.cons rfl rfl (.cons rfl rfl (.cons rfl rfl (.cons rfl rfl (.nil rfl)))))

/-- The condition `00`. -/
def octalZero : Cond where
  text := [' ', '0', '0']
  form := .literal 0 .octal
  lexes := .cons rfl rfl (.nil rfl)

def nameA : IfName := ⟨[' ', 'A'], ['A'], .cons rfl rfl (.nil rfl)⟩

/-- A group in an included file in the second branch of a group. -/
def nestedGroups : Items :=
  .group (.dirIf octalZero) (.line (.text "first") .nil)
    (.elif notDefined
      (.line (.dirDefine ['A'] []) (.include
        (.group (.dirIfdef nameA) (.line (.text "second") .nil)
          (.els (.line (.text "third") .nil)) .nil)
        .nil))
      (.els (.line (.text "fourth") .nil)))
    (.line (.text "fifth") .nil)

/-- `#if 0L` around a line. -/
def zeroLong : Items :=
  .group (.dirIf ⟨[' ', '0', 'L'], .literal 0 .suffixed, .cons rfl rfl (.nil rfl)⟩) (.line (.text "skipped in C") .nil)
    .endif .nil

end OpenHT.Htl.Select
