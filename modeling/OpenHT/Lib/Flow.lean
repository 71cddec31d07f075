import OpenHT.Lib.Trace

/-!
# Structured control flow with labels

Statements of a language with loops, `switch`, `break`, `continue` and `goto`, whose actions and conditions are
left open, and the machine that executes them. The rest of a program is a continuation; a `goto` looks its label
up in the whole program.

* `Stmt`, `Cont`, `findLabel`: statements, continuations and jumps.
* `step`: one step of the machine. Its events are the actions, the conditions and the selectors.
* `Placed`: a statement that stands in a program, with the rest of the program as its continuation.
-/

namespace OpenHT.Flow

/-- A condition, possibly negated; `none` is always true and no event. -/
structure Test (C : Type) where
  negated : Bool
  cond : Option C
deriving DecidableEq, Repr

/-- Statements with actions `A`, conditions `C`, selectors `E` with values `V`, and labels `L`. A block is the
sequence of its statements. -/
inductive Stmt (A C E V L : Type)
  | skip
  | act (a : A)
  | seq (s t : Stmt A C E V L)
  /-- `keep` marks an `if` that rewriting leaves alone. -/
  | ifElse (keep : Bool) (c : Test C) (s t : Stmt A C E V L)
  | switch (e : E) (body : Stmt A C E V L)
  /-- An option of a `switch` and those after it; `none` is the default. -/
  | option (v : Option V) (body rest : Stmt A C E V L)
  /-- A loop that tests at its top: a `for`, or a `while` without `init` and `incr`. -/
  | loop (init : List A) (c : Option C) (incr : Option A) (body : Stmt A C E V L)
  | doWhile (body : Stmt A C E V L) (c : C)
  | brk
  | cont
  | label (l : L)
  | goto (l : L)
deriving DecidableEq, Repr

/-- What is executed after a statement. -/
inductive Cont (A C E V L : Type)
  | stop
  | seq (s : Stmt A C E V L) (k : Cont A C E V L)
  /-- The test of a loop. -/
  | test (c : Option C) (incr : Option A) (body : Stmt A C E V L) (k : Cont A C E V L)
  /-- The end of a loop body: the increment, then the test. -/
  | body (c : Option C) (incr : Option A) (body : Stmt A C E V L) (k : Cont A C E V L)
  | doBody (body : Stmt A C E V L) (c : C) (k : Cont A C E V L)
  | switch (k : Cont A C E V L)
deriving DecidableEq, Repr

inductive Event (A C E : Type)
  | act (a : A)
  | test (c : C)
  | select (e : E)
deriving DecidableEq, Repr

/-- The actions, conditions and selectors on a store. -/
structure Sem (A C E V Store : Type) where
  act : A → Store → Store
  test : C → Store → Bool
  select : E → Store → V

variable {A C E V L Store : Type}

namespace Test

/-- A condition as it is. -/
def pos (c : C) : Test C := ⟨false, some c⟩

/-- `!c` -/
def neg (t : Test C) : Test C := ⟨!t.negated, t.cond⟩

/-- The condition is an event. -/
def events (t : Test C) : List (Event A C E) := (t.cond.map Event.test).toList

def eval (m : Sem A C E V Store) (t : Test C) (σ : Store) : Bool :=
  (t.cond.elim true fun c => m.test c σ).xor t.negated

end Test

namespace Stmt

/-- Actions in a row. -/
def acts : List A → Stmt A C E V L
  | [] => skip
  | a :: as => seq (act a) (acts as)

section

variable [DecidableEq V]

/-- The first option with this value, and those after it. -/
def findCase (v : V) : Stmt A C E V L → Option (Stmt A C E V L)
  | option w b r => if w = some v then some (option w b r) else r.findCase v
  | _ => none

def findDefault : Stmt A C E V L → Option (Stmt A C E V L)
  | option w b r => if w = none then some (option w b r) else r.findDefault
  | _ => none

/-- What a `switch` executes. -/
def select (v : V) (body : Stmt A C E V L) : Stmt A C E V L :=
  ((body.findCase v).orElse fun _ => body.findDefault).getD skip

end

/-- The labels a statement defines. -/
def labels : Stmt A C E V L → List L
  | label l => [l]
  | seq s t => s.labels ++ t.labels
  | ifElse _ _ s t => s.labels ++ t.labels
  | switch _ b => b.labels
  | option _ b r => b.labels ++ r.labels
  | loop _ _ _ b => b.labels
  | doWhile b _ => b.labels
  | skip | act _ | brk | cont | goto _ => []

attribute [local simp] Stmt.labels

/-- Where a label stands: what comes after it. -/
def findLabel [DecidableEq L] (l : L) : Stmt A C E V L → Cont A C E V L → Option (Cont A C E V L)
  | label l', k => if l' = l then some k else none
  | seq s t, k => (s.findLabel l (.seq t k)).orElse fun _ => t.findLabel l k
  | ifElse _ _ s t, k => (s.findLabel l k).orElse fun _ => t.findLabel l k
  | switch _ b, k => b.findLabel l (.switch k)
  | option _ b r, k => (b.findLabel l (.seq r k)).orElse fun _ => r.findLabel l k
  | loop _ c i b, k => b.findLabel l (.body c i b k)
  | doWhile b c, k => b.findLabel l (.doBody b c k)
  | skip, _ | act _, _ | brk, _ | cont, _ | goto _, _ => none

attribute [local simp] Stmt.findLabel

end Stmt

namespace Cont

/-- Where a `break` goes: behind the innermost loop or `switch`. -/
def breakOut : Cont A C E V L → Option (Cont A C E V L)
  | stop => none
  | seq _ k => k.breakOut
  | test _ _ _ k | body _ _ _ k | doBody _ _ k | switch k => some k

/-- Where a `continue` goes: to the end of the innermost loop body. -/
def continueTo : Cont A C E V L → Option (Cont A C E V L)
  | stop => none
  | seq _ k => k.continueTo
  | switch k => k.continueTo
  | test c i b k | body c i b k => some (body c i b k)
  | doBody b c k => some (doBody b c k)

end Cont

/-- The statement that is executed next, what comes after it, and the store. -/
structure State (A C E V L Store : Type) where
  stmt : Stmt A C E V L
  cont : Cont A C E V L
  store : Store

open Stmt Cont

section

variable [DecidableEq V] [DecidableEq L]

/-- One step in the program `P`; `none` at its end, and where a jump has no target. -/
def step (m : Sem A C E V Store) (P : Stmt A C E V L) :
    State A C E V L Store → Option (List (Event A C E) × State A C E V L Store)
  | ⟨skip, .stop, _⟩ => none
  | ⟨skip, .seq s k, σ⟩ => some ([], ⟨s, k, σ⟩)
  | ⟨skip, .test c i b k, σ⟩ =>
    some (Test.events ⟨false, c⟩,
      if Test.eval m ⟨false, c⟩ σ then ⟨b, .body c i b k, σ⟩ else ⟨skip, k, σ⟩)
  | ⟨skip, .body c none b k, σ⟩ =>
    some (Test.events ⟨false, c⟩,
      if Test.eval m ⟨false, c⟩ σ then ⟨b, .body c none b k, σ⟩ else ⟨skip, k, σ⟩)
  | ⟨skip, .body c (some a) b k, σ⟩ => some ([.act a], ⟨skip, .test c (some a) b k, m.act a σ⟩)
  | ⟨skip, .doBody b c k, σ⟩ => some ([.test c], if m.test c σ then ⟨b, .doBody b c k, σ⟩ else ⟨skip, k, σ⟩)
  | ⟨skip, .switch k, σ⟩ => some ([], ⟨skip, k, σ⟩)
  | ⟨act a, k, σ⟩ => some ([.act a], ⟨skip, k, m.act a σ⟩)
  | ⟨.seq s t, k, σ⟩ => some ([], ⟨s, .seq t k, σ⟩)
  | ⟨ifElse _ c s t, k, σ⟩ => some (c.events, if c.eval m σ then ⟨s, k, σ⟩ else ⟨t, k, σ⟩)
  | ⟨.switch e b, k, σ⟩ => some ([.select e], ⟨select (m.select e σ) b, .switch k, σ⟩)
  | ⟨option _ b r, k, σ⟩ => some ([], ⟨b, .seq r k, σ⟩)
  | ⟨loop init c i b, k, σ⟩ => some ([], ⟨acts init, .test c i b k, σ⟩)
  | ⟨doWhile b c, k, σ⟩ => some ([], ⟨b, .doBody b c k, σ⟩)
  | ⟨brk, k, σ⟩ => k.breakOut.map fun k => ([], ⟨skip, k, σ⟩)
  | ⟨cont, k, σ⟩ => k.continueTo.map fun k => ([], ⟨skip, k, σ⟩)
  | ⟨label _, k, σ⟩ => some ([], ⟨skip, k, σ⟩)
  | ⟨goto l, _, σ⟩ => (findLabel l P .stop).map fun k => ([], ⟨skip, k, σ⟩)

/-- The start of a program. -/
def start (P : Stmt A C E V L) (σ : Store) : State A C E V L Store := ⟨P, .stop, σ⟩

/-- **Two programs with the same behaviour**: from every store they emit the same events, end after the same
events, and end in the same stores. -/
def SameBehaviour (m : Sem A C E V Store) (P Q : Stmt A C E V L) (σ : Store) : Prop :=
  (∀ τ, Trace.Emits (step m P) (start P σ) τ ↔ Trace.Emits (step m Q) (start Q σ) τ) ∧
    (∀ τ, (∃ r, Trace.Ends (step m P) (start P σ) τ r) ↔ ∃ r, Trace.Ends (step m Q) (start Q σ) τ r) ∧
      ∀ τ r r', Trace.Ends (step m P) (start P σ) τ r → Trace.Ends (step m Q) (start Q σ) τ r' →
        r.store = r'.store

end

/-! ## Statements in a program -/

section

variable [DecidableEq L]

/-- The labels of `s` are defined once, and `P` has `s` before `k`. -/
structure Placed (P s : Stmt A C E V L) (k : Cont A C E V L) : Prop where
  nodup : s.labels.Nodup
  find : ∀ l ∈ s.labels, findLabel l P .stop = findLabel l s k

namespace Placed

variable {P s t b r : Stmt A C E V L} {k : Cont A C E V L} {l : L} {keep : Bool} {c : Test C} {e : E}
  {v : Option V}

theorem findLabel_none (h : l ∉ s.labels) : findLabel l s k = none := by
  induction s generalizing k with
  | label l' =>
    rw [findLabel, if_neg]
    rintro rfl
    exact h (List.mem_singleton_self l')
  | seq s t ihs iht | option _ s t ihs iht =>
    simp only [labels, List.mem_append, not_or] at h
    rw [findLabel, ihs h.1, iht h.2]
    rfl
  | ifElse _ _ s t ihs iht =>
    simp only [labels, List.mem_append, not_or] at h
    rw [findLabel, ihs h.1, iht h.2]
    rfl
  | switch _ b ih | loop _ _ _ b ih | doWhile b _ ih => exact ih h
  | _ => rfl

theorem findLabel_isSome (h : l ∈ s.labels) : ∃ k', findLabel l s k = some k' := by
  induction s generalizing k with
  | label l' =>
    obtain rfl := List.mem_singleton.1 h
    exact ⟨k, if_pos rfl⟩
  | seq s t ihs iht | option _ s t ihs iht =>
    rcases List.mem_append.1 h with h | h
    · obtain ⟨k', hk'⟩ := ihs (k := .seq t k) h
      exact ⟨k', by rw [findLabel, hk']; rfl⟩
    · cases hs : findLabel l s (.seq t k) with
      | some k' => exact ⟨k', by rw [findLabel, hs]; rfl⟩
      | none =>
        obtain ⟨k', hk'⟩ := iht (k := k) h
        exact ⟨k', by rw [findLabel, hs]; exact hk'⟩
  | ifElse _ _ s t ihs iht =>
    rcases List.mem_append.1 h with h | h
    · obtain ⟨k', hk'⟩ := ihs (k := k) h
      exact ⟨k', by rw [findLabel, hk']; rfl⟩
    · cases hs : findLabel l s k with
      | some k' => exact ⟨k', by rw [findLabel, hs]; rfl⟩
      | none =>
        obtain ⟨k', hk'⟩ := iht (k := k) h
        exact ⟨k', by rw [findLabel, hs]; exact hk'⟩
  | switch _ b ih | loop _ _ _ b ih | doWhile b _ ih => exact ih h
  | _ => cases h

/-- The whole program. -/
theorem whole (h : s.labels.Nodup) : Placed s s .stop := ⟨h, fun _ _ => rfl⟩

/-- The two parts of a statement with labels of both. -/
theorem parts {k₁ k₂ : Cont A C E V L} (hn : (s.labels ++ t.labels).Nodup)
    (h : ∀ l ∈ s.labels ++ t.labels,
      findLabel l P .stop = (findLabel l s k₁).orElse fun _ => findLabel l t k₂) :
    Placed P s k₁ ∧ Placed P t k₂ := by
  obtain ⟨hs, ht, hdisj⟩ := List.nodup_append.1 hn
  refine ⟨⟨hs, fun l hl => ?_⟩, ⟨ht, fun l hl => ?_⟩⟩
  · obtain ⟨k', hk'⟩ := findLabel_isSome (k := k₁) hl
    rw [h l (List.mem_append_left _ hl), hk']
    rfl
  · have hnot : l ∉ s.labels := fun hl' => hdisj l hl' l hl rfl
    rw [h l (List.mem_append_right _ hl), findLabel_none hnot]
    rfl

theorem seq (h : Placed P (.seq s t) k) : Placed P s (.seq t k) ∧ Placed P t k := parts h.nodup h.find

theorem ifElse (h : Placed P (.ifElse keep c s t) k) : Placed P s k ∧ Placed P t k := parts h.nodup h.find

theorem option (h : Placed P (.option v b r) k) : Placed P b (.seq r k) ∧ Placed P r k := parts h.nodup h.find

theorem switch (h : Placed P (.switch e b) k) : Placed P b (.switch k) := ⟨h.nodup, h.find⟩

/-- A jump to a label that stands in the program. -/
theorem label (h : Placed P (.label l) k) : findLabel l P .stop = some k := by
  rw [h.find l (List.mem_singleton_self l)]
  exact if_pos rfl

theorem skip (P : Stmt A C E V L) (k : Cont A C E V L) : Placed P .skip k :=
  ⟨List.nodup_nil, fun l h => by cases h⟩

section

variable [DecidableEq V]

theorem findCase {w : V} (h : Placed P b k) {s : Stmt A C E V L} (hs : b.findCase w = some s) :
    Placed P s k := by
  induction b generalizing s with
  | option v b r _ ihr =>
    rw [Stmt.findCase] at hs
    split at hs
    · cases hs
      exact h
    · exact ihr h.option.2 hs
  | _ => cases hs

omit [DecidableEq V] in
theorem findDefault (h : Placed P b k) {s : Stmt A C E V L} (hs : b.findDefault = some s) : Placed P s k := by
  induction b generalizing s with
  | option v b r _ ihr =>
    rw [Stmt.findDefault] at hs
    split at hs
    · cases hs
      exact h
    · exact ihr h.option.2 hs
  | _ => cases hs

theorem select (h : Placed P b k) (w : V) : Placed P (b.select w) k := by
  unfold Stmt.select
  cases hc : b.findCase w with
  | some s => exact h.findCase hc
  | none =>
    cases hd : b.findDefault with
    | some s => exact h.findDefault hd
    | none => exact .skip P k

end

end Placed

end

end OpenHT.Flow
