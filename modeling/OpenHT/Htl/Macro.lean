import OpenHT.Htl.Stacks

/-!
# Macros in constant expressions

* `Subst`: the tokens after every macro was replaced by its text, and the text by what it stands for.
* `Named`: the macros a text names, directly or in the text of another.
* `Enclosed`: the macro stands for a constant or an expression in parentheses.
-/

namespace OpenHT.Htl

open OpPrec

variable {table : Table}

/-- The tokens `ts'` are `ts` after macro substitution. -/
inductive Subst (table : Table) : List CTok → List CTok → Prop
  | nil : Subst table [] []
  | keep {ts ts' : List CTok} (t : CTok) (ht : ∀ name, t ≠ .atom (.ident name)) (h : Subst table ts ts') :
    Subst table (t :: ts) (t :: ts')
  | expand {ts ts' bts bts' : List CTok} (name text : Text) (hf : table.find name = some text)
    (hl : Lexes text bts) (hb : Subst table bts bts') (h : Subst table ts ts') :
    Subst table (.atom (.ident name) :: ts) (bts' ++ ts')

namespace Subst

variable {a a' b b' : List CTok}

theorem append (ha : Subst table a a') (hb : Subst table b b') : Subst table (a ++ b) (a' ++ b') := by
  induction ha with
  | nil => exact hb
  | keep t ht _ ih => exact .keep t ht ih
  | expand name text hf hl hbody _ _ ih =>
    rw [List.append_assoc]
    exact .expand name text hf hl hbody ih

theorem single {t : CTok} (ht : ∀ name, t ≠ .atom (.ident name)) : Subst table [t] [t] := .keep t ht .nil

theorem unique (h : Subst table a a') (h' : Subst table a b') : a' = b' := by
  induction h generalizing b' with
  | nil =>
    cases h'
    rfl
  | keep t ht _ ih =>
    cases h' with
    | keep _ _ h' => rw [ih h']
    | expand name => exact (ht name rfl).elim
  | expand name text hf hl _ _ ihb ih =>
    cases h' with
    | keep _ ht _ => exact (ht name rfl).elim
    | expand _ text' hf' hl' hb' h' =>
      rw [hf] at hf'
      cases hf'
      rw [hl.unique hl'] at ihb
      rw [ihb hb', ih h']

theorem split (h : Subst table (a ++ b) b') : ∃ s₁ s₂, b' = s₁ ++ s₂ ∧ Subst table a s₁ ∧ Subst table b s₂ := by
  induction a generalizing b' with
  | nil => exact ⟨[], b', rfl, .nil, h⟩
  | cons t a ih =>
    cases h with
    | keep _ ht h =>
      obtain ⟨s₁, s₂, rfl, h₁, h₂⟩ := ih h
      exact ⟨t :: s₁, s₂, rfl, .keep t ht h₁, h₂⟩
    | expand name text hf hl hb h =>
      obtain ⟨s₁, s₂, rfl, h₁, h₂⟩ := ih h
      exact ⟨_ ++ s₁, s₂, (List.append_assoc ..).symm, .expand name text hf hl hb h₁, h₂⟩

end Subst

/-- The macros named by `ts`, directly or in the text of another one. -/
inductive Named (table : Table) (ts : List CTok) : Text → Prop
  | here {name : Text} (h : .atom (.ident name) ∈ ts) : Named table ts name
  | inside {name name' text : Text} {bts : List CTok} (h : Named table ts name)
    (hf : table.find name = some text) (hl : Lexes text bts) (hm : .atom (.ident name') ∈ bts) :
    Named table ts name'

/-- Names that are closed under the texts of their macros. -/
theorem Named.mem {ts : List CTok} {names : List Text} (hts : ∀ name, .atom (.ident name) ∈ ts → name ∈ names)
    (hbody : ∀ name ∈ names, ∃ text bts, table.find name = some text ∧ Lexes text bts ∧
      ∀ name', .atom (.ident name') ∈ bts → name' ∈ names) {name : Text} (h : Named table ts name) :
    name ∈ names := by
  induction h with
  | here h => exact hts _ h
  | inside _ hf hl hm ih =>
    obtain ⟨text, bts, hf', hl', hb⟩ := hbody _ ih
    rw [hf] at hf'
    cases hf'
    rw [hl'.unique hl] at hb
    exact hb _ hm

/-- The macro stands for a constant or an expression in parentheses. -/
def Enclosed (table : Table) (name : Text) : Prop :=
  ∃ text bts bts', ∃ e : CExpr, table.find name = some text ∧ Lexes text bts ∧ (∀ t ∈ bts, PlainTok t) ∧
    Subst table bts bts' ∧ e.tokens cGrammar = bts' ∧ e.Fits cGrammar ∧ e.level cGrammar = 0

/-- Plain constants, and macros that are enclosed. -/
structure Good (table : Table) (ts : List CTok) : Prop where
  plain : ∀ t ∈ ts, PlainTok t
  enclosed : ∀ name, Named table ts name → Enclosed table name

theorem Good.sub {ts ts' : List CTok} (h : Good table ts) (hs : ∀ t ∈ ts', t ∈ ts) : Good table ts' := by
  refine ⟨fun t ht => h.plain t (hs t ht), fun name hn => h.enclosed name ?_⟩
  induction hn with
  | here hm => exact .here (hs _ hm)
  | inside _ hf hl hm ih => exact .inside ih hf hl hm

theorem Good.body {ts bts : List CTok} {name text : Text} (h : Good table ts)
    (hname : .atom (.ident name) ∈ ts) (hf : table.find name = some text) (hl : Lexes text bts)
    (hp : ∀ t ∈ bts, PlainTok t) : Good table bts := by
  refine ⟨hp, fun name' hn => h.enclosed name' ?_⟩
  induction hn with
  | here hm => exact .inside (.here hname) hf hl hm
  | inside _ hf hl hm ih => exact .inside ih hf hl hm

end OpenHT.Htl
