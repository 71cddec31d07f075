import OpenHT.Htl.StructElemNames
import OpenHT.HtvClang.UniqueName
import OpenHT.Lib.CInt
import OpenHT.Lib.Intern

/-!
# The types of memory variables

The declarations of queues and RAMs. The type that such a declaration makes is kept in the identifier table of its
scope, under a name built from the template arguments.

* `queueDecl`, `ramDecl`: the parse functions of `HtfeParseHtMem.cpp`, `memDecl` their choice by the template's word.
* `Spells`: the texts of a declaration, and `memDecl_iff` that the parser reads exactly these.
* `typeName`, `MemType.make`: the name under which a type is kept and what is recorded for it.
* `declareAll`: a sequence of declarations in one scope.
* `typeName_eq_iff`: the declarations that share a name.
* `keeps_iff`: when every declaration gets the type that it states.
-/

namespace OpenHT.Htfe.MemTypes

open CInt
open HtvClang.UniqueName (Text printInt)

/-- The type of an element, as `ParseTypeDecl` gives it. `ident` stands for the pointer. -/
structure ElemType where
  ident : ℕ
  name : Text
  width : ℤ
deriving DecidableEq, Repr

/-- The tokens of template arguments. What `ParseTypeDecl` and `ParseConstExpr` read is one token, but for the words
`true` and `false`, which are constants as well. -/
inductive Tok
  | ident (s : String)
  | type (t : ElemType) (bStatic : Bool)
  | expr (v : ℤ)
  | less
  | greater
  | comma
  | semicolon
  | eof
deriving DecidableEq, Repr

inductive MemKind
  | distQue
  | blockQue
  | ultraQue
  | distRam
  | blockRam
  | mrdBlockRam
  | mwrBlockRam
  | ultraRam
  | mrdUltraRam
  | mwrUltraRam
deriving DecidableEq, Repr

/-- The words that `ParseIdentifierStatement` knows. -/
def MemKind.ofWord (w : String) : Option MemKind :=
  if w = "sc_dist_que" ∨ w = "ht_dist_que" then some .distQue
  else if w = "sc_block_que" ∨ w = "ht_block_que" then some .blockQue
  else if w = "ht_ultra_que" then some .ultraQue
  else if w = "sc_dist_ram" ∨ w = "ht_dist_ram" then some .distRam
  else if w = "sc_block_ram" ∨ w = "ht_block_ram" then some .blockRam
  else if w = "ht_ultra_ram" then some .ultraRam
  else if w = "ht_mrd_block_ram" then some .mrdBlockRam
  else if w = "ht_mrd_ultra_ram" then some .mrdUltraRam
  else if w = "ht_mwr_block_ram" then some .mwrBlockRam
  else if w = "ht_mwr_ultra_ram" then some .mwrUltraRam
  else none

/-- What a declaration states. -/
structure Decl where
  kind : MemKind
  elem : ElemType
  addrWidth1 : ℤ
  addrWidth2 : ℤ
  selWidth : ℤ
  bDoReg : Bool
deriving DecidableEq, Repr

/-! ### The parser -/

/-- What is read, with the messages so far and the tokens that follow. -/
abbrev Parsed (α : Type) := α × List String × List Tok

/-- No result, but the messages, after a message that ends the declaration. -/
abbrev Result := Except (List String)

def expect (t : Tok) (msg : String) (msgs : List String) : List Tok → Result (Parsed Unit)
  | [] => .error (msgs ++ [msg])
  | x :: ts => if x = t then .ok ((), msgs, ts) else .error (msgs ++ [msg])

/-- The `ParseTypeDecl` of an argument. -/
def typeArg (msg : String) (msgs : List String) : List Tok → Result (Parsed ElemType)
  | .type t bStatic :: ts =>
    .ok (t, if bStatic then msgs ++ ["static type specifier not supported"] else msgs, ts)
  | _ => .error (msgs ++ [msg])

/-- `ParseConstExpr`. -/
def constExpr : Tok → Option ℤ
  | .expr v => some v
  | .ident s => if s = "true" then some 1 else if s = "false" then some 0 else none
  | _ => none

def constArg (msg : String) (msgs : List String) : List Tok → Result (Parsed ℤ)
  | [] => .error (msgs ++ [msg])
  | t :: ts =>
    match constExpr t with
    | some v => .ok (v, msgs, ts)
    | none => .error (msgs ++ [msg])

/-- `AW2`. -/
def optConst (msg : String) (msgs : List String) : List Tok → Result (Parsed ℤ)
  | .comma :: ts => constArg msg msgs ts
  | ts => .ok (0, msgs, ts)

def boolWord (b : Bool) : String := if b then "true" else "false"

/-- `bDoReg`. -/
def optBool (msg : String) (msgs : List String) : List Tok → Result (Parsed Bool)
  | .comma :: .ident s :: ts =>
    if s = boolWord true then .ok (true, msgs, ts)
    else if s = boolWord false then .ok (false, msgs, ts)
    else .error (msgs ++ [msg])
  | .comma :: _ => .error (msgs ++ [msg])
  | ts => .ok (false, msgs, ts)

/-- `ParseHtQueueDecl`. -/
def queueDecl (kind : MemKind) (ts : List Tok) : Result (Parsed Decl) := do
  let msg := "expected ht_dist_que<type, depth>"
  let (_, msgs, ts) ← expect .less msg [] ts
  let (elem, msgs, ts) ← typeArg "expected a type (ht_block_que<type, depth>)" msgs ts
  let (_, msgs, ts) ← expect .comma msg msgs ts
  let (addrWidth1, msgs, ts) ← constArg msg msgs ts
  let (_, msgs, ts) ← expect .greater msg msgs ts
  if addrWidth1 > 16 then
    .ok (⟨kind, elem, 5, 0, 0, false⟩, msgs ++ ["expected ht_dist_que addrBits <= 16"], ts)
  else .ok (⟨kind, elem, addrWidth1, 0, 0, false⟩, msgs, ts)

/-- What distinguishes the parse functions of the RAM templates. -/
structure RamTemplate where
  kind : MemKind
  pSyntax : String
  /-- There is an argument `SW`. -/
  bSelWidth : Bool
  /-- There may be an argument `bDoReg`. -/
  bDoReg : Bool
  doRegMsg : String
  closeMsg : String
  maxBits : ℤ
  maxMsg : String
  /-- `AW1` after the message `maxMsg`. -/
  addrWidth1 : ℤ

def RamTemplate.selArg (p : RamTemplate) (msgs : List String) (ts : List Tok) : Result (Parsed ℤ) :=
  if p.bSelWidth then do
    let (selWidth, msgs, ts) ← constArg ("expected a constant for SW (" ++ p.pSyntax ++ ")") msgs ts
    let (_, msgs, ts) ← expect .comma ("expected a comma (" ++ p.pSyntax ++ ")") msgs ts
    .ok (selWidth, msgs, ts)
  else .ok (0, msgs, ts)

def RamTemplate.doRegArg (p : RamTemplate) (msgs : List String) (ts : List Tok) : Result (Parsed Bool) :=
  if p.bDoReg then optBool p.doRegMsg msgs ts else .ok (false, msgs, ts)

/-- The arguments behind `AW1`, and the `>`. -/
def RamTemplate.optArgs (p : RamTemplate) (msgs : List String) (ts : List Tok) : Result (Parsed (ℤ × Bool)) := do
  let (addrWidth2, msgs, ts) ← optConst ("expected a constant for AW2 (" ++ p.pSyntax ++ ")") msgs ts
  let (bDoReg, msgs, ts) ← p.doRegArg msgs ts
  let (_, msgs, ts) ← expect .greater p.closeMsg msgs ts
  .ok ((addrWidth2, bDoReg), msgs, ts)

/-- The parse functions of the RAM templates. -/
def ramDecl (p : RamTemplate) (ts : List Tok) : Result (Parsed Decl) := do
  let (_, msgs, ts) ← expect .less ("expected a < (" ++ p.pSyntax ++ ")") [] ts
  let (elem, msgs, ts) ← typeArg ("expected a type (" ++ p.pSyntax ++ ")") msgs ts
  let (_, msgs, ts) ← expect .comma ("expected a comma (" ++ p.pSyntax ++ ")") msgs ts
  let (selWidth, msgs, ts) ← p.selArg msgs ts
  let (addrWidth1, msgs, ts) ← constArg ("expected a constant for AW1 (" ++ p.pSyntax ++ ")") msgs ts
  let ((addrWidth2, bDoReg), msgs, ts) ← p.optArgs msgs ts
  if addrWidth1 + addrWidth2 > p.maxBits then
    .ok (⟨p.kind, elem, p.addrWidth1, 0, selWidth, bDoReg⟩, msgs ++ [p.maxMsg], ts)
  else .ok (⟨p.kind, elem, addrWidth1, addrWidth2, selWidth, bDoReg⟩, msgs, ts)

/-- `ParseHtDistRamDecl`. -/
def distRam : RamTemplate where
  kind := .distRam
  pSyntax := "ht_dist_ram<type, AW1, AW2=0>"
  bSelWidth := false
  bDoReg := false
  doRegMsg := ""
  closeMsg := "expected a > (ht_dist_ram<type, AW1, AW2=0>)"
  maxBits := 10
  maxMsg := "expected ht_dist_ram AW1 + AW2 <= 10"
  addrWidth1 := 5

/-- `ParseHtBlockRamDecl`. -/
def blockRam : RamTemplate where
  kind := .blockRam
  pSyntax := "ht_block_ram<type, AW1, AW2=0, bDoReg=false>"
  bSelWidth := false
  bDoReg := true
  doRegMsg := "expected a constant for AW2 (ht_block_ram<type, AW1, AW2=0, bDoReg=false>)"
  closeMsg := "expected a > (ht_block_ram<type, AW1, AW2=0, bDoReg=false>)"
  maxBits := 20
  maxMsg := "expected ht_block_ram AW1 + AW2 <= 20"
  addrWidth1 := 5

/-- `ParseHtUltraRamDecl`. -/
def ultraRam : RamTemplate where
  kind := .ultraRam
  pSyntax := "ht_ultra_ram<type, AW1, AW2=0, bDoReg=false>"
  bSelWidth := false
  bDoReg := true
  doRegMsg := "expected a constant for AW2 (ht_ultra_ram<type, AW1, AW2=0, bDoReg=false>)"
  closeMsg := "expected a > (ht_ultra_ram<type, AW1, AW2=0, bDoReg=false>)"
  maxBits := 20
  maxMsg := "expected ht_ultra_ram AW1 + AW2 <= 20"
  addrWidth1 := 5

/-- `ParseHtAsymBlockRamDecl`. -/
def asymBlockRam (bMultiRead : Bool) : RamTemplate :=
  let pSyntax := if bMultiRead then "ht_mrd_block_ram<type, SW, AW1, AW2=0, bDoReg=false>"
    else "ht_mwr_block_ram<type, SW, AW1, AW2=0, bDoReg=false>"
  { kind := if bMultiRead then .mrdBlockRam else .mwrBlockRam
    pSyntax := pSyntax
    bSelWidth := true
    bDoReg := true
    doRegMsg := "expected a true or false for bDoReg (" ++ pSyntax ++ ")"
    closeMsg := "expected a > (ht_block_ram<type, AW1, AW2=0, bDoReg=false>)"
    maxBits := 20
    maxMsg := "expected ht_" ++ (if bMultiRead then "mrd" else "mwr") ++ "_block_ram AW1 + AW2 <= 20"
    addrWidth1 := 8 }

/-- `ParseHtAsymUltraRamDecl`. -/
def asymUltraRam (bMultiRead : Bool) : RamTemplate :=
  let pSyntax := if bMultiRead then "ht_mrd_ultra_ram<type, SW, AW1, AW2=0, bDoReg=false>"
    else "ht_mwr_ultra_ram<type, SW, AW1, AW2=0, bDoReg=false>"
  { kind := if bMultiRead then .mrdUltraRam else .mwrUltraRam
    pSyntax := pSyntax
    bSelWidth := true
    bDoReg := true
    doRegMsg := "expected a true or false for bDoReg (" ++ pSyntax ++ ")"
    closeMsg := "expected a > (ht_ultra_ram<type, AW1, AW2=0, bDoReg=false>)"
    maxBits := 20
    maxMsg := "expected ht_" ++ (if bMultiRead then "mrd" else "mwr") ++ "_ultra_ram AW1 + AW2 <= 20"
    addrWidth1 := 8 }

/-- The RAM templates by kind; the queues have none. -/
def MemKind.template : MemKind → Option RamTemplate
  | .distRam => some MemTypes.distRam
  | .blockRam => some MemTypes.blockRam
  | .ultraRam => some MemTypes.ultraRam
  | .mrdBlockRam => some (asymBlockRam true)
  | .mwrBlockRam => some (asymBlockRam false)
  | .mrdUltraRam => some (asymUltraRam true)
  | .mwrUltraRam => some (asymUltraRam false)
  | _ => none

/-- The call that `ParseIdentifierStatement` makes. -/
def memDecl (kind : MemKind) (ts : List Tok) : Result (Parsed Decl) :=
  match kind.template with
  | some p => ramDecl p ts
  | none => queueDecl kind ts

/-! ### The texts of a declaration -/

/-- The arguments behind `AW1`. -/
inductive Options (bDoReg : Bool) : ℤ → Bool → List Tok → Prop
  | none : Options bDoReg 0 false []
  | addrWidth2 {t : Tok} {v : ℤ} (h : constExpr t = some v) : Options bDoReg v false [.comma, t]
  | doReg {t : Tok} {v : ℤ} (b : Bool) (h : constExpr t = some v) (hreg : bDoReg = true) :
      Options bDoReg v b [.comma, t, .comma, .ident (boolWord b)]

/-- The argument `SW`. -/
inductive Select : Bool → ℤ → List Tok → Prop
  | none : Select false 0 []
  | some {t : Tok} {v : ℤ} (h : constExpr t = some v) : Select true v [t, .comma]

/-- The texts of a declaration, from the `<` to the `>`, that the checks of the widths admit. -/
inductive Spells : Decl → List Tok → Prop
  | queue {kind : MemKind} {elem : ElemType} {t : Tok} {v : ℤ} (hkind : kind.template = none)
      (h : constExpr t = some v) (hmax : v ≤ 16) :
      Spells ⟨kind, elem, v, 0, 0, false⟩ [.less, .type elem false, .comma, t, .greater]
  | ram {kind : MemKind} {p : RamTemplate} {elem : ElemType} {sel opts : List Tok} {t : Tok} {s v₁ v₂ : ℤ} {b : Bool}
      (hkind : kind.template = some p) (hsel : Select p.bSelWidth s sel) (h : constExpr t = some v₁)
      (hopts : Options p.bDoReg v₂ b opts) (hmax : v₁ + v₂ ≤ p.maxBits) :
      Spells ⟨kind, elem, v₁, v₂, s, b⟩
        ([.less, .type elem false, .comma] ++ sel ++ t :: opts ++ [.greater])

/-! ### What the parser reads -/

theorem bind_eq_ok {α β : Type} {x : Result α} {f : α → Result β} {r : β} :
    x >>= f = .ok r ↔ ∃ a, x = .ok a ∧ f a = .ok r := by
  cases x with
  | error e => simp [bind, Except.bind]
  | ok a => simp [bind, Except.bind]

@[simp] theorem expect_eq_ok {t : Tok} {msg : String} {msgs : List String} {ts : List Tok} {r : Parsed Unit} :
    expect t msg msgs ts = .ok r ↔ ∃ rest, ts = t :: rest ∧ r = ((), msgs, rest) := by
  cases ts with
  | nil => simp [expect]
  | cons x ts =>
    by_cases h : x = t
    · simp [expect, h, eq_comm]
    · simp [expect, h]

theorem typeArg_eq_ok {msg : String} {msgs : List String} {ts : List Tok} {r : Parsed ElemType} :
    typeArg msg msgs ts = .ok r ↔ ∃ t bStatic rest, ts = .type t bStatic :: rest ∧
      r = (t, if bStatic then msgs ++ ["static type specifier not supported"] else msgs, rest) := by
  unfold typeArg
  split
  · rename_i t bStatic rest
    constructor
    · intro h
      exact ⟨t, bStatic, rest, rfl, (Except.ok.inj h).symm⟩
    · rintro ⟨_, _, _, heq, rfl⟩
      cases heq
      rfl
  · rename_i h
    constructor
    · simp
    · rintro ⟨t, bStatic, rest, rfl, -⟩
      exact absurd rfl (h _ _ _)

theorem constArg_eq_ok {msg : String} {msgs : List String} {ts : List Tok} {r : Parsed ℤ} :
    constArg msg msgs ts = .ok r ↔ ∃ t v rest, ts = t :: rest ∧ constExpr t = some v ∧ r = (v, msgs, rest) := by
  cases ts with
  | nil => simp [constArg]
  | cons t ts =>
    cases h : constExpr t with
    | none => simp [constArg, h]
    | some v => simp [constArg, h, eq_comm]

theorem selArg_eq_ok {p : RamTemplate} {msgs : List String} {ts : List Tok} {r : Parsed ℤ} :
    p.selArg msgs ts = .ok r ↔ ∃ sel s rest, Select p.bSelWidth s sel ∧ ts = sel ++ rest ∧ r = (s, msgs, rest) := by
  unfold RamTemplate.selArg
  cases hs : p.bSelWidth with
  | false =>
    constructor
    · intro h
      exact ⟨[], 0, ts, .none, rfl, by simpa using h.symm⟩
    · rintro ⟨_, _, rest, ⟨⟩, rfl, rfl⟩
      rfl
  | true =>
    simp only [if_true, bind_eq_ok, constArg_eq_ok, expect_eq_ok]
    constructor
    · rintro ⟨_, ⟨t, v, rest, rfl, h, rfl⟩, _, ⟨rest', hrest, rfl⟩, hr⟩
      refine ⟨[t, .comma], v, rest', .some h, ?_, by simpa using hr.symm⟩
      simpa using hrest
    · rintro ⟨_, s, rest, hsel, rfl, rfl⟩
      cases hsel with
      | some h => exact ⟨_, ⟨_, _, _, rfl, h, rfl⟩, _, ⟨rest, rfl, rfl⟩, rfl⟩

theorem optConst_eq_ok {msg : String} {msgs : List String} {ts : List Tok} {r : Parsed ℤ} :
    optConst msg msgs ts = .ok r ↔
      (∃ t v rest, ts = .comma :: t :: rest ∧ constExpr t = some v ∧ r = (v, msgs, rest)) ∨
        (∀ rest, ts ≠ .comma :: rest) ∧ r = (0, msgs, ts) := by
  unfold optConst
  split
  · simp [constArg_eq_ok]
  · rename_i h
    constructor
    · intro hr
      exact .inr ⟨h, by simpa using hr.symm⟩
    · rintro (⟨t, v, rest, rfl, -⟩ | ⟨-, rfl⟩)
      · exact absurd rfl (h _)
      · rfl

theorem optBool_eq_ok {msg : String} {msgs : List String} {ts : List Tok} {r : Parsed Bool} :
    optBool msg msgs ts = .ok r ↔
      (∃ b rest, ts = .comma :: .ident (boolWord b) :: rest ∧ r = (b, msgs, rest)) ∨
        (∀ rest, ts ≠ .comma :: rest) ∧ r = (false, msgs, ts) := by
  unfold optBool
  split
  · rename_i s ts
    by_cases ht : s = boolWord true
    · subst ht
      simp [boolWord, eq_comm]
    · by_cases hf : s = boolWord false
      · subst hf
        simp [boolWord, eq_comm]
      · simp [ht, hf]
  · rename_i rest h
    constructor
    · simp
    · rintro (⟨b, rest', heq, -⟩ | ⟨hne, -⟩)
      · obtain ⟨-, rfl⟩ := List.cons.inj heq
        exact absurd rfl (h _ _)
      · exact absurd rfl (hne _)
  · rename_i h
    constructor
    · intro hr
      exact .inr ⟨h, by simpa using hr.symm⟩
    · rintro (⟨b, rest, rfl, -⟩ | ⟨-, rfl⟩)
      · exact absurd rfl (h _)
      · rfl

theorem doRegArg_eq_ok {p : RamTemplate} {msgs : List String} {ts : List Tok} {r : Parsed Bool} :
    p.doRegArg msgs ts = .ok r ↔
      (∃ b rest, p.bDoReg = true ∧ ts = .comma :: .ident (boolWord b) :: rest ∧ r = (b, msgs, rest)) ∨
        (p.bDoReg = true → ∀ rest, ts ≠ .comma :: rest) ∧ r = (false, msgs, ts) := by
  unfold RamTemplate.doRegArg
  cases p.bDoReg with
  | false => simp [eq_comm]
  | true => simp [optBool_eq_ok]

theorem optArgs_eq_ok {p : RamTemplate} {msgs : List String} {ts : List Tok} {r : Parsed (ℤ × Bool)} :
    p.optArgs msgs ts = .ok r ↔ ∃ opts v b rest, Options p.bDoReg v b opts ∧ ts = opts ++ .greater :: rest ∧
      r = ((v, b), msgs, rest) := by
  simp only [RamTemplate.optArgs, bind_eq_ok, expect_eq_ok, optConst_eq_ok, doRegArg_eq_ok]
  constructor
  · rintro ⟨_, ⟨t, v, ts₁, rfl, h, rfl⟩ | ⟨hcomma, rfl⟩, _, hreg, _, ⟨rest, hrest, rfl⟩, hr⟩
    · rcases hreg with ⟨b, ts₂, hreg, rfl, rfl⟩ | ⟨-, rfl⟩
      · exact ⟨_, v, b, rest, .doReg b h hreg, by simpa using hrest, (Except.ok.inj hr).symm⟩
      · exact ⟨_, v, false, rest, .addrWidth2 h, by simpa using hrest, (Except.ok.inj hr).symm⟩
    · -- Without `AW2` there is no comma for `bDoReg` either.
      rcases hreg with ⟨_, _, -, hts, -⟩ | ⟨-, rfl⟩
      · exact absurd hts (hcomma _)
      · exact ⟨[], 0, false, rest, .none, hrest, (Except.ok.inj hr).symm⟩
  · rintro ⟨opts, v, b, rest, hopts, rfl, rfl⟩
    cases hopts with
    | none => exact ⟨_, .inr ⟨by simp, rfl⟩, _, .inr ⟨by simp, rfl⟩, _, ⟨rest, rfl, rfl⟩, rfl⟩
    | addrWidth2 h => exact ⟨_, .inl ⟨_, _, _, rfl, h, rfl⟩, _, .inr ⟨by simp, rfl⟩, _, ⟨rest, rfl, rfl⟩, rfl⟩
    | doReg b h hreg =>
      exact ⟨_, .inl ⟨_, _, _, rfl, h, rfl⟩, _, .inl ⟨b, _, hreg, rfl, rfl⟩, _, ⟨rest, rfl, rfl⟩, rfl⟩

/-- The kind of a template's type. -/
theorem template_kind {kind : MemKind} {p : RamTemplate} (h : kind.template = some p) : p.kind = kind := by
  cases kind <;> simp only [MemKind.template, Option.some.injEq, reduceCtorEq] at h <;> subst h <;> rfl

theorem queueDecl_eq_ok {kind : MemKind} {ts rest : List Tok} {d : Decl} (hkind : kind.template = none) :
    queueDecl kind ts = .ok (d, [], rest) ↔ ∃ text, Spells d text ∧ d.kind = kind ∧ ts = text ++ rest := by
  simp only [queueDecl, bind_eq_ok, expect_eq_ok, typeArg_eq_ok, constArg_eq_ok]
  constructor
  · rintro ⟨_, ⟨ts₁, rfl, rfl⟩, _, ⟨elem, bStatic, ts₂, rfl, rfl⟩, _, ⟨ts₃, rfl, rfl⟩, _, ⟨t, v, ts₄, rfl, h, rfl⟩,
      _, ⟨ts₅, rfl, rfl⟩, hr⟩
    by_cases hmax : v > 16
    · simp [hmax] at hr
    · simp only [hmax, if_false, Except.ok.injEq, Prod.mk.injEq] at hr
      obtain ⟨rfl, hmsgs, rfl⟩ := hr
      cases bStatic with
      | true => simp at hmsgs
      | false => exact ⟨_, .queue hkind h (not_lt.1 hmax), rfl, rfl⟩
  · rintro ⟨text, hspells, rfl, rfl⟩
    cases hspells with
    | queue _ h hmax =>
      refine ⟨_, ⟨_, rfl, rfl⟩, _, ⟨_, false, _, rfl, rfl⟩, _, ⟨_, rfl, rfl⟩, _, ⟨_, _, _, rfl, h, rfl⟩, _,
        ⟨rest, rfl, rfl⟩, ?_⟩
      simp [not_lt.2 hmax]
    | ram hram _ _ _ _ => exact absurd hram (by simp [hkind])

theorem ramDecl_eq_ok {kind : MemKind} {p : RamTemplate} {ts rest : List Tok} {d : Decl}
    (hkind : kind.template = some p) :
    ramDecl p ts = .ok (d, [], rest) ↔ ∃ text, Spells d text ∧ d.kind = kind ∧ ts = text ++ rest := by
  have hp := template_kind hkind
  simp only [ramDecl, bind_eq_ok, expect_eq_ok, typeArg_eq_ok, selArg_eq_ok, constArg_eq_ok, optArgs_eq_ok]
  constructor
  · rintro ⟨_, ⟨ts₁, rfl, rfl⟩, _, ⟨elem, bStatic, ts₂, rfl, rfl⟩, _, ⟨ts₃, rfl, rfl⟩, _, ⟨sel, s, ts₄, hsel, rfl, rfl⟩,
      _, ⟨t, v₁, ts₅, rfl, h, rfl⟩, _, ⟨opts, v₂, b, ts₆, hopts, rfl, rfl⟩, hr⟩
    by_cases hmax : v₁ + v₂ > p.maxBits
    · simp [hmax] at hr
    · simp only [hmax, if_false, Except.ok.injEq, Prod.mk.injEq] at hr
      obtain ⟨rfl, hmsgs, rfl⟩ := hr
      cases bStatic with
      | true => simp at hmsgs
      | false =>
        subst hp
        exact ⟨_, .ram hkind hsel h hopts (not_lt.1 hmax), rfl, by simp⟩
  · rintro ⟨text, hspells, rfl, rfl⟩
    cases hspells with
    | queue hque _ _ => exact absurd hkind (by simp [hque])
    | ram hram hsel h hopts hmax =>
      obtain rfl : p = _ := by simpa [hkind] using hram
      rename_i elem sel opts t s v₁ v₂ b
      have htext : [.less, .type elem false, .comma] ++ sel ++ t :: opts ++ [.greater] ++ rest =
          .less :: .type elem false :: .comma :: (sel ++ t :: (opts ++ .greater :: rest)) := by simp
      refine ⟨_, ⟨_, htext, rfl⟩, _, ⟨_, false, _, rfl, rfl⟩, _, ⟨_, rfl, rfl⟩, _, ⟨_, _, _, hsel, rfl, rfl⟩, _,
        ⟨_, _, _, rfl, h, rfl⟩, _, ⟨_, _, _, rest, hopts, rfl, rfl⟩, ?_⟩
      simp [not_lt.2 hmax, hp]

/-- **The parser reads the texts of declarations**, and nothing else without a message. -/
theorem memDecl_iff {kind : MemKind} {ts rest : List Tok} {d : Decl} :
    memDecl kind ts = .ok (d, [], rest) ↔ ∃ text, Spells d text ∧ d.kind = kind ∧ ts = text ++ rest := by
  cases h : kind.template with
  | none => simpa [memDecl, h] using queueDecl_eq_ok h
  | some p => simpa [memDecl, h] using ramDecl_eq_ok h

theorem Select.absent {b : Bool} {s : ℤ} {ts : List Tok} (h : Select b s ts) (hb : b = false) : s = 0 := by
  cases h with
  | none => rfl
  | some _ => cases hb

/-- What a declaration states of the arguments that its template lacks. -/
theorem Spells.absent {d : Decl} {text : List Tok} (h : Spells d text) :
    (d.kind.template = none → d.addrWidth2 = 0 ∧ d.bDoReg = false) ∧
      (∀ p, d.kind.template = some p → (p.bDoReg = false → d.bDoReg = false)) ∧
      ((d.kind.template.map (·.bSelWidth)).getD false = false → d.selWidth = 0) := by
  cases h with
  | queue hkind h hmax => simp [hkind]
  | ram hkind hsel h hopts hmax =>
    refine ⟨by simp [hkind], ?_, ?_⟩
    · intro p' hp hreg
      obtain rfl := Option.some.inj (hkind.symm.trans hp)
      cases hopts with
      | none => rfl
      | addrWidth2 _ => rfl
      | doReg b _ hreg' => simp [hreg'] at hreg
    · intro hnosel
      exact hsel.absent (by simpa [hkind] using hnosel)

/-! ### The table of types -/

/-- The name of a kind's types up to the arguments. -/
def MemKind.family : MemKind → Text
  | .distQue | .blockQue | .ultraQue => "ht_dist_que".toList
  | .distRam => "ht_dist_ram".toList
  | .blockRam => "ht_block_ram".toList
  | .ultraRam => "ht_ultra_ram".toList
  | .mrdBlockRam => "ht_mrd_block_ram".toList
  | .mwrBlockRam => "ht_mwr_block_ram".toList
  | .mrdUltraRam => "ht_mrd_ultra_ram".toList
  | .mwrUltraRam => "ht_mwr_ultra_ram".toList

/-- `(int)addrWidth.GetSint64()`, by `%d`. -/
def widthText (x : ℤ) : Text := printInt (IntType.int32.wrap x)

/-- The arguments behind the type. -/
def argTexts (d : Decl) : List Text :=
  match d.kind.template with
  | none => [widthText d.addrWidth1]
  | some p =>
    widthText d.addrWidth1 :: widthText d.addrWidth2 :: if p.bDoReg then [(boolWord d.bDoReg).toList] else []

/-- What the parse functions print into `typeName`. -/
def typeName (d : Decl) : Text :=
  d.kind.family ++ '<' :: (d.elem.name ++ (argTexts d).flatMap (',' :: ·) ++ ['>'])

/-- The members of a type's `CHtfeIdent` that the parse functions set. `pType` is the element's `ident`. -/
structure MemType where
  pType : ℕ
  width : ℤ
  bIsHtDistQue : Bool := false
  bIsHtBlockQue : Bool := false
  bIsHtUltraQue : Bool := false
  bIsHtDistRam : Bool := false
  bIsHtBlockRam : Bool := false
  bIsHtMrdBlockRam : Bool := false
  bIsHtMwrBlockRam : Bool := false
  bIsHtBlockRamDoReg : Bool := false
  bIsHtUltraRam : Bool := false
  bIsHtMrdUltraRam : Bool := false
  bIsHtMwrUltraRam : Bool := false
  bIsHtUltraRamDoReg : Bool := false
  scMemorySelWidth : ℤ := 0
  scMemoryAddrWidth1 : ℤ := 0
  scMemoryAddrWidth2 : ℤ := 0
deriving DecidableEq, Repr

/-- What a `uint8_t` keeps of `(int)width.GetSint64()`. -/
def toUint8 (x : ℤ) : ℤ := IntType.int32.wrap x % 256

namespace MemType

/-- `SetIsHtBlockRamDoReg`. -/
def setIsHtBlockRamDoReg (t : MemType) : MemType := { t with bIsHtBlockRam := true, bIsHtBlockRamDoReg := true }

/-- `SetIsHtUltraRamDoReg`. -/
def setIsHtUltraRamDoReg (t : MemType) : MemType := { t with bIsHtUltraRam := true, bIsHtUltraRamDoReg := true }

/-- The call that sets the flag of the declaration's kind. -/
def setKind (t : MemType) : MemKind → MemType
  | .distQue => { t with bIsHtDistQue := true }
  | .blockQue => { t with bIsHtBlockQue := true }
  | .ultraQue => { t with bIsHtUltraQue := true }
  | .distRam => { t with bIsHtDistRam := true }
  | .blockRam => { t with bIsHtBlockRam := true }
  | .ultraRam => { t with bIsHtUltraRam := true }
  | .mrdBlockRam => { t with bIsHtMrdBlockRam := true }
  | .mwrBlockRam => { t with bIsHtMwrBlockRam := true }
  | .mrdUltraRam => { t with bIsHtMrdUltraRam := true }
  | .mwrUltraRam => { t with bIsHtMwrUltraRam := true }

/-- The calls for the widths. -/
def setWidths (t : MemType) (d : Decl) : MemType :=
  match d.kind with
  | .distQue | .blockQue | .ultraQue => { t with scMemoryAddrWidth1 := toUint8 d.addrWidth1 }
  | .distRam | .blockRam | .ultraRam =>
    { t with scMemoryAddrWidth1 := toUint8 d.addrWidth1, scMemoryAddrWidth2 := toUint8 d.addrWidth2 }
  | _ =>
    { t with
      scMemoryAddrWidth1 := toUint8 d.addrWidth1
      scMemoryAddrWidth2 := toUint8 d.addrWidth2
      scMemorySelWidth := toUint8 d.selWidth }

/-- The call for `bDoReg`. -/
def setDoReg (t : MemType) (d : Decl) : MemType :=
  match d.kind with
  | .blockRam | .mrdBlockRam | .mwrBlockRam => if d.bDoReg then t.setIsHtBlockRamDoReg else t
  | .ultraRam | .mrdUltraRam | .mwrUltraRam => if d.bDoReg then t.setIsHtUltraRamDoReg else t
  | _ => t

/-- What is recorded when the type's identifier is new. -/
def make (d : Decl) : MemType :=
  let t : MemType := { pType := d.elem.ident, width := d.elem.width }
  ((t.setKind d.kind).setWidths d).setDoReg d

/-- The flags of a type, in the order in which `ParseVariableDecl` asks for them to set those of the variable. -/
def kind (t : MemType) : Option MemKind :=
  if t.bIsHtDistQue then some .distQue
  else if t.bIsHtBlockQue then some .blockQue
  else if t.bIsHtUltraQue then some .ultraQue
  else if t.bIsHtDistRam then some .distRam
  else if t.bIsHtBlockRam then some .blockRam
  else if t.bIsHtMrdBlockRam then some .mrdBlockRam
  else if t.bIsHtMwrBlockRam then some .mwrBlockRam
  else if t.bIsHtUltraRam then some .ultraRam
  else if t.bIsHtMrdUltraRam then some .mrdUltraRam
  else if t.bIsHtMwrUltraRam then some .mwrUltraRam
  else none

/-- The type carries what a declaration states. -/
structure States (t : MemType) (d : Decl) : Prop where
  kind : t.kind = some d.kind
  pType : t.pType = d.elem.ident
  addrWidth1 : t.scMemoryAddrWidth1 = d.addrWidth1
  addrWidth2 : t.scMemoryAddrWidth2 = d.addrWidth2
  selWidth : t.scMemorySelWidth = d.selWidth
  bDoReg : (t.bIsHtBlockRamDoReg || t.bIsHtUltraRamDoReg) = d.bDoReg

end MemType

/-- The declarations in one scope, each with the word of its template and the tokens that follow, and for each the type
that is returned, if one is. Nothing is left of the run when a name and its null character do not fit into the 256 bytes
of `typeName`. -/
def declareAll : List (Text × MemType) → List (String × List Tok) → Option (List (Option MemType))
  | _, [] => some []
  | tbl, (word, ts) :: srcs =>
    match (MemKind.ofWord word).map (memDecl · ts) with
    | some (.ok (d, _, _)) =>
      if (typeName d).length < 256 then
        let r := Intern.insert tbl (typeName d) (MemType.make d)
        (declareAll r.2 srcs).map (some r.1 :: ·)
      else none
    | _ => (declareAll tbl srcs).map (none :: ·)

/-- The word and the tokens are those of a declaration. -/
def Declares (src : String × List Tok) (d : Decl) : Prop :=
  MemKind.ofWord src.1 = some d.kind ∧ ∃ text rest, Spells d text ∧ src.2 = text ++ rest

/-- Every call returns a type with what its own declaration states. -/
def KeepsKinds (srcs : List (String × List Tok)) (ds : List Decl) : Prop :=
  ∃ types, declareAll [] srcs = some types ∧ List.Forall₂ (fun r d => ∃ t, r = some t ∧ t.States d) types ds

theorem declareAll_eq {srcs : List (String × List Tok)} {ds : List Decl} (h : List.Forall₂ Declares srcs ds)
    (tbl : List (Text × MemType)) :
    declareAll tbl srcs = if ∀ d ∈ ds, (typeName d).length < 256
      then some ((Intern.shared typeName MemType.make tbl ds).map some) else none := by
  induction h generalizing tbl with
  | nil => simp [declareAll, Intern.shared]
  | @cons src d srcs ds hsrc _ ih =>
    obtain ⟨word, ts⟩ := src
    obtain ⟨hword, text, rest, hspells, hts⟩ := hsrc
    have hread : memDecl d.kind ts = .ok (d, [], rest) := memDecl_iff.2 ⟨text, hspells, rfl, hts⟩
    simp only [declareAll, hword, Option.map_some, hread, ih, List.forall_mem_cons, Intern.shared]
    by_cases hd : (typeName d).length < 256
    · by_cases hds : ∀ e ∈ ds, (typeName e).length < 256
      · rw [if_pos hd, if_pos hds, if_pos ⟨hd, hds⟩]
        rfl
      · rw [if_pos hd, if_neg hds, if_neg fun hall => hds hall.2]
        rfl
    · simp [hd]

/-- The declarations run through when their names fit, and then every one gets the type of the first with its name. -/
theorem keepsKinds_iff {srcs : List (String × List Tok)} {ds : List Decl} (h : List.Forall₂ Declares srcs ds) :
    KeepsKinds srcs ds ↔ (∀ d ∈ ds, (typeName d).length < 256) ∧
      ∀ d ∈ ds, (MemType.make (Intern.first typeName ds d)).States d := by
  unfold KeepsKinds
  rw [declareAll_eq h, ← Intern.forall₂_shared_iff]
  by_cases hfit : ∀ d ∈ ds, (typeName d).length < 256
  · rw [if_pos hfit, and_iff_right hfit]
    simp [List.forall₂_map_left_iff]
  · rw [if_neg hfit]
    simp [hfit]

/-! ### The names -/

theorem cut_inj {α : Type} {c : α} {x y r s : List α} (hx : c ∉ x) (hy : c ∉ y) (h : x ++ c :: r = y ++ c :: s) :
    x = y ∧ r = s := by
  induction x generalizing y with
  | nil =>
    cases y with
    | nil => exact ⟨rfl, (List.cons.inj h).2⟩
    | cons b y =>
      obtain ⟨rfl, -⟩ := List.cons.inj h
      exact absurd List.mem_cons_self hy
  | cons a x ih =>
    cases y with
    | nil =>
      obtain ⟨rfl, -⟩ := List.cons.inj h
      exact absurd List.mem_cons_self hx
    | cons b y =>
      obtain ⟨rfl, htail⟩ := List.cons.inj h
      obtain ⟨rfl, rfl⟩ := ih (fun hc => hx (List.mem_cons_of_mem _ hc)) (fun hc => hy (List.mem_cons_of_mem _ hc)) htail
      exact ⟨rfl, rfl⟩

/-- The last arguments of a text can be read from its end. -/
theorem args_inj {a b : Text} {xs ys : List Text} (hlen : xs.length = ys.length) (hx : ∀ x ∈ xs, ',' ∉ x)
    (hy : ∀ y ∈ ys, ',' ∉ y) (h : a ++ xs.flatMap (',' :: ·) = b ++ ys.flatMap (',' :: ·)) : a = b ∧ xs = ys := by
  induction xs using List.reverseRecOn generalizing ys with
  | nil =>
    obtain rfl : ys = [] := List.length_eq_zero_iff.1 hlen.symm
    exact ⟨by simpa using h, rfl⟩
  | append_singleton xs x ih =>
    rcases List.eq_nil_or_concat' ys with rfl | ⟨ys, y, rfl⟩
    · simp at hlen
    · have hrev := congrArg List.reverse h
      simp only [List.flatMap_append, List.flatMap_singleton, List.reverse_append, List.reverse_cons, List.append_assoc,
        List.singleton_append] at hrev
      have hxc : ',' ∉ x.reverse := by simpa using hx x (by simp)
      have hyc : ',' ∉ y.reverse := by simpa using hy y (by simp)
      obtain ⟨hxy, htail⟩ := cut_inj hxc hyc hrev
      have hbody : a ++ xs.flatMap (',' :: ·) = b ++ ys.flatMap (',' :: ·) := by
        simpa using congrArg List.reverse htail
      obtain ⟨rfl, rfl⟩ := ih (by simpa using hlen) (fun z hz => hx z (by simp [hz])) (fun z hz => hy z (by simp [hz])) hbody
      obtain rfl := List.reverse_inj.1 hxy
      exact ⟨rfl, rfl⟩

theorem printInt_chars (n : ℤ) : ∀ c ∈ printInt n, c.isDigit = true ∨ c = '-' := by
  have hdigits : ∀ c ∈ Nat.toDigits 10 n.natAbs, c.isDigit = true := fun c hc =>
    Nat.isDigit_of_mem_toDigits (by decide) (by decide) hc
  intro c hc
  unfold printInt at hc
  split at hc
  · rcases List.mem_cons.1 hc with rfl | hc
    · exact .inr rfl
    · exact .inl (hdigits c hc)
  · exact .inl (hdigits c hc)

theorem printInt_inj {m n : ℤ} (h : printInt m = printInt n) : m = n := by
  have hminus : ∀ k : ℕ, '-' ∉ Nat.toDigits 10 k := fun k hc =>
    absurd (Nat.isDigit_of_mem_toDigits (by decide) (by decide) hc) (by decide)
  unfold printInt at h
  split at h <;> split at h
  · have habs := Htl.StructElem.Tok.toDigits_inj (List.cons.inj h).2
    omega
  · exact absurd (h ▸ List.mem_cons_self) (hminus n.natAbs)
  · exact absurd (h ▸ List.mem_cons_self) (hminus m.natAbs)
  · have habs := Htl.StructElem.Tok.toDigits_inj h
    omega

/-- A kind with this text in front of its types' names. -/
def kindOfFamily (family : Text) : Option MemKind :=
  [.distQue, .distRam, .blockRam, .ultraRam, .mrdBlockRam, .mwrBlockRam, .mrdUltraRam, .mwrUltraRam].find? fun k =>
    k.family = family

theorem kindOfFamily_ram {k : MemKind} (h : k.template ≠ none) : kindOfFamily k.family = some k := by
  cases k <;> first | rfl | exact absurd rfl h

theorem kindOfFamily_queue {k : MemKind} (h : k.template = none) : kindOfFamily k.family = some .distQue := by
  cases k <;> first | rfl | cases h

theorem family_eq {k₁ k₂ : MemKind} (h : k₁.family = k₂.family) :
    k₁ = k₂ ∨ k₁.template = none ∧ k₂.template = none := by
  have hkinds : kindOfFamily k₁.family = kindOfFamily k₂.family := congrArg kindOfFamily h
  by_cases h₁ : k₁.template = none
  · rw [kindOfFamily_queue h₁] at hkinds
    by_cases h₂ : k₂.template = none
    · exact .inr ⟨h₁, h₂⟩
    · rw [kindOfFamily_ram h₂] at hkinds
      exact absurd (Option.some.inj hkinds ▸ rfl) h₂
  · rw [kindOfFamily_ram h₁] at hkinds
    by_cases h₂ : k₂.template = none
    · rw [kindOfFamily_queue h₂] at hkinds
      exact absurd (Option.some.inj hkinds ▸ rfl) h₁
    · rw [kindOfFamily_ram h₂] at hkinds
      exact .inl (Option.some.inj hkinds)

theorem template_cases (k : MemKind) : k.template = none ∨ ∃ p, k.template = some p := by
  cases k.template with
  | none => exact .inl rfl
  | some p => exact .inr ⟨p, rfl⟩

theorem widthText_chars (x : ℤ) : ',' ∉ widthText x := fun hc => by
  rcases printInt_chars _ _ hc with h | h
  · exact absurd h (by decide)
  · exact absurd h (by decide)

theorem boolWord_chars (b : Bool) : ',' ∉ (boolWord b).toList := by
  cases b <;> decide

theorem argTexts_chars (d : Decl) : ∀ x ∈ argTexts d, ',' ∉ x := by
  intro x hx
  unfold argTexts at hx
  split at hx
  · simp only [List.mem_singleton] at hx
    subst hx
    exact widthText_chars _
  · rename_i p _
    cases hreg : p.bDoReg <;> simp only [hreg, if_true, if_false, List.mem_cons, List.not_mem_nil, or_false,
      Bool.false_eq_true] at hx
    · rcases hx with rfl | rfl <;> exact widthText_chars _
    · rcases hx with rfl | rfl | rfl
      · exact widthText_chars _
      · exact widthText_chars _
      · exact boolWord_chars _

theorem argTexts_length (d : Decl) :
    (argTexts d).length = ((d.kind.template.map fun p => if p.bDoReg then 3 else 2).getD 1) := by
  unfold argTexts
  split
  · rename_i h
    simp [h]
  · rename_i p h
    cases hreg : p.bDoReg <;> simp [h, hreg]

theorem family_chars (k : MemKind) : '<' ∉ k.family := by
  cases k <;> decide

/-- The arguments of a name can be read back from it. -/
theorem typeName_inj {d₁ d₂ : Decl} (h : typeName d₁ = typeName d₂) :
    d₁.kind.family = d₂.kind.family ∧ d₁.elem.name = d₂.elem.name ∧ argTexts d₁ = argTexts d₂ := by
  obtain ⟨hfam, hrest⟩ := cut_inj (family_chars d₁.kind) (family_chars d₂.kind) h
  have hlen : (argTexts d₁).length = (argTexts d₂).length := by
    rw [argTexts_length, argTexts_length]
    rcases family_eq hfam with hk | ⟨h₁, h₂⟩
    · rw [hk]
    · rw [h₁, h₂]
  exact ⟨hfam, args_inj hlen (argTexts_chars d₁) (argTexts_chars d₂) (List.append_cancel_right hrest)⟩

/-- The declarations agree on what their types' names are made of. -/
structure SameName (d₁ d₂ : Decl) : Prop where
  family : d₁.kind.family = d₂.kind.family
  name : d₁.elem.name = d₂.elem.name
  addrWidth1 : d₁.addrWidth1 = d₂.addrWidth1
  addrWidth2 : d₁.addrWidth2 = d₂.addrWidth2
  bDoReg : d₁.bDoReg = d₂.bDoReg

theorem SameName.typeName_eq {d₁ d₂ : Decl} (h : SameName d₁ d₂) : typeName d₁ = typeName d₂ := by
  have hargs : argTexts d₁ = argTexts d₂ := by
    unfold argTexts
    rcases family_eq h.family with hk | ⟨h₁, h₂⟩
    · rw [hk, h.addrWidth1, h.addrWidth2, h.bDoReg]
    · rw [h₁, h₂, h.addrWidth1]
  simp only [typeName, h.family, h.name, hargs]

/-- The declarations agree on the rest. -/
structure Alike (d₁ d₂ : Decl) : Prop where
  kind : d₁.kind = d₂.kind
  ident : d₁.elem.ident = d₂.elem.ident
  selWidth : d₁.selWidth = d₂.selWidth

/-- A declaration whose values the name and the type can keep. -/
structure Plain (d : Decl) : Prop where
  addrWidth1 : 0 ≤ d.addrWidth1 ∧ d.addrWidth1 < 256
  addrWidth2 : 0 ≤ d.addrWidth2 ∧ d.addrWidth2 < 256
  selWidth : 0 ≤ d.selWidth ∧ d.selWidth < 256
  /-- A multi-read or multi-write RAM has no output register. -/
  bDoReg : (d.kind.template.map (·.bSelWidth)).getD false = true → d.bDoReg = false
  typeName : (typeName d).length < 256

theorem widthText_inj {x y : ℤ} (hx : 0 ≤ x ∧ x < 256) (hy : 0 ≤ y ∧ y < 256) (h : widthText x = widthText y) :
    x = y := by
  have hwrap := printInt_inj h
  rwa [IntType.wrap_of_inRange (IntType.inRange_int32.2 ⟨by omega, by omega⟩),
    IntType.wrap_of_inRange (IntType.inRange_int32.2 ⟨by omega, by omega⟩)] at hwrap

theorem boolWord_inj {a b : Bool} (h : (boolWord a).toList = (boolWord b).toList) : a = b := by
  revert h
  cases a <;> cases b <;> decide

/-- **The declarations that share a name.** -/
theorem typeName_eq_iff {d₁ d₂ : Decl} {t₁ t₂ : List Tok} (hs₁ : Spells d₁ t₁) (hs₂ : Spells d₂ t₂) (h₁ : Plain d₁)
    (h₂ : Plain d₂) : typeName d₁ = typeName d₂ ↔ SameName d₁ d₂ := by
  refine ⟨fun h => ?_, SameName.typeName_eq⟩
  obtain ⟨hfam, hname, hargs⟩ := typeName_inj h
  have ha₁ := hs₁.absent
  have ha₂ := hs₂.absent
  rcases family_eq hfam with hk | ⟨hq₁, hq₂⟩
  · rcases template_cases d₂.kind with hq | ⟨p, hp⟩
    · simp only [argTexts, hk, hq, List.cons.injEq, and_true] at hargs
      rw [hk] at ha₁
      exact ⟨hfam, hname, widthText_inj h₁.addrWidth1 h₂.addrWidth1 hargs, (ha₁.1 hq).1.trans (ha₂.1 hq).1.symm,
        (ha₁.1 hq).2.trans (ha₂.1 hq).2.symm⟩
    · simp only [argTexts, hk, hp, List.cons.injEq] at hargs
      obtain ⟨hw₁, hw₂, hreg⟩ := hargs
      refine ⟨hfam, hname, widthText_inj h₁.addrWidth1 h₂.addrWidth1 hw₁, widthText_inj h₁.addrWidth2 h₂.addrWidth2 hw₂, ?_⟩
      cases hb : p.bDoReg with
      | false => rw [ha₁.2.1 p (hk ▸ hp) hb, ha₂.2.1 p hp hb]
      | true =>
        simp only [hb, if_true, List.cons.injEq, and_true] at hreg
        exact boolWord_inj hreg
  · simp only [argTexts, hq₁, hq₂, List.cons.injEq, and_true] at hargs
    exact ⟨hfam, hname, widthText_inj h₁.addrWidth1 h₂.addrWidth1 hargs, (ha₁.1 hq₁).1.trans (ha₂.1 hq₂).1.symm,
      (ha₁.1 hq₁).2.trans (ha₂.1 hq₂).2.symm⟩

/-! ### The recorded types -/

namespace MemType

theorem toUint8_range (x : ℤ) : 0 ≤ toUint8 x ∧ toUint8 x < 256 :=
  ⟨Int.emod_nonneg _ (by decide), Int.emod_lt_of_pos _ (by decide)⟩

theorem toUint8_of_range {x : ℤ} (h : 0 ≤ x ∧ x < 256) : toUint8 x = x := by
  unfold toUint8
  rw [IntType.wrap_of_inRange (IntType.inRange_int32.2 ⟨by omega, by omega⟩)]
  exact Int.emod_eq_of_lt h.1 h.2

section Make

variable (d : Decl)

theorem make_pType : (make d).pType = d.elem.ident := by
  obtain ⟨kind, elem, a₁, a₂, s, b⟩ := d
  cases kind <;> cases b <;> rfl

theorem make_addrWidth1 : (make d).scMemoryAddrWidth1 = toUint8 d.addrWidth1 := by
  obtain ⟨kind, elem, a₁, a₂, s, b⟩ := d
  cases kind <;> cases b <;> rfl

theorem make_addrWidth2 : (make d).scMemoryAddrWidth2 = (d.kind.template.map fun _ => toUint8 d.addrWidth2).getD 0 := by
  obtain ⟨kind, elem, a₁, a₂, s, b⟩ := d
  cases kind <;> cases b <;> rfl

theorem make_selWidth : (make d).scMemorySelWidth =
    if (d.kind.template.map (·.bSelWidth)).getD false then toUint8 d.selWidth else 0 := by
  obtain ⟨kind, elem, a₁, a₂, s, b⟩ := d
  cases kind <;> cases b <;> rfl

theorem make_doReg : ((make d).bIsHtBlockRamDoReg || (make d).bIsHtUltraRamDoReg) =
    ((d.kind.template.map (·.bDoReg)).getD false && d.bDoReg) := by
  obtain ⟨kind, elem, a₁, a₂, s, b⟩ := d
  cases kind <;> cases b <;> rfl

/-- The kind that the flags show once an output register has been set. -/
def shadow : MemKind → MemKind
  | .mrdBlockRam | .mwrBlockRam => .blockRam
  | .mrdUltraRam | .mwrUltraRam => .ultraRam
  | k => k

theorem make_kind : (make d).kind = some (if d.bDoReg then shadow d.kind else d.kind) := by
  obtain ⟨kind, elem, a₁, a₂, s, b⟩ := d
  cases kind <;> cases b <;> rfl

theorem shadow_eq_iff (k : MemKind) : shadow k = k ↔ (k.template.map (·.bSelWidth)).getD false = false := by
  cases k <;> decide

end Make

/-- The recorded widths are those of a `uint8_t`. -/
theorem make_range (d : Decl) :
    (0 ≤ (make d).scMemoryAddrWidth1 ∧ (make d).scMemoryAddrWidth1 < 256) ∧
      (0 ≤ (make d).scMemoryAddrWidth2 ∧ (make d).scMemoryAddrWidth2 < 256) ∧
      (0 ≤ (make d).scMemorySelWidth ∧ (make d).scMemorySelWidth < 256) := by
  rw [make_addrWidth1, make_addrWidth2, make_selWidth]
  refine ⟨toUint8_range _, ?_, ?_⟩
  · cases d.kind.template with
    | none => exact ⟨Int.le_refl 0, by simp⟩
    | some p => exact toUint8_range _
  · split
    · exact toUint8_range _
    · exact ⟨Int.le_refl 0, by decide⟩

/-- A type that was made for a plain declaration carries what the declaration states. -/
theorem make_states {d : Decl} {text : List Tok} (hs : Spells d text) (h : Plain d) : (make d).States d := by
  obtain ⟨hqueue, hreg, hsel⟩ := hs.absent
  refine ⟨?_, make_pType d, (make_addrWidth1 d).trans (toUint8_of_range h.addrWidth1), ?_, ?_, ?_⟩
  · rw [make_kind]
    split
    · -- Only a kind without `SW` may have an output register.
      rename_i hb
      have hno : ¬(d.kind.template.map (·.bSelWidth)).getD false = true := fun hs => by
        rw [h.bDoReg hs] at hb
        cases hb
      rw [(shadow_eq_iff d.kind).2 (Bool.eq_false_of_not_eq_true hno)]
    · rfl
  · rw [make_addrWidth2]
    cases hk : d.kind.template with
    | none => exact (hqueue hk).1.symm
    | some p => exact toUint8_of_range h.addrWidth2
  · rw [make_selWidth]
    split
    · exact toUint8_of_range h.selWidth
    · rename_i hno
      exact (hsel (Bool.eq_false_of_not_eq_true hno)).symm
  · rw [make_doReg]
    cases hk : d.kind.template with
    | none =>
      rw [(hqueue hk).2]
      rfl
    | some p =>
      change (p.bDoReg && d.bDoReg) = d.bDoReg
      cases hp : p.bDoReg with
      | false =>
        rw [hreg p hk hp]
        rfl
      | true => rfl

/-- An output register makes a multi-read or multi-write RAM a plain one. -/
theorem make_kind_ne {d : Decl} (hsel : (d.kind.template.map (·.bSelWidth)).getD false = true) (hreg : d.bDoReg = true) :
    (make d).kind ≠ some d.kind := by
  rw [make_kind, if_pos hreg]
  intro hkind
  have hno := (shadow_eq_iff d.kind).1 (Option.some.inj hkind)
  rw [hsel] at hno
  cases hno

theorem States.congr {t : MemType} {d₁ d₂ : Decl} (hn : SameName d₁ d₂) (ha : Alike d₁ d₂) (h : t.States d₁) :
    t.States d₂ where
  kind := h.kind.trans (congrArg some ha.kind)
  pType := h.pType.trans ha.ident
  addrWidth1 := h.addrWidth1.trans hn.addrWidth1
  addrWidth2 := h.addrWidth2.trans hn.addrWidth2
  selWidth := h.selWidth.trans ha.selWidth
  bDoReg := h.bDoReg.trans hn.bDoReg

end MemType

/-- A template with an argument `SW` has one `bDoReg`. -/
theorem template_doReg {k : MemKind} {p : RamTemplate} (h : k.template = some p) (hsel : p.bSelWidth = true) :
    p.bDoReg = true := by
  cases k <;> simp only [MemKind.template, Option.some.injEq, reduceCtorEq] at h <;> subst h <;> first | rfl | cases hsel

/-- A declaration that got what it states is plain. -/
theorem plain_of_states {d e : Decl} (hname : typeName e = typeName d) (hfit : (typeName d).length < 256)
    (h : (MemType.make e).States d) : Plain d := by
  obtain ⟨hr₁, hr₂, hr₃⟩ := MemType.make_range e
  rw [h.addrWidth1] at hr₁
  rw [h.addrWidth2] at hr₂
  rw [h.selWidth] at hr₃
  refine ⟨hr₁, hr₂, hr₃, ?_, hfit⟩
  intro hsel
  obtain ⟨hfam, -, hargs⟩ := typeName_inj hname
  rcases template_cases d.kind with hq | ⟨p, hp⟩
  · simp [hq] at hsel
  · have hk : e.kind = d.kind := by
      rcases family_eq hfam with hk | ⟨-, hq⟩
      · exact hk
      · simp [hq] at hp
    have hpreg := template_doReg hp (by simpa [hp] using hsel)
    have hreg : e.bDoReg = d.bDoReg := by
      simp only [argTexts, hk, hp, hpreg, if_true, List.cons.injEq, and_true] at hargs
      exact boolWord_inj hargs.2.2
    by_contra hd
    have hd : d.bDoReg = true := by simpa using hd
    exact MemType.make_kind_ne (by rw [hk]; exact hsel) (hreg.trans hd) (h.kind.trans (congrArg some hk.symm))

theorem declares_spells {srcs : List (String × List Tok)} {ds : List Decl} (h : List.Forall₂ Declares srcs ds) :
    ∀ d ∈ ds, ∃ text, Spells d text := by
  induction h with
  | nil => simp
  | cons hsrc _ ih =>
    obtain ⟨-, text, -, hspells, -⟩ := hsrc
    exact List.forall_mem_cons.2 ⟨⟨text, hspells⟩, ih⟩

/-- **When every declaration gets the type that it states.** Their values are kept, and declarations with one name do not
differ in what the name leaves out: the kind of a queue, the element type under its name, and the select width. -/
theorem keeps_iff {srcs : List (String × List Tok)} {ds : List Decl} (h : List.Forall₂ Declares srcs ds) :
    KeepsKinds srcs ds ↔ (∀ d ∈ ds, Plain d) ∧ ∀ d₁ ∈ ds, ∀ d₂ ∈ ds, SameName d₁ d₂ → Alike d₁ d₂ := by
  have hspells := declares_spells h
  rw [keepsKinds_iff h]
  constructor
  · rintro ⟨hfit, hstates⟩
    refine ⟨fun d hd => plain_of_states (Intern.key_first ds d) (hfit d hd) (hstates d hd), ?_⟩
    intro d₁ hd₁ d₂ hd₂ hn
    -- Both have the type of the first declaration with their name.
    have hs₁ := hstates d₁ hd₁
    have hs₂ := hstates d₂ hd₂
    rw [Intern.first_congr hd₁ hn.typeName_eq] at hs₁
    exact ⟨Option.some.inj (hs₁.kind.symm.trans hs₂.kind), hs₁.pType.symm.trans hs₂.pType,
      hs₁.selWidth.symm.trans hs₂.selWidth⟩
  · rintro ⟨hplain, halike⟩
    refine ⟨fun d hd => (hplain d hd).typeName, ?_⟩
    intro d hd
    have he : Intern.first typeName ds d ∈ ds := Intern.first_mem hd
    obtain ⟨t₁, hs₁⟩ := hspells _ he
    obtain ⟨t₂, hs₂⟩ := hspells d hd
    have hn := (typeName_eq_iff hs₁ hs₂ (hplain _ he) (hplain d hd)).1 (Intern.key_first ds d)
    exact (MemType.make_states hs₁ (hplain _ he)).congr hn (halike _ he d hd hn)

/-- `ht_dist_ram<sc_uint<8>, 4, 1> ..; ht_dist_ram<sc_uint<8>, 5> ..` -/
theorem keeps_iff_demo :
    KeepsKinds
      [("ht_dist_ram", [.less, .type ⟨1, "sc_uint<8>".toList, 8⟩ false, .comma, .expr 4, .comma, .expr 1, .greater]),
        ("ht_dist_ram", [.less, .type ⟨1, "sc_uint<8>".toList, 8⟩ false, .comma, .expr 5, .greater])]
      [⟨.distRam, ⟨1, "sc_uint<8>".toList, 8⟩, 4, 1, 0, false⟩, ⟨.distRam, ⟨1, "sc_uint<8>".toList, 8⟩, 5, 0, 0, false⟩] := by
  refine (keeps_iff (.cons ⟨rfl, _, [], .ram (p := distRam) rfl .none rfl (.addrWidth2 rfl) (by decide), rfl⟩
    (.cons ⟨rfl, _, [], .ram (p := distRam) rfl .none rfl .none (by decide), rfl⟩ .nil))).2 ⟨?_, ?_⟩
  · intro d hd
    rcases List.mem_pair.1 hd with rfl | rfl
    · exact ⟨by decide, by decide, by decide, fun _ => rfl, by decide⟩
    · exact ⟨by decide, by decide, by decide, fun _ => rfl, by decide⟩
  · intro d₁ hd₁ d₂ hd₂ hn
    rcases List.mem_pair.1 hd₁ with rfl | rfl <;> rcases List.mem_pair.1 hd₂ with rfl | rfl
    · exact ⟨rfl, rfl, rfl⟩
    · exact absurd hn.addrWidth1 (by decide)
    · exact absurd hn.addrWidth1 (by decide)
    · exact ⟨rfl, rfl, rfl⟩

/-- `ht_dist_que<sc_uint<8>, 5> ..; ht_block_que<sc_uint<8>, 5> ..`: the second queue is a distributed one. -/
theorem block_que_is_dist :
    declareAll []
      [("ht_dist_que", [.less, .type ⟨1, "sc_uint<8>".toList, 8⟩ false, .comma, .expr 5, .greater]),
        ("ht_block_que", [.less, .type ⟨1, "sc_uint<8>".toList, 8⟩ false, .comma, .expr 5, .greater])] =
      some [some (.make ⟨.distQue, ⟨1, "sc_uint<8>".toList, 8⟩, 5, 0, 0, false⟩),
        some (.make ⟨.distQue, ⟨1, "sc_uint<8>".toList, 8⟩, 5, 0, 0, false⟩)] ∧
    ¬ KeepsKinds
      [("ht_dist_que", [.less, .type ⟨1, "sc_uint<8>".toList, 8⟩ false, .comma, .expr 5, .greater]),
        ("ht_block_que", [.less, .type ⟨1, "sc_uint<8>".toList, 8⟩ false, .comma, .expr 5, .greater])]
      [⟨.distQue, ⟨1, "sc_uint<8>".toList, 8⟩, 5, 0, 0, false⟩, ⟨.blockQue, ⟨1, "sc_uint<8>".toList, 8⟩, 5, 0, 0, false⟩] := by
  have hrun : declareAll []
      [("ht_dist_que", [.less, .type ⟨1, "sc_uint<8>".toList, 8⟩ false, .comma, .expr 5, .greater]),
        ("ht_block_que", [.less, .type ⟨1, "sc_uint<8>".toList, 8⟩ false, .comma, .expr 5, .greater])] =
      some [some (.make ⟨.distQue, ⟨1, "sc_uint<8>".toList, 8⟩, 5, 0, 0, false⟩),
        some (.make ⟨.distQue, ⟨1, "sc_uint<8>".toList, 8⟩, 5, 0, 0, false⟩)] := by decide
  refine ⟨hrun, ?_⟩
  rintro ⟨types, htypes, hall⟩
  obtain rfl := Option.some.inj (hrun.symm.trans htypes)
  obtain ⟨-, hall⟩ := List.forall₂_cons.1 hall
  obtain ⟨⟨t, ht, hstates⟩, -⟩ := List.forall₂_cons.1 hall
  obtain rfl := Option.some.inj ht
  exact absurd hstates.kind (by decide)

end OpenHT.Htfe.MemTypes
