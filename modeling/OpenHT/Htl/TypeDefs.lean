import OpenHT.Htl.CLex
import OpenHT.Lib.CInt
import OpenHT.Lib.Fuel

/-!
# Types and typedefs of a design

`CDsnInfo` looks the name of a type up in its list of typedefs and follows the typedef's own type from there. The
list is what the design says: `typedef struct S S;` is a typedef of a name to itself.

* `findTypeDef`: the last typedef of a chain, or one with a width.
* `resolve`: the loop that starts `FindClangType`, `FindHtIntType` and `FindRecord`.
* `findType`: the type of a name, with the errors it reports.
* `basicTypeLoop`: the loop of the code generators that looks for a base type.
-/

namespace OpenHT.Htl.Types

open OpenHT.CInt

/-- `CTypeDef` -/
structure TypeDef where
  name : Text
  type : Text
  width : Text
deriving DecidableEq, Repr

/-! ## Chains of typedefs -/

/-- The typedef that the loop of `FindTypeDef` stops at. -/
def lookup (l : List TypeDef) (name : Text) : Option TypeDef := l.find? fun td => td.name = name

/-- `FindTypeDef`, by the depth its calls may have. -/
def findTypeDef (l : List TypeDef) : ℕ → Text → Option (Option TypeDef)
  | 0, _ => none
  | n + 1, name =>
    match lookup l name with
    | none => some none
    | some td =>
      if td.width ≠ [] then some (some td)
      else (findTypeDef l n td.type).map fun td₂ => some (td₂.getD td)

attribute [local simp] findTypeDef

/-- The loop that starts `FindClangType`, `FindHtIntType` and `FindRecord`. -/
def resolve (l : List TypeDef) : ℕ → Text → Option Text
  | 0, _ => none
  | n + 1, name =>
    match findTypeDef l n name with
    | none => none
    | some (some td) => resolve l n td.type
    | some none => some name

attribute [local simp] resolve

/-! ## The types of a name without a typedef -/

/-- `CHtInt` -/
structure HtInt where
  signed : Bool
  typeName : String
  clangBitWidth : Int
  clangMinAlign : Int
  /-- `-1` for a type that is not narrowed to a field. -/
  fldWidth : Int
deriving DecidableEq, Repr

def gVoid : HtInt := ⟨false, "void", 0, 0, -1⟩
def gBool : HtInt := ⟨true, "bool", 1, 8, -1⟩
def gUint8 : HtInt := ⟨false, "uint8_t", 8, 8, -1⟩
def gUint16 : HtInt := ⟨false, "uint16_t", 16, 16, -1⟩
def gUint32 : HtInt := ⟨false, "uint32_t", 32, 32, -1⟩
def gUint64 : HtInt := ⟨false, "uint64_t", 64, 64, -1⟩
def gInt8 : HtInt := ⟨true, "int8_t", 8, 8, -1⟩
def gInt16 : HtInt := ⟨true, "int16_t", 16, 16, -1⟩
def gInt32 : HtInt := ⟨true, "int32_t", 32, 32, -1⟩
def gInt64 : HtInt := ⟨true, "int64_t", 64, 64, -1⟩

/-- A list of symbols with one more, if there is one. -/
def flush (symbol : Text) (symbols : List Text) : List Text := if symbol = [] then symbols else symbol :: symbols

/-- The symbols of a type name: words and asterisks. The last word so far is the second argument. -/
def typeVec : Text → Text → List Text
  | [], word => flush word []
  | c :: cs, word =>
    if isBlank c then flush word (typeVec cs [])
    else if c = '*' then flush word (['*'] :: typeVec cs [])
    else typeVec cs (word ++ [c])

/-- The symbols that are a type by themselves, with their bits in the mask. -/
def natives : List (Text × ℕ) :=
  [("bool".toList, 0x0001), ("char".toList, 0x0002), ("short".toList, 0x0004), ("int".toList, 0x0008),
    ("uint8_t".toList, 0x0100), ("uint16_t".toList, 0x0200), ("uint32_t".toList, 0x0400), ("uint64_t".toList, 0x0800),
    ("int8_t".toList, 0x1000), ("int16_t".toList, 0x2000), ("int32_t".toList, 0x4000), ("int64_t".toList, 0x8000)]

def cLong : ℕ := 0x0010
def cLongLong : ℕ := 0x0020
def cUnsigned : ℕ := 0x0040
def cVoid : ℕ := 0x0080

/-- The loop over the symbols; `none` is `return 0`. `bAllowHostPtr` is never set, so an asterisk is no type. -/
def typeMask : List Text → ℕ → (bNative bHostVar : Bool) → Option ℕ
  | [], mask, _, _ => some mask
  | symbol :: symbols, mask, bNative, bHostVar =>
    match natives.lookup symbol with
    | some bit => if bNative || bHostVar then none else typeMask symbols (mask ||| bit) true bHostVar
    | none =>
      if symbol = "long".toList then
        if bNative || bHostVar then none
        else
          match symbols with
          | next :: symbols' =>
            if next = "long".toList then typeMask symbols' (mask ||| cLongLong) true bHostVar
            else typeMask (next :: symbols') (mask ||| cLong) true bHostVar
          | [] => some (mask ||| cLong)
      else if symbol = "unsigned".toList then
        if bHostVar then none else typeMask symbols (mask ||| cUnsigned) bNative bHostVar
      else if symbol = "void".toList then
        if bNative || bHostVar then none else typeMask symbols (mask ||| cVoid) bNative true
      else none

/-- The switch on the mask; `none` is `HtlAssert(0)`. -/
def maskType (mask : ℕ) : Option HtInt :=
  [(0x0080, gVoid), (0x0001, gBool), (0x0002, gInt8), (0x0004, gInt16), (0x0008, gInt32), (0x0010, gInt64),
    (0x0020, gInt64), (0x0042, gUint8), (0x0044, gUint16), (0x0048, gUint32), (0x0050, gUint64), (0x0060, gUint64),
    (0x0100, gUint8), (0x0200, gUint16), (0x0400, gUint32), (0x0800, gUint64), (0x1000, gInt8), (0x2000, gInt16),
    (0x4000, gInt32), (0x8000, gInt64)].lookup mask

/-- How a search for a type ends. -/
inductive Found (α : Type)
  | found (a : α)
  /-- `return 0` -/
  | null
  /-- `HtlAssert(0)`, which stops the program with a message. -/
  | assert
deriving DecidableEq, Repr

/-- `FindClangType` after its first loop. -/
def clangType (name : Text) : Found HtInt :=
  match typeMask (typeVec name []) 0 false false with
  | none => .null
  | some mask =>
    match maskType mask with
    | some t => .found t
    | none => .assert

/-- `isspace` -/
def isSpace (c : Char) : Bool := c = ' ' || ('\t' ≤ c && c ≤ '\r')

/-- What `strtol` and the `%d` of `sscanf` read, as an `int`: `strtol` stops at the bounds of `long`, and the `int` is
its low half. -/
def scanInt (cs : Text) : Option (Int × Text) :=
  let (neg, cs) :=
    match cs.dropWhile isSpace with
    | '-' :: cs => (true, cs)
    | '+' :: cs => (false, cs)
    | cs => (false, cs)
  let x : Int := radixValue 10 digitValue (cs.takeWhile Char.isDigit) 0
  if cs.takeWhile Char.isDigit = [] then none
  else
    some (IntType.int32.wrap (if neg then max (-x) (-0x8000000000000000) else min x 0x7fffffffffffffff),
      cs.dropWhile Char.isDigit)

/-- `ParseTemplateParam`: the parameter up to the `>` that ends it; `none` is "unrecognized type". -/
def parseTemplateParam : Text → ℕ → Text → Option (Text × Text)
  | [], _, _ => none
  | c :: cs, parenCnt, param =>
    if parenCnt = 0 ∧ c = '>' ∧ cs.head? ≠ some '>' then some (param, c :: cs)
    else if c = '(' then parseTemplateParam cs (parenCnt + 1) (param ++ [c])
    else if c = ')' then if parenCnt = 0 then none else parseTemplateParam cs (parenCnt - 1) (param ++ [c])
    else parseTemplateParam cs parenCnt (param ++ [c])

/-- The prefixes of `FindHtIntType`: whether the type is signed, has a template parameter, and is a `sc_big` type. -/
def htIntPrefixes : List (Text × Bool × Bool × Bool) :=
  [("sc_uint".toList, false, true, false), ("sc_int".toList, true, true, false),
    ("ht_uint".toList, false, false, false), ("ht_int".toList, true, false, false),
    ("sc_biguint".toList, false, true, true), ("sc_bigint".toList, true, true, true)]

/-- The type of a sign and a width; `m_htIntList` and `m_scBigIntList` keep the ones made before. -/
def sizedType (signed big : Bool) (width : Int) : HtInt :=
  let base := match big, signed with
    | false, false => "ht_uint" ++ toString width
    | false, true => "ht_int" ++ toString width
    | true, false => "sc_biguint<" ++ toString width ++ ">"
    | true, true => "sc_bigint<" ++ toString width ++ ">"
  ⟨signed, base, width, 1, -1⟩

/-- The width after the prefix; `none` is `return 0`, with a message or without. -/
def htIntWidth (asInt : Text → Int) (template : Bool) (cs : Text) : Option Int × List String :=
  let unrecognized : Option Int × List String := (none, ["unrecognized type"])
  if template then
    match cs.dropWhile isBlank with
    | '<' :: cs =>
      match parseTemplateParam cs 0 [] with
      | none => unrecognized
      | some (param, rest) =>
        if rest.tail.dropWhile isBlank ≠ [] then unrecognized
        else if asInt param ≤ 0 then (none, [])
        else (some (asInt param), [])
    | _ => unrecognized
  else
    match scanInt cs with
    | none => unrecognized
    | some (width, rest) => if rest.dropWhile isBlank ≠ [] then unrecognized else (some width, [])

/-- `FindHtIntType` after its first loop, with its messages. -/
def htIntType (asInt : Text → Int) (name : Text) : Option HtInt × List String :=
  match htIntPrefixes.find? fun p => p.1.isPrefixOf name with
  | none => (none, [])
  | some (start, signed, template, big) =>
    let (width, msgs) := htIntWidth asInt template (name.drop start.length)
    (width.map (sizedType signed big), msgs)

/-! ## `FindType` -/

/-- What `FindType` reads of `CDsnInfo`. -/
structure Dsn where
  typedefList : List TypeDef
  /-- The names of `m_recordList`. -/
  recordList : List Text
  /-- The value of a `CHtString` after `InitValue`. -/
  asInt : Text → Int

/-- The type of a name: a C type, a record or an integer of the hardware. -/
inductive CType
  | int (t : HtInt)
  | record (typeName : Text)
deriving DecidableEq, Repr

def CType.typeName : CType → Text
  | int t => t.typeName.toList
  | record name => name

section

variable (d : Dsn)

def findClangType (n : ℕ) (name : Text) : Option (Found HtInt) :=
  (resolve d.typedefList n name).map clangType

def findRecord (n : ℕ) (name : Text) : Option (Option Text) :=
  (resolve d.typedefList n name).map fun name => d.recordList.find? (· = name)

def findHtIntType (n : ℕ) (name : Text) : Option (Option HtInt × List String) :=
  (resolve d.typedefList n name).map (htIntType d.asInt)

/-- The type that `FindClangType` has found, for a field of a width. -/
def clangField (t : HtInt) (fldWidth : Int) : Found CType × List String :=
  if 0 < fldWidth then
    if t.clangBitWidth < fldWidth then (.found (.int t), ["specified field width is greater than type width"])
    else (.found (.int { t with fldWidth := fldWidth }), [])
  else (.found (.int t), [])

/-- `FindType`, with its messages. -/
def findType (n : ℕ) (name : Text) (fldWidth : Int) : Option (Found CType × List String) := do
  match ← findClangType d n name with
  | .found t => return clangField t fldWidth
  | .assert => return (.assert, [])
  | .null =>
    if 0 < fldWidth then return (.assert, [])
    else
      match ← findRecord d n name with
      | some record => return (.found (.record record), [])
      | none =>
        match ← findHtIntType d n name with
        | (some t, msgs) => return (.found (.int t), msgs)
        | (none, msgs) => return (.null, msgs ++ ["undeclared type, '" ++ String.ofList name ++ "'"])

end

/-! ## Base types -/

/-- What follows a text that the format of `sscanf` has. -/
def afterText (start cs : Text) : Option Text := if start.isPrefixOf cs then some (cs.drop start.length) else none

/-- Whether `sscanf` reads a width of 1 to 64 after `start` and, if it has a `%s` after `mid`, no suffix. -/
def scansWidth (start mid : Text) (suffix : Bool) (type : Text) : Bool :=
  match (afterText start type).bind scanInt with
  | none => false
  | some (width, rest) =>
    let readsSuffix := match afterText mid rest with
      | some cs => suffix && cs.dropWhile isSpace ≠ []
      | none => false
    !readsSuffix && 0 < width && width ≤ 64

def isBaseType (type : Text) : Bool :=
  scansWidth "int".toList "_t".toList true type || scansWidth "uint".toList "_t".toList true type ||
  scansWidth "ht_int".toList [] true type || scansWidth "ht_uint".toList [] true type ||
  scansWidth "sc_int<".toList ">".toList false type || scansWidth "sc_uint<".toList ">".toList false type ||
  ["bool".toList, "short".toList, "char".toList, "int".toList, "unsigned int".toList, "unsigned short".toList,
    "unsigned char".toList, "long".toList, "unsigned long".toList, "long long".toList,
    "unsigned long long".toList].contains type

/-- `while (!(bBasicType = IsBaseType(type)))`: the loop looks up the name that it starts with, at every turn. -/
def basicTypeLoop (l : List TypeDef) (name : Text) : ℕ → Text → Option Bool
  | 0, _ => none
  | n + 1, type =>
    if isBaseType type then some true
    else
      match findTypeDef l n name with
      | none => none
      | some none => some false
      | some (some td) => basicTypeLoop l name n td.type

attribute [local simp] basicTypeLoop

/-! ## Where chains of typedefs end -/

/-- Following the typedefs from a name ends at a name without one. -/
inductive Resolves (l : List TypeDef) : Text → Text → Prop
  | done {name : Text} (h : lookup l name = none) : Resolves l name name
  | step {name r : Text} {td : TypeDef} (h : lookup l name = some td) (hs : Resolves l td.type r) : Resolves l name r

/-- `FindTypeDef` stops at a typedef that has a width, or at the last one of its chain. -/
inductive Leads (l : List TypeDef) : Text → TypeDef → Prop
  | width {name : Text} {td : TypeDef} (h : lookup l name = some td) (hw : td.width ≠ []) : Leads l name td
  | last {name : Text} {td : TypeDef} (h : lookup l name = some td) (hend : lookup l td.type = none) : Leads l name td
  | nested {name : Text} {td td₂ : TypeDef} (h : lookup l name = some td) (hw : td.width = [])
    (hs : Leads l td.type td₂) : Leads l name td₂

section

variable {l : List TypeDef} {name r : Text}

theorem Leads.lookup_ne_none {td : TypeDef} (h : Leads l name td) : lookup l name ≠ none := by
  intro hnone
  cases h with
  | width h _ => cases hnone.symm.trans h
  | last h _ => cases hnone.symm.trans h
  | nested h _ _ => cases hnone.symm.trans h

theorem findTypeDef_of_lookup_none (h : lookup l name = none) : Fuel.Returns (fun n => findTypeDef l n name) none := by
  refine ⟨1, fun n hn => ?_⟩
  obtain ⟨k, rfl⟩ : ∃ k, n = k + 1 := ⟨n - 1, by omega⟩
  simp only [findTypeDef, h]

/-- One call of `FindTypeDef` without a width. -/
theorem findTypeDef_nested {td : TypeDef} (h : lookup l name = some td) (hw : td.width = []) {o : Option TypeDef}
    (hs : Fuel.Returns (fun n => findTypeDef l n td.type) o) :
    Fuel.Returns (fun n => findTypeDef l n name) (some (o.getD td)) := by
  obtain ⟨N, hN⟩ := hs
  refine ⟨N + 1, fun n hn => ?_⟩
  obtain ⟨k, rfl⟩ : ∃ k, n = k + 1 := ⟨n - 1, by omega⟩
  have hcall : findTypeDef l k td.type = some o := hN k (by omega)
  simp only [findTypeDef, h, hw, ne_eq, not_true_eq_false, if_false, hcall, Option.map_some]

theorem findTypeDef_width {td : TypeDef} (h : lookup l name = some td) (hw : td.width ≠ []) :
    Fuel.Returns (fun n => findTypeDef l n name) (some td) := by
  refine ⟨1, fun n hn => ?_⟩
  obtain ⟨k, rfl⟩ : ∃ k, n = k + 1 := ⟨n - 1, by omega⟩
  simp only [findTypeDef, h, if_pos hw]

/-- **`FindTypeDef` finds** the typedef that its chain leads to. -/
theorem Leads.findTypeDef {td : TypeDef} (h : Leads l name td) :
    Fuel.Returns (fun n => findTypeDef l n name) (some td) := by
  induction h with
  | width h hw => exact findTypeDef_width h hw
  | @last name td h hend =>
    by_cases hw : td.width = []
    · exact findTypeDef_nested h hw (findTypeDef_of_lookup_none hend)
    · exact findTypeDef_width h hw
  | nested h hw _ ih => exact findTypeDef_nested h hw ih

/-- A chain that ends has a last typedef, unless the name has none. -/
theorem Resolves.leads (h : Resolves l name r) : lookup l name = none ∨ ∃ td, Leads l name td := by
  induction h with
  | done h => exact .inl h
  | @step name r td h _ ih =>
    by_cases hw : td.width = []
    · rcases ih with hend | ⟨td₂, hs⟩
      · exact .inr ⟨td, .last h hend⟩
      · exact .inr ⟨td₂, .nested h hw hs⟩
    · exact .inr ⟨td, .width h hw⟩

/-- What follows the typedef that a chain leads to is the end of the chain. -/
theorem Leads.resolves_iff {td : TypeDef} (h : Leads l name td) : Resolves l name r ↔ Resolves l td.type r := by
  have hstep : ∀ {name : Text} {td : TypeDef}, lookup l name = some td →
      (Resolves l name r ↔ Resolves l td.type r) := by
    intro name td h
    constructor
    · intro hr
      cases hr with
      | done hnone => cases hnone.symm.trans h
      | step h' hs =>
        obtain rfl := Option.some.inj (h.symm.trans h')
        exact hs
    · exact Resolves.step h
  induction h with
  | width h _ => exact hstep h
  | last h _ => exact hstep h
  | nested h _ _ ih => exact (hstep h).trans ih

/-- **What a call of `FindTypeDef` returns.** -/
theorem findTypeDef_sound {n : ℕ} {o : Option TypeDef} (h : findTypeDef l n name = some o) :
    (o = none ∧ lookup l name = none) ∨ ∃ td, o = some td ∧ Leads l name td := by
  induction n generalizing name o with
  | zero => cases h
  | succ n ih =>
    rw [findTypeDef] at h
    cases hlookup : lookup l name with
    | none =>
      rw [hlookup] at h
      exact .inl ⟨(Option.some.inj h).symm, rfl⟩
    | some td =>
      rw [hlookup] at h
      simp only at h
      by_cases hw : td.width = []
      · rw [if_neg (not_not_intro hw)] at h
        obtain ⟨o₂, ho₂, rfl⟩ := Option.map_eq_some_iff.1 h
        rcases ih ho₂ with ⟨rfl, hend⟩ | ⟨td₂, rfl, hs⟩
        · exact .inr ⟨td, rfl, .last hlookup hend⟩
        · exact .inr ⟨td₂, rfl, .nested hlookup hw hs⟩
      · rw [if_pos hw] at h
        exact .inr ⟨td, (Option.some.inj h).symm, .width hlookup hw⟩

theorem resolve_sound {n : ℕ} (h : resolve l n name = some r) : Resolves l name r := by
  induction n generalizing name with
  | zero => cases h
  | succ n ih =>
    rw [resolve] at h
    cases hcall : findTypeDef l n name with
    | none =>
      rw [hcall] at h
      cases h
    | some o =>
      rw [hcall] at h
      rcases findTypeDef_sound hcall with ⟨rfl, hnone⟩ | ⟨td, rfl, hleads⟩
      · obtain rfl := Option.some.inj h
        exact .done hnone
      · exact hleads.resolves_iff.2 (ih h)

/-- **A turn of the loop** that finds a typedef. -/
theorem resolve_leads {td : TypeDef} (h : Leads l name td) (hs : Fuel.Returns (fun n => resolve l n td.type) r) :
    Fuel.Returns (fun n => resolve l n name) r := by
  obtain ⟨N, hN⟩ := h.findTypeDef
  refine Fuel.Returns.step ⟨N, fun n hn => ?_⟩ hs
  have hcall : findTypeDef l n name = some (some td) := hN n hn
  simp only [resolve, hcall]

theorem resolve_none (h : lookup l name = none) : Fuel.Returns (fun n => resolve l n name) name := by
  obtain ⟨N, hN⟩ := findTypeDef_of_lookup_none h
  refine ⟨N + 1, fun n hn => ?_⟩
  obtain ⟨k, rfl⟩ : ∃ k, n = k + 1 := ⟨n - 1, by omega⟩
  have hcall : findTypeDef l k name = some none := hN k (by omega)
  simp only [resolve, hcall]

/-- The number of typedefs on the way to the end. -/
theorem Resolves.returns (h : Resolves l name r) : Fuel.Returns (fun n => resolve l n name) r := by
  induction h with
  | done h => exact resolve_none h
  | @step name r td h hs ih =>
    rcases (Resolves.step h hs).leads with hnone | ⟨td₂, hleads⟩
    · cases hnone.symm.trans h
    · cases hleads with
      | width h' hw =>
        obtain rfl := Option.some.inj (h.symm.trans h')
        exact resolve_leads (.width h hw) ih
      | last h' hend =>
        obtain rfl := Option.some.inj (h.symm.trans h')
        exact resolve_leads (.last h hend) ih
      | nested h' hw hs₂ =>
        obtain rfl := Option.some.inj (h.symm.trans h')
        -- the loop of the nested name makes its first turn to the same typedef
        obtain ⟨N, hN⟩ := hs₂.findTypeDef
        obtain ⟨M, hM⟩ := ih
        refine resolve_leads (.nested h hw hs₂) ⟨max N M, fun n hn => ?_⟩
        have hcall : findTypeDef l n td.type = some (some td₂) := hN n (by omega)
        have hturn : resolve l (n + 1) td.type = some r := hM (n + 1) (by omega)
        simp only [resolve, hcall] at hturn
        exact hturn

/-- **The loop of `FindClangType` ends** just if the chain of typedefs does. -/
theorem resolve_returns_iff : Fuel.Returns (fun n => resolve l n name) r ↔ Resolves l name r := by
  constructor
  · rintro ⟨N, hN⟩
    exact resolve_sound (hN N (Nat.le_refl N))
  · exact Resolves.returns

/-! ## The loop over base types -/

theorem basicTypeLoop_of_base {type : Text} (h : isBaseType type = true) :
    Fuel.Returns (fun n => basicTypeLoop l name n type) true := by
  refine ⟨1, fun n hn => ?_⟩
  obtain ⟨k, rfl⟩ : ∃ k, n = k + 1 := ⟨n - 1, by omega⟩
  simp only [basicTypeLoop, h, if_true]

/-- The loop does not end when the typedef of its name is for no base type. -/
theorem basicTypeLoop_stuck {td : TypeDef} (hleads : Leads l name td) (htd : isBaseType td.type = false) (n : ℕ)
    {type : Text} (h : isBaseType type = false) : basicTypeLoop l name n type = none := by
  induction n generalizing type with
  | zero => rfl
  | succ n ih =>
    rw [basicTypeLoop, if_neg (by rw [h]; exact Bool.false_ne_true)]
    cases hcall : findTypeDef l n name with
    | none => rfl
    | some o =>
      obtain ⟨N, hN⟩ := hleads.findTypeDef
      rcases findTypeDef_sound hcall with ⟨rfl, hnone⟩ | ⟨td₂, rfl, hleads₂⟩
      · exact absurd hnone hleads.lookup_ne_none
      · obtain ⟨M, hM⟩ := hleads₂.findTypeDef
        have hsame := Fuel.Returns.unique ⟨N, hN⟩ ⟨M, hM⟩
        obtain rfl := Option.some.inj hsame
        exact ih htd

/-- **The loop over base types ends** just if its name is one, or has no typedef, or `FindTypeDef` leads it to one. -/
theorem basicTypeLoop_returns_iff (hr : Resolves l name r) :
    (∃ b, Fuel.Returns (fun n => basicTypeLoop l name n name) b) ↔
      isBaseType name = true ∨ ∀ td, Leads l name td → isBaseType td.type = true := by
  by_cases hbase : isBaseType name = true
  · exact iff_of_true ⟨true, basicTypeLoop_of_base hbase⟩ (.inl hbase)
  · rw [Bool.not_eq_true] at hbase
    rcases hr.leads with hnone | ⟨td, hleads⟩
    · refine iff_of_true ⟨false, ?_⟩ (.inr fun td h => ?_)
      · obtain ⟨N, hN⟩ := findTypeDef_of_lookup_none hnone
        refine ⟨N + 1, fun n hn => ?_⟩
        obtain ⟨k, rfl⟩ : ∃ k, n = k + 1 := ⟨n - 1, by omega⟩
        have hcall : findTypeDef l k name = some none := hN k (by omega)
        simp only [basicTypeLoop, hbase, hcall, Bool.false_eq_true, if_false]
      · exact absurd hnone h.lookup_ne_none
    · by_cases htd : isBaseType td.type = true
      · refine iff_of_true ⟨true, ?_⟩ (.inr fun td₂ h => ?_)
        · obtain ⟨N, hN⟩ := hleads.findTypeDef
          have hend : Fuel.Returns (fun n => basicTypeLoop l name n td.type) true := basicTypeLoop_of_base htd
          refine Fuel.Returns.step ⟨N, fun n hn => ?_⟩ hend
          have hcall : findTypeDef l n name = some (some td) := hN n hn
          simp only [basicTypeLoop, hbase, hcall, Bool.false_eq_true, if_false]
        · have hsame := Fuel.Returns.unique hleads.findTypeDef h.findTypeDef
          obtain rfl := Option.some.inj hsame
          exact htd
      · rw [Bool.not_eq_true] at htd
        refine iff_of_false ?_ ?_
        · rintro ⟨b, N, hN⟩
          have hrun : basicTypeLoop l name N name = some b := hN N (Nat.le_refl N)
          rw [basicTypeLoop_stuck hleads htd N hbase] at hrun
          cases hrun
        · rintro (h | h)
          · cases hbase.symm.trans h
          · cases htd.symm.trans (h td hleads)

end

/-! ## All lookups of a name -/

/-- Every loop that follows `FindTypeDef` from a name ends, and a name of no type is reported. -/
structure Terminates (d : Dsn) (name : Text) : Prop where
  findClangType : ∃ t, Fuel.Returns (fun n => findClangType d n name) t
  findRecord : ∃ t, Fuel.Returns (fun n => findRecord d n name) t
  findHtIntType : ∃ t, Fuel.Returns (fun n => findHtIntType d n name) t
  findType : ∀ fldWidth, ∃ t msgs, Fuel.Returns (fun n => findType d n name fldWidth) (t, msgs) ∧
    (t = .null → "undeclared type, '" ++ String.ofList name ++ "'" ∈ msgs)
  basicTypeLoop : ∃ b, Fuel.Returns (fun n => basicTypeLoop d.typedefList name n name) b

variable {d : Dsn} {name r : Text}

/-- What the loop starts ends with the loop. -/
theorem returns_map {α : Type} (h : Resolves d.typedefList name r) (f : Text → α) :
    Fuel.Returns (fun n => (resolve d.typedefList n name).map f) (f r) := by
  obtain ⟨N, hN⟩ := h.returns
  refine ⟨N, fun n hn => ?_⟩
  have hresolve : resolve d.typedefList n name = some r := hN n hn
  simp only [hresolve, Option.map_some]

/-- What `FindType` makes of a name and the end of its chain. -/
def typeAtEnd (d : Dsn) (name r : Text) (fldWidth : Int) : Found CType × List String :=
  match clangType r with
  | .found t => clangField t fldWidth
  | .assert => (.assert, [])
  | .null =>
    if 0 < fldWidth then (.assert, [])
    else
      match d.recordList.find? (· = r) with
      | some record => (.found (.record record), [])
      | none =>
        match htIntType d.asInt r with
        | (some t, msgs) => (.found (.int t), msgs)
        | (none, msgs) => (.null, msgs ++ ["undeclared type, '" ++ String.ofList name ++ "'"])

/-- **`FindType`** ends when the chain of typedefs does. -/
theorem findType_returns (h : Resolves d.typedefList name r) (fldWidth : Int) :
    Fuel.Returns (fun n => findType d n name fldWidth) (typeAtEnd d name r fldWidth) := by
  obtain ⟨N, hN⟩ := h.returns
  refine ⟨N, fun n hn => ?_⟩
  have hresolve : resolve d.typedefList n name = some r := hN n hn
  simp only [findType, findClangType, findRecord, findHtIntType, hresolve, Option.map_some, Option.bind_eq_bind,
    Option.bind_some, typeAtEnd]
  cases clangType r with
  | found t => rfl
  | assert => rfl
  | null =>
    by_cases hwidth : 0 < fldWidth
    · simp only [if_pos hwidth, Option.pure_def]
    · simp only [if_neg hwidth]
      cases d.recordList.find? (· = r) with
      | some record => rfl
      | none =>
        obtain ⟨o, msgs⟩ := htIntType d.asInt r
        cases o <;> rfl

/-- A name of no type is reported. -/
theorem typeAtEnd_null {fldWidth : Int} (h : (typeAtEnd d name r fldWidth).1 = .null) :
    "undeclared type, '" ++ String.ofList name ++ "'" ∈ (typeAtEnd d name r fldWidth).2 := by
  have hfield : ∀ t, (clangField t fldWidth).1 ≠ .null := by
    intro t hnull
    unfold clangField at hnull
    split at hnull
    · split at hnull <;> cases hnull
    · cases hnull
  unfold typeAtEnd at h ⊢
  cases hclang : clangType r with
  | found t =>
    rw [hclang] at h
    exact absurd h (hfield t)
  | assert =>
    rw [hclang] at h
    cases h
  | null =>
    rw [hclang] at h
    simp only at h ⊢
    split at h
    · cases h
    · rename_i hwidth
      rw [if_neg hwidth]
      split at h
      · cases h
      · split at h
        · cases h
        · exact List.mem_append_right _ List.mem_cons_self

/-- **Exactly the names whose chain of typedefs ends** can be looked up. For the code generators, `FindTypeDef` leads
from a name that is no base type to one, if anywhere. -/
theorem terminates_iff (d : Dsn) (name : Text) :
    Terminates d name ↔ (∃ r, Resolves d.typedefList name r) ∧
      (isBaseType name = true ∨ ∀ td, Leads d.typedefList name td → isBaseType td.type = true) := by
  constructor
  · intro h
    obtain ⟨t, N, hN⟩ := h.findClangType
    obtain ⟨r, hr, -⟩ := Option.map_eq_some_iff.1 (hN N (Nat.le_refl N))
    have hresolves := resolve_sound hr
    exact ⟨⟨r, hresolves⟩, (basicTypeLoop_returns_iff hresolves).1 h.basicTypeLoop⟩
  · rintro ⟨⟨r, hr⟩, hbase⟩
    exact ⟨⟨_, returns_map hr clangType⟩, ⟨_, returns_map hr _⟩, ⟨_, returns_map hr _⟩,
      fun fldWidth => ⟨_, _, findType_returns hr fldWidth, typeAtEnd_null⟩, (basicTypeLoop_returns_iff hr).2 hbase⟩

/-- `struct S { .. }; typedef struct S S;` -/
def typedefOfItself : Dsn := ⟨[⟨['S'], ['S'], []⟩], [['S']], fun _ => 0⟩

/-- The search for the type `S` does not end. -/
theorem typedefOfItself_loops : ¬Terminates typedefOfItself ['S'] := by
  have hno : ∀ name r, Resolves typedefOfItself.typedefList name r → name ≠ ['S'] := by
    intro name r h
    induction h with
    | done h =>
      rintro rfl
      exact absurd h (by decide)
    | step h _ ih =>
      rintro rfl
      have htd : lookup typedefOfItself.typedefList ['S'] = some ⟨['S'], ['S'], []⟩ := rfl
      obtain rfl := Option.some.inj (htd.symm.trans h)
      exact ih rfl
  intro h
  obtain ⟨t, N, hN⟩ := h.findClangType
  obtain ⟨r, hr, -⟩ := Option.map_eq_some_iff.1 (hN N (Nat.le_refl N))
  exact hno _ r (resolve_sound hr) rfl

end OpenHT.Htl.Types
