import OpenHT.Htfe.StructDecl
import OpenHT.Lib.Overlay

/-!
# The bit layout of structs and unions

Where the members of a struct or a union belong, and when `ParseStructDecl` puts them there.

* `Entry`, `Ident.view`: what is asked of an identifier, and its value in the parser's table.
* `Decl.parts`, `bodyEntries`, `bodyWidth`: the layout of a body.
* `LaidOut`: the parser lays out a body and everything in it as it belongs.
* `Decl.made`, `Decl.bits`: what the parser makes of a declaration that it accepts, `parseBody_iff`.
* `laysOut_iff`: when a body is laid out; `LaidOut.apart`: what this means for a struct.
-/

namespace OpenHT.Htfe.StructDecl

open ArrayElems (Str Linear)
open Overlay RowMajor

/-! ### The layout -/

/-- A member with the positions of its elements in row-major order when it is an array of structs, and a struct with its
own members. -/
inductive Entry
  | record (width : ℕ) (members : List Entry)
  | member (name : Str) (pos width : ℕ) (dims : List ℕ) (elems : List (Option ℤ))

/-- The positions of the elements in row-major order. -/
def Member.elemPositions (m : Member) : List (Option ℤ) :=
  if m.type.bIsStruct ∧ m.dimenList ≠ [] then
    (indices m.dimenList).map fun idx => (m.elems.find? fun e => e.index = idx).bind (·.structPos)
  else []

def Member.view (m : Member) : Entry := .member m.name m.structPos m.getWidth m.dimenList m.elemPositions

mutual

def Ident.view : Ident → Entry
  | .struct _ tbl width => .record width (viewAll tbl)
  | .member m => m.view

def viewAll : List Ident → List Entry
  | [] => []
  | i :: l => i.view :: viewAll l

end

/-- The elements of an array of structs at `p`. -/
def elemsAt (ty : Ty) (dims : List ℕ) (p : ℕ) : List (Option ℤ) :=
  if ty.bIsStruct ∧ dims ≠ [] then
    (indices dims).map fun idx => some ((p + offset dims idx * ty.width : ℕ) : ℤ)
  else []

/-- A member as a part of the struct. -/
def memberPart (name : Str) (ty : Ty) (width : ℕ) (dims : List ℕ) : Piece Entry where
  width := width * RowMajor.count dims
  place p := [.member name p width dims (elemsAt ty dims p)]

def Declarator.part (ty : Ty) (d : Declarator) : Piece Entry :=
  match d.suffix with
  | .none => memberPart d.name ty ty.width []
  | .bits width => memberPart d.name ty width []
  | .array dims => memberPart d.name ty ty.width dims

/-- A member of an unnamed struct that starts at `p`. -/
def Entry.shift (p : ℕ) : Entry → Option Entry
  | .record _ _ => none
  | .member name pos width dims elems => some (.member name (p + pos) width dims (elems.map (·.map (p + ·))))

def bodyEntries (bIsUnion : Bool) (l : List (Piece Entry)) : List Entry := if bIsUnion then overlaid l else row 0 l

def bodyWidth (bIsUnion : Bool) (l : List (Piece Entry)) : ℕ := if bIsUnion then overWidth l else rowWidth l

mutual

/-- What a declaration adds to the struct that it stands in. -/
def Decl.parts : Decl → List (Piece Entry)
  | .fields ty ds => ds.map (Declarator.part ty)
  | .nested bIsUnion structName decls vars =>
    let width := bodyWidth bIsUnion (partsAll decls)
    let entries := bodyEntries bIsUnion (partsAll decls)
    ⟨0, fun _ => [.record width entries]⟩ ::
      if vars = [] then
        if structName.isSome then [] else [⟨width, fun p => entries.filterMap (Entry.shift p)⟩]
      else vars.map fun v => memberPart v.name ⟨width, true⟩ width v.dims

def partsAll : List Decl → List (Piece Entry)
  | [] => []
  | d :: ds => d.parts ++ partsAll ds

end

/-- **The body is laid out**: nothing is reported, and its members, those of nested structs and the widths are as they
belong. -/
def LaidOut (bIsUnion : Bool) (decls : List Decl) : Prop :=
  ∃ b, parseBody bIsUnion {} decls = some b ∧ viewAll b.tbl = bodyEntries bIsUnion (partsAll decls) ∧
    b.maxStructBitPos = bodyWidth bIsUnion (partsAll decls)

/-! ### What is accepted -/

mutual

/-- The members that a declaration adds to the struct that it stands in. -/
def Decl.memberNames : Decl → List Str
  | .fields _ ds => ds.map (·.name)
  | .nested _ structName decls vars =>
    if vars = [] then if structName.isSome then [] else memberNamesAll decls else vars.map (·.name)

def memberNamesAll : List Decl → List Str
  | [] => []
  | d :: ds => d.memberNames ++ memberNamesAll ds

end

/-- The struct that a declaration adds. -/
def Decl.tags (unnamedId : ℕ) : Decl → List Name
  | .fields _ _ => []
  | .nested _ structName _ _ => [tagName unnamedId structName]

def Decl.nextId (unnamedId : ℕ) : Decl → ℕ
  | .fields _ _ => unnamedId
  | .nested _ structName _ _ => if structName.isSome then unnamedId else unnamedId + 1

/-- All names that declarations add. -/
def namesAll (unnamedId : ℕ) : List Decl → List Name
  | [] => []
  | d :: ds => d.tags unnamedId ++ d.memberNames.map .ident ++ namesAll (d.nextId unnamedId) ds

/-- A bit-field has at most 1024 bits. -/
def Declarator.Accepted (d : Declarator) : Prop :=
  match d.suffix with
  | .bits width => width ≤ 1024
  | _ => True

instance (d : Declarator) : Decidable d.Accepted :=
  match h : d.suffix with
  | .bits width => decidable_of_iff (width ≤ 1024) (by simp [Declarator.Accepted, h])
  | .none => .isTrue (by simp [Declarator.Accepted, h])
  | .array _ => .isTrue (by simp [Declarator.Accepted, h])

mutual

/-- The declarators are accepted, and no name is declared twice in a nested struct. -/
def Decl.Accepted : Decl → Prop
  | .fields _ ds => ∀ d ∈ ds, d.Accepted
  | .nested _ _ decls _ => AcceptedAll decls ∧ (namesAll 0 decls).Nodup

def AcceptedAll : List Decl → Prop
  | [] => True
  | d :: ds => d.Accepted ∧ AcceptedAll ds

end

/-! ### What is made -/

def Declarator.bits (ty : Ty) (d : Declarator) : ℕ :=
  match d.suffix with
  | .none => ty.width
  | .bits width => width
  | .array dims => ty.width * RowMajor.count dims

/-- The member of a declarator. -/
def Declarator.member (ty : Ty) (pos : ℕ) (d : Declarator) : Member :=
  match d.suffix with
  | .none => { name := d.name, type := ty, width := ty.width, structPos := pos }
  | .bits width => { name := d.name, type := ty, width := width, structPos := pos }
  | .array dims =>
    { name := d.name
      type := ty
      structPos := pos
      dimenList := dims
      bIsArrayIdent := true
      elems := arrayElems d.name dims ty.width pos }

def madeFields (ty : Ty) : ℕ → List Declarator → List Ident
  | _, [] => []
  | pos, d :: ds => .member (d.member ty pos) :: madeFields ty (pos + d.bits ty) ds

mutual

def Decl.bits : Decl → ℕ
  | .fields ty ds => (ds.map (Declarator.bits ty)).sum
  | .nested bIsUnion structName decls vars =>
    if vars = [] then if structName.isSome then 0 else bitsAll bIsUnion decls
    else (vars.map fun v => (declareVar 0 (bitsAll bIsUnion decls) v).2).sum

def bitsAll (bIsUnion : Bool) : List Decl → ℕ
  | [] => 0
  | d :: ds => if bIsUnion then max d.bits (bitsAll bIsUnion ds) else d.bits + bitsAll bIsUnion ds

end

mutual

def Decl.made (unnamedId pos : ℕ) : Decl → List Ident
  | .fields ty ds => madeFields ty pos ds
  | .nested bIsUnion structName decls vars =>
    let inner := madeAll bIsUnion 0 0 decls
    let width := bitsAll bIsUnion decls
    .struct (tagName unnamedId structName) inner width ::
      if vars = [] then
        if structName.isSome then []
        else (inner.filterMap Ident.member?).map fun f => .member (relocate pos f)
      else vars.map fun v => .member (declareVar pos width v).1

def madeAll (bIsUnion : Bool) (unnamedId pos : ℕ) : List Decl → List Ident
  | [] => []
  | d :: ds =>
    d.made unnamedId pos ++
      madeAll bIsUnion (d.nextId unnamedId) (if bIsUnion then 0 else pos + d.bits) ds

end

/-! ### The parser makes it -/

abbrev names (tbl : List Ident) : List Name := tbl.map Ident.name

theorem foldlM_insertNew {tbl r is : List Ident} (h : (names tbl).Nodup) :
    is.foldlM insertNew tbl = some r ↔ (names tbl ++ names is).Nodup ∧ r = tbl ++ is := by
  induction is generalizing tbl with
  | nil => simp [h, eq_comm]
  | cons i is ih =>
    have hlist : names tbl ++ names (i :: is) = names (tbl ++ [i]) ++ names is := by simp
    rw [List.foldlM_cons, hlist]
    by_cases hi : i.name ∈ names tbl
    · have hdup : ¬(names (tbl ++ [i]) ++ names is).Nodup := by
        intro hnd
        have hpre := (List.nodup_append.1 hnd).1
        rw [names, List.map_append, List.nodup_append] at hpre
        exact hpre.2.2 _ hi _ (by simp) rfl
      have hnone : insertNew tbl i = none := if_pos hi
      rw [hnone]
      exact iff_of_false (by simp) fun hr => hdup hr.1
    · have hnd : (names (tbl ++ [i])).Nodup := by
        rw [names, List.map_append, List.nodup_append]
        refine ⟨h, by simp, ?_⟩
        rintro a ha b hb rfl
        obtain rfl : a = i.name := by simpa using hb
        exact hi ha
      have hsome : insertNew tbl i = some (tbl ++ [i]) := if_neg hi
      rw [hsome]
      simp [ih hnd]

theorem arrayElems_length (name : Str) (dims : List ℕ) (width pos : ℕ) :
    (arrayElems name dims width pos).length = RowMajor.count dims := by
  have h := congrArg List.length (ArrayElems.colElems_offset dims)
  rw [List.length_map, List.length_range] at h
  rw [arrayElems, List.length_map, h]

theorem declMember_eq (ty : Ty) (pos : ℕ) (d : Declarator) :
    declMember ty pos d = if d.Accepted then some (d.member ty pos, d.bits ty) else none := by
  obtain ⟨name, suffix⟩ := d
  cases suffix with
  | none => simp [declMember, Declarator.member, Declarator.bits, Declarator.Accepted]
  | bits width =>
    by_cases h : width ≤ 1024
    · simp [declMember, Declarator.member, Declarator.bits, Declarator.Accepted, h, not_lt.2 h]
    · simp [declMember, Declarator.Accepted, h, not_le.1 h]
  | array dims => simp [declMember, Declarator.member, Declarator.bits, Declarator.Accepted, arrayElems_length]

theorem declareFields_eq {ty : Ty} {tbl : List Ident} {pos : ℕ} {ds : List Declarator} :
    declareFields ty (tbl, pos) ds = if ∀ d ∈ ds, d.Accepted
      then ((madeFields ty pos ds).foldlM insertNew tbl).map (·, pos + (ds.map (Declarator.bits ty)).sum) else none := by
  induction ds generalizing tbl pos with
  | nil => simp [declareFields, madeFields]
  | cons d ds ih =>
    simp only [declareFields, declMember_eq, List.forall_mem_cons]
    by_cases hd : d.Accepted
    · simp only [hd, if_true, true_and]
      cases hi : insertNew tbl (.member (d.member ty pos)) with
      | none => simp [madeFields, hi]
      | some tbl' => simp [madeFields, hi, ih, Nat.add_assoc]
    · simp [hd]

theorem relocateAll_eq {pos : ℕ} {tbl : List Ident} {fs : List Member} :
    relocateAll pos tbl fs = (fs.map fun f => Ident.member (relocate pos f)).foldlM insertNew tbl := by
  induction fs generalizing tbl with
  | nil => rfl
  | cons f fs ih =>
    rw [relocateAll, List.map_cons, List.foldlM_cons]
    exact congrArg _ (funext fun tbl' => ih)

theorem declareVar_bits (pos pos' width : ℕ) (v : VarDecl) :
    (declareVar pos width v).2 = (declareVar pos' width v).2 := by
  unfold declareVar
  by_cases h : v.dims = [] <;> simp [h]

theorem declareVars_eq {pos width n : ℕ} {tbl : List Ident} {vs : List VarDecl} :
    declareVars pos width (tbl, n) vs =
      ((vs.map fun v => Ident.member (declareVar pos width v).1).foldlM insertNew tbl).map
        (·, n + (vs.map fun v => (declareVar 0 width v).2).sum) := by
  induction vs generalizing tbl n with
  | nil => simp [declareVars]
  | cons v vs ih =>
    simp only [declareVars, List.map_cons, List.foldlM_cons, List.sum_cons]
    cases hi : insertNew tbl (.member (declareVar pos width v).1) with
    | none => simp
    | some tbl' => simp [ih, declareVar_bits pos 0, Nat.add_assoc]

theorem members_struct (name : Name) (tbl : List Ident) (width : ℕ) (l : List Ident) :
    (Ident.struct name tbl width :: l).filterMap Ident.member? = l.filterMap Ident.member? :=
  List.filterMap_cons_none rfl

theorem members_member {α : Type} (g : α → Member) (l : List α) :
    (l.map fun a => Ident.member (g a)).filterMap Ident.member? = l.map g := by
  induction l with
  | nil => rfl
  | cons a l ih =>
    have hcons := List.filterMap_cons_some (l := l.map fun a => Ident.member (g a))
      (show Ident.member? (.member (g a)) = some (g a) from rfl)
    rw [List.map_cons, hcons, ih, List.map_cons]

theorem names_madeFields (ty : Ty) (pos : ℕ) (ds : List Declarator) :
    names (madeFields ty pos ds) = (ds.map (·.name)).map .ident := by
  induction ds generalizing pos with
  | nil => rfl
  | cons d ds ih =>
    have hname : (d.member ty pos).name = d.name := by
      unfold Declarator.member
      split <;> rfl
    simp only [madeFields, names, List.map_cons, Ident.name, hname]
    exact congrArg _ (ih _)

theorem member?_madeFields (ty : Ty) (pos : ℕ) (ds : List Declarator) :
    ((madeFields ty pos ds).filterMap Ident.member?).map (·.name) = ds.map (·.name) := by
  induction ds generalizing pos with
  | nil => rfl
  | cons d ds ih =>
    have hname : (d.member ty pos).name = d.name := by
      unfold Declarator.member
      split <;> rfl
    simp [madeFields, Ident.member?, hname, ih]

theorem relocate_name (pos : ℕ) (f : Member) : (relocate pos f).name = f.name := by
  unfold relocate
  by_cases h : f.bIsArrayIdent <;> simp [h]

theorem declareVar_name (pos width : ℕ) (v : VarDecl) : (declareVar pos width v).1.name = v.name := by
  unfold declareVar
  by_cases h : v.dims = [] <;> simp [h]

mutual

theorem names_made (unnamedId pos : ℕ) (d : Decl) :
    names (d.made unnamedId pos) = d.tags unnamedId ++ d.memberNames.map .ident ∧
      ((d.made unnamedId pos).filterMap Ident.member?).map (·.name) = d.memberNames := by
  cases d with
  | fields ty ds =>
    simp only [Decl.made, Decl.tags, Decl.memberNames, List.nil_append]
    exact ⟨names_madeFields ty pos ds, member?_madeFields ty pos ds⟩
  | nested bIsUnion structName decls vars =>
    have hinner := (names_madeAll bIsUnion 0 0 decls).2
    by_cases hv : vars = []
    · cases hs : structName.isSome with
      | true => simp [Decl.made, Decl.tags, Decl.memberNames, hv, hs, Ident.name, members_struct]
      | false =>
        simp only [Decl.made, Decl.tags, Decl.memberNames, hv, hs, if_true, Bool.false_eq_true, if_false, ← hinner,
          members_struct, members_member]
        simp [Ident.name, relocate_name, Function.comp_def]
    · simp only [Decl.made, Decl.tags, Decl.memberNames, hv, if_false, members_struct, members_member]
      simp [Ident.name, declareVar_name, Function.comp_def]

theorem names_madeAll (bIsUnion : Bool) (unnamedId pos : ℕ) (ds : List Decl) :
    names (madeAll bIsUnion unnamedId pos ds) = namesAll unnamedId ds ∧
      ((madeAll bIsUnion unnamedId pos ds).filterMap Ident.member?).map (·.name) = memberNamesAll ds := by
  cases ds with
  | nil => exact ⟨rfl, rfl⟩
  | cons d ds =>
    have hd := names_made unnamedId pos d
    have hds := names_madeAll bIsUnion (d.nextId unnamedId) (if bIsUnion then 0 else pos + d.bits) ds
    simp only [madeAll, names, namesAll, memberNamesAll, List.map_append, List.filterMap_append] at *
    rw [hd.1, hd.2, hds.1, hds.2]
    exact ⟨by simp, rfl⟩

end

def idAfter (unnamedId : ℕ) : List Decl → ℕ
  | [] => unnamedId
  | d :: ds => idAfter (d.nextId unnamedId) ds

/-- What a nested struct adds besides its own identifier. -/
def nestedIdents (structName : Option Str) (vars : List VarDecl) (pos : ℕ) (tbl : List Ident) (width : ℕ) : List Ident :=
  if vars = [] then
    if structName.isSome then [] else (tbl.filterMap Ident.member?).map fun f => .member (relocate pos f)
  else vars.map fun v => .member (declareVar pos width v).1

/-- The bits that a nested struct takes. -/
def nestedBits (structName : Option Str) (vars : List VarDecl) (width : ℕ) : ℕ :=
  if vars = [] then if structName.isSome then 0 else width else (vars.map fun v => (declareVar 0 width v).2).sum

theorem parseDecl_nested (b : Body) (bIsUnion : Bool) (structName : Option Str) (decls : List Decl)
    (vars : List VarDecl) :
    parseDecl b (.nested bIsUnion structName decls vars) =
      (parseBody bIsUnion {} decls).bind fun inner =>
        ((.struct (tagName b.unnamedId structName) inner.tbl inner.maxStructBitPos ::
          nestedIdents structName vars b.structBitPos inner.tbl inner.maxStructBitPos).foldlM insertNew b.tbl).map
          fun tbl =>
            { tbl := tbl
              unnamedId := if structName.isSome then b.unnamedId else b.unnamedId + 1
              structBitPos := b.structBitPos + nestedBits structName vars inner.maxStructBitPos
              maxStructBitPos := b.maxStructBitPos } := by
  simp only [parseDecl, Option.bind_eq_bind, List.foldlM_cons]
  congr 1
  funext inner
  cases hi : insertNew b.tbl (.struct (tagName b.unnamedId structName) inner.tbl inner.maxStructBitPos) with
  | none => rfl
  | some tbl =>
    simp only [Option.bind_some]
    by_cases hv : vars = []
    · cases hs : structName.isSome with
      | true => simp [hv, hs, nestedIdents, nestedBits]
      | false =>
        simp only [hv, hs, nestedIdents, nestedBits, if_true, Bool.false_eq_true, if_false, relocateAll_eq]
        cases List.foldlM insertNew tbl
          ((inner.tbl.filterMap Ident.member?).map fun f => Ident.member (relocate b.structBitPos f)) with
        | none => rfl
        | some _ => rfl
    · simp only [hv, nestedIdents, nestedBits, if_false, declareVars_eq]
      cases List.foldlM insertNew tbl
        (vars.map fun v => Ident.member (declareVar b.structBitPos inner.maxStructBitPos v).1) with
      | none => rfl
      | some _ => simp

theorem made_nested (unnamedId pos : ℕ) (bIsUnion : Bool) (structName : Option Str) (decls : List Decl)
    (vars : List VarDecl) :
    (Decl.nested bIsUnion structName decls vars).made unnamedId pos =
      .struct (tagName unnamedId structName) (madeAll bIsUnion 0 0 decls) (bitsAll bIsUnion decls) ::
        nestedIdents structName vars pos (madeAll bIsUnion 0 0 decls) (bitsAll bIsUnion decls) := by
  rw [Decl.made]
  rfl

theorem bits_nested (bIsUnion : Bool) (structName : Option Str) (decls : List Decl) (vars : List VarDecl) :
    (Decl.nested bIsUnion structName decls vars).bits = nestedBits structName vars (bitsAll bIsUnion decls) := by
  rw [Decl.bits]
  rfl

/-- The positions at the start of a declaration. -/
def Started (bIsUnion : Bool) (structBitPos maxStructBitPos : ℕ) : Prop :=
  if bIsUnion then structBitPos = 0 else maxStructBitPos = structBitPos

theorem next_made {bIsUnion : Bool} {pos maxPos : ℕ} (tbl : List Ident) (unnamedId bits : ℕ)
    (hpos : Started bIsUnion pos maxPos) :
    Body.next bIsUnion ⟨tbl, unnamedId, pos + bits, maxPos⟩ =
      ⟨tbl, unnamedId, if bIsUnion then 0 else pos + bits, if bIsUnion then max maxPos bits else pos + bits⟩ := by
  cases bIsUnion with
  | true =>
    obtain rfl : pos = 0 := hpos
    simp only [Body.next, Nat.zero_add, if_true, Body.mk.injEq, true_and]
    rw [max_def']
    split <;> split <;> omega
  | false =>
    obtain rfl : maxPos = pos := hpos
    simp only [Body.next, Bool.false_eq_true, if_false, Body.mk.injEq, true_and]
    split <;> omega

theorem next_started (bIsUnion : Bool) (pos maxPos bits : ℕ) :
    Started bIsUnion (if bIsUnion then 0 else pos + bits) (if bIsUnion then max maxPos bits else pos + bits) := by
  cases bIsUnion <;> exact Eq.refl _

mutual

/-- **What the parser makes of a declaration**, when it reports nothing. -/
theorem parseDecl_eq_some {b r : Body} (d : Decl) (h : (names b.tbl).Nodup) :
    parseDecl b d = some r ↔ d.Accepted ∧ (names b.tbl ++ names (d.made b.unnamedId b.structBitPos)).Nodup ∧
      r = { tbl := b.tbl ++ d.made b.unnamedId b.structBitPos
            unnamedId := d.nextId b.unnamedId
            structBitPos := b.structBitPos + d.bits
            maxStructBitPos := b.maxStructBitPos } := by
  cases d with
  | fields ty ds =>
    simp only [parseDecl, declareFields_eq, Decl.Accepted, Decl.made, Decl.nextId, Decl.bits]
    by_cases hd : ∀ d ∈ ds, d.Accepted
    · rw [if_pos hd, and_iff_right hd]
      simp only [Option.bind_eq_bind, Option.bind_eq_some_iff, Option.map_eq_some_iff, foldlM_insertNew h]
      constructor
      · rintro ⟨_, ⟨_, ⟨hnd, rfl⟩, rfl⟩, hr⟩
        exact ⟨hnd, (Option.some.inj hr).symm⟩
      · rintro ⟨hnd, rfl⟩
        exact ⟨_, ⟨_, ⟨hnd, rfl⟩, rfl⟩, rfl⟩
    · rw [if_neg hd]
      exact iff_of_false (by simp) fun hr => hd hr.1
  | nested bIsUnion structName decls vars =>
    have hstart : Started bIsUnion 0 0 := by cases bIsUnion <;> exact Eq.refl _
    have hinner : ∀ r, _ ↔ _ := fun r => parseBody_eq_some (r := r) (b := {}) bIsUnion decls List.nodup_nil hstart
    have hmax : (if bIsUnion = true then max 0 (bitsAll true decls) else 0 + bitsAll false decls) =
        bitsAll bIsUnion decls := by cases bIsUnion <;> simp
    simp only [parseDecl_nested, made_nested, bits_nested, Option.bind_eq_some_iff, Option.map_eq_some_iff, hinner,
      foldlM_insertNew h, Decl.Accepted, Decl.nextId, hmax, List.nil_append, (names_madeAll bIsUnion 0 0 decls).1]
    constructor
    · rintro ⟨inner, ⟨hacc, hnames, rfl⟩, tbl, ⟨hnd, rfl⟩, rfl⟩
      exact ⟨⟨hacc, hnames⟩, hnd, rfl⟩
    · rintro ⟨⟨hacc, hnames⟩, hnd, rfl⟩
      exact ⟨_, ⟨hacc, hnames, rfl⟩, _, ⟨hnd, rfl⟩, rfl⟩

/-- **What the parser makes of the declarations of a body.** -/
theorem parseBody_eq_some {b r : Body} (bIsUnion : Bool) (ds : List Decl) (h : (names b.tbl).Nodup)
    (hpos : Started bIsUnion b.structBitPos b.maxStructBitPos) :
    parseBody bIsUnion b ds = some r ↔ AcceptedAll ds ∧
      (names b.tbl ++ names (madeAll bIsUnion b.unnamedId b.structBitPos ds)).Nodup ∧
      r = { tbl := b.tbl ++ madeAll bIsUnion b.unnamedId b.structBitPos ds
            unnamedId := idAfter b.unnamedId ds
            structBitPos := if bIsUnion then 0 else b.structBitPos + bitsAll false ds
            maxStructBitPos :=
              if bIsUnion then max b.maxStructBitPos (bitsAll true ds) else b.structBitPos + bitsAll false ds } := by
  cases ds with
  | nil =>
    obtain ⟨tbl, unnamedId, structBitPos, maxStructBitPos⟩ := b
    cases bIsUnion with
    | true =>
      obtain rfl : structBitPos = 0 := hpos
      simp [parseBody, AcceptedAll, madeAll, idAfter, bitsAll, h, eq_comm]
    | false =>
      obtain rfl : maxStructBitPos = structBitPos := hpos
      simp [parseBody, AcceptedAll, madeAll, idAfter, bitsAll, h, eq_comm]
  | cons d ds =>
    have hd : ∀ r, _ ↔ _ := fun r => parseDecl_eq_some (r := r) d h
    simp only [parseBody, Option.bind_eq_bind, Option.bind_eq_some_iff, hd, AcceptedAll, madeAll, names, List.map_append]
    constructor
    · rintro ⟨_, ⟨hacc, hnd, rfl⟩, hrest⟩
      rw [next_made _ _ _ hpos] at hrest
      obtain ⟨haccs, hnds, rfl⟩ := (parseBody_eq_some bIsUnion ds (by simpa using hnd) (next_started _ _ _ _)).1 hrest
      refine ⟨⟨hacc, haccs⟩, by simpa using hnds, ?_⟩
      cases bIsUnion <;> simp [idAfter, bitsAll, Nat.add_assoc, max_assoc]
    · rintro ⟨⟨hacc, haccs⟩, hnd, rfl⟩
      have hpre : (names b.tbl ++ names (d.made b.unnamedId b.structBitPos)).Nodup := by
        rw [← List.append_assoc] at hnd
        exact (List.nodup_append.1 hnd).1
      refine ⟨_, ⟨hacc, hpre, rfl⟩, ?_⟩
      rw [next_made _ _ _ hpos, parseBody_eq_some bIsUnion ds (by simpa using hpre) (next_started _ _ _ _)]
      refine ⟨haccs, by simpa using hnd, ?_⟩
      cases bIsUnion <;> simp [idAfter, bitsAll, Nat.add_assoc, max_assoc]

end

/-! ### When it is laid out -/

/-- Arrays have elements, bit-fields have bits. -/
def Declarator.Valid (d : Declarator) : Prop :=
  match d.suffix with
  | .none => True
  | .bits width => 0 < width
  | .array dims => ∀ n ∈ dims, 0 < n

mutual

/-- Types have bits, nested structs too. -/
def Decl.Valid : Decl → Prop
  | .fields ty ds => 0 < ty.width ∧ ∀ d ∈ ds, d.Valid
  | .nested bIsUnion _ decls vars =>
    ValidAll decls ∧ 0 < bodyWidth bIsUnion (partsAll decls) ∧ ∀ v ∈ vars, ∀ n ∈ v.dims, 0 < n

def ValidAll : List Decl → Prop
  | [] => True
  | d :: ds => d.Valid ∧ ValidAll ds

end

/-- An array of structs has one long dimension at most. -/
def Declarator.Good (ty : Ty) (d : Declarator) : Prop :=
  match d.suffix with
  | .array dims => ty.bIsStruct = true → Linear dims
  | _ => True

mutual

/-- What a declaration must be like in a struct, or in a union of `total` bits. -/
def Decl.Good (bIsUnion : Bool) (total : ℕ) : Decl → Prop
  | .fields ty ds => (∀ d ∈ ds, d.Good ty) ∧ (bIsUnion = true → ds.length ≤ 1)
  | .nested bInnerUnion _ decls vars =>
    GoodAll bInnerUnion (bodyWidth bInnerUnion (partsAll decls)) decls ∧ (∀ v ∈ vars, v.dims = []) ∧
      if bIsUnion then vars.length * bodyWidth bInnerUnion (partsAll decls) ≤ total else vars.length ≤ 1

def GoodAll (bIsUnion : Bool) (total : ℕ) : List Decl → Prop
  | [] => True
  | d :: ds => d.Good bIsUnion total ∧ GoodAll bIsUnion total ds

end

def Entry.pos : Entry → ℕ
  | .record _ _ => 0
  | .member _ pos _ _ _ => pos

/-! #### Members -/

theorem find_arrayElems {name : Str} {dims idx : List ℕ} {width pos : ℕ} (h : idx ∈ indices dims) :
    (((arrayElems name dims width pos).find? fun e => e.index = idx).bind (·.structPos)) =
      some ((pos + ArrayElems.colOffset dims idx * width : ℕ) : ℤ) := by
  have hmem : idx ∈ ArrayElems.colElems dims := ArrayElems.mem_colElems.2 (mem_indices.1 h)
  have hfind : (ArrayElems.colElems dims).find? (fun i => decide (i = idx)) = some idx := by
    rw [List.find?_eq_some_iff_append]
    obtain ⟨a, b, hab⟩ := List.append_of_mem hmem
    refine ⟨by simp, a, b, hab, ?_⟩
    intro i hi
    have hnd := ArrayElems.colElems_nodup dims
    rw [hab, List.nodup_append] at hnd
    simpa using hnd.2.2 i hi idx List.mem_cons_self
  have hcomp : ((fun e : ArrayElems.Elem => decide (e.index = idx)) ∘ fun i =>
      ArrayElems.elemAt name width pos (ArrayElems.colOffset dims i) i) = fun i => decide (i = idx) := rfl
  rw [arrayElems, List.find?_map, hcomp, hfind]
  simp only [Option.map_some, Option.bind_some, ArrayElems.elemAt, ArrayElems.newElem]
  have hpos : (0 : ℤ) ≤ (pos : ℤ) := Int.natCast_nonneg pos
  have hsum : (0 : ℤ) ≤ (pos : ℤ) + (ArrayElems.colOffset dims idx : ℤ) * (width : ℤ) :=
    Int.add_nonneg hpos (Int.mul_nonneg (Int.natCast_nonneg _) (Int.natCast_nonneg _))
  rw [if_pos hpos, if_pos hsum]
  push_cast
  rfl

/-- A member whose elements are where `InsertArrayElements` puts them. -/
structure Member.Regular (m : Member) : Prop where
  elems : m.bIsArrayIdent = true → m.elems = arrayElems m.name m.dimenList m.getWidth m.structPos
  dims : m.bIsArrayIdent = false → m.dimenList = []

theorem Member.Regular.elemPositions {m : Member} (h : m.Regular) :
    m.elemPositions = if m.type.bIsStruct ∧ m.dimenList ≠ [] then
      (indices m.dimenList).map fun idx =>
        some ((m.structPos + ArrayElems.colOffset m.dimenList idx * m.getWidth : ℕ) : ℤ)
      else [] := by
  unfold Member.elemPositions
  by_cases hs : m.type.bIsStruct ∧ m.dimenList ≠ []
  · rw [if_pos hs, if_pos hs]
    have harr : m.bIsArrayIdent = true := by
      by_contra hno
      exact hs.2 (h.dims (by simpa using hno))
    apply List.map_congr_left
    intro idx hidx
    rw [h.elems harr]
    exact find_arrayElems hidx
  · rw [if_neg hs, if_neg hs]

theorem relocate_pos (p : ℕ) (m : Member) : (relocate p m).structPos = p + m.structPos := by
  unfold relocate
  by_cases harr : m.bIsArrayIdent <;> simp [harr]

theorem relocate_type (p : ℕ) (m : Member) : (relocate p m).type = m.type := by
  unfold relocate
  by_cases harr : m.bIsArrayIdent <;> simp [harr]

theorem relocate_width (p : ℕ) (m : Member) : (relocate p m).getWidth = m.getWidth := by
  have hw : (relocate p m).width = m.getWidth := by
    unfold relocate
    by_cases harr : m.bIsArrayIdent <;> simp [harr]
  unfold Member.getWidth at hw ⊢
  rw [hw, relocate_type]
  by_cases h : 0 < m.width
  · rw [if_pos h, if_pos h]
  · rw [if_neg h, ite_self]

theorem relocate_dims (p : ℕ) {m : Member} (h : m.Regular) : (relocate p m).dimenList = m.dimenList := by
  unfold relocate
  cases harr : m.bIsArrayIdent with
  | true => simp
  | false => simp [h.dims harr]

theorem relocate_regular (p : ℕ) (m : Member) : (relocate p m).Regular := by
  cases harr : m.bIsArrayIdent with
  | true =>
    constructor
    · intro _
      rw [relocate_width]
      simp [relocate, harr]
    · simp [relocate, harr]
  | false =>
    constructor
    · simp [relocate, harr]
    · simp [relocate, harr]

/-- **The members of an unnamed struct** have their position in it behind that of the struct. -/
theorem relocate_view (p : ℕ) {m : Member} (h : m.Regular) : some (relocate p m).view = m.view.shift p := by
  have helems : (relocate p m).elemPositions = m.elemPositions.map (·.map ((p : ℤ) + ·)) := by
    rw [(relocate_regular p m).elemPositions, h.elemPositions, relocate_pos, relocate_type, relocate_dims p h,
      relocate_width]
    by_cases hs : m.type.bIsStruct ∧ m.dimenList ≠ []
    · rw [if_pos hs, if_pos hs, List.map_map]
      apply List.map_congr_left
      intro idx _
      simp [Int.add_assoc]
    · rw [if_neg hs, if_neg hs]
      rfl
  simp only [Member.view, Entry.shift, relocate_name, relocate_pos, relocate_dims p h, relocate_width, helems]

theorem viewAll_eq_map (l : List Ident) : viewAll l = l.map Ident.view := by
  induction l with
  | nil => rfl
  | cons i l ih => rw [viewAll, ih, List.map_cons]

theorem relocated_view (p : ℕ) (tbl : List Ident) (h : ∀ m ∈ tbl.filterMap Ident.member?, m.Regular) :
    viewAll ((tbl.filterMap Ident.member?).map fun f => Ident.member (relocate p f)) =
      (viewAll tbl).filterMap (Entry.shift p) := by
  induction tbl with
  | nil => rfl
  | cons i tbl ih =>
    cases i with
    | struct name inner width =>
      rw [members_struct] at h ⊢
      rw [viewAll, List.filterMap_cons_none rfl]
      exact ih h
    | member m =>
      have hcons : (Ident.member m :: tbl).filterMap Ident.member? = m :: tbl.filterMap Ident.member? :=
        List.filterMap_cons_some rfl
      rw [hcons] at h ⊢
      have hm := relocate_view p (h m List.mem_cons_self)
      rw [List.map_cons, viewAll, viewAll, Ident.view, Ident.view, List.filterMap_cons_some hm.symm]
      exact congrArg _ (ih fun f hf => h f (List.mem_cons_of_mem _ hf))

/-! #### Declarators -/

theorem count_nil : RowMajor.count [] = 1 := rfl

theorem Declarator.bits_eq (ty : Ty) (d : Declarator) : d.bits ty = (d.part ty).width := by
  obtain ⟨name, suffix⟩ := d
  cases suffix <;> simp [Declarator.bits, Declarator.part, memberPart, count_nil]

theorem Declarator.bits_pos {ty : Ty} {d : Declarator} (hty : 0 < ty.width) (h : d.Valid) : 0 < d.bits ty := by
  obtain ⟨name, suffix⟩ := d
  cases suffix with
  | none => exact hty
  | bits width => exact h
  | array dims => exact Nat.mul_pos hty (Nat.zero_lt_of_lt (offset_lt (zeros_inRange h)))

theorem Declarator.regular (ty : Ty) (pos : ℕ) (d : Declarator) : (d.member ty pos).Regular := by
  obtain ⟨name, suffix⟩ := d
  cases suffix with
  | none => constructor <;> simp [Declarator.member]
  | bits width => constructor <;> simp [Declarator.member]
  | array dims => constructor <;> simp [Declarator.member, Member.getWidth]

/-- Two elements change places in an array of structs with two long dimensions. -/
theorem elems_eq_iff {dims : List ℕ} {pos width : ℕ} (hw : 0 < width) (hd : ∀ n ∈ dims, 0 < n) :
    ((indices dims).map fun idx => some ((pos + ArrayElems.colOffset dims idx * width : ℕ) : ℤ)) =
      ((indices dims).map fun idx => some ((pos + offset dims idx * width : ℕ) : ℤ)) ↔ Linear dims := by
  rw [List.map_inj_left]
  constructor
  · intro h
    by_contra hl
    obtain ⟨idx, hidx, hne⟩ := ArrayElems.exists_colOffset_ne hd hl
    have hmul := h idx (mem_indices.2 hidx)
    rw [Option.some.injEq, Nat.cast_inj, Nat.add_left_cancel_iff] at hmul
    exact hne (Nat.eq_of_mul_eq_mul_right hw hmul)
  · intro hl idx hidx
    rw [ArrayElems.colOffset_eq hd hl (mem_indices.1 hidx)]

/-- **One member.** -/
theorem Declarator.view_iff {ty : Ty} {pos : ℕ} {d : Declarator} (hty : 0 < ty.width) (h : d.Valid) :
    [(d.member ty pos).view] = (d.part ty).place pos ↔ d.Good ty := by
  have helems := (d.regular ty pos).elemPositions
  obtain ⟨name, suffix⟩ := d
  cases suffix with
  | none =>
    simp only [Member.view, helems]
    simp [Declarator.member, Declarator.part, memberPart, Declarator.Good, Member.getWidth, elemsAt, hty]
  | bits width =>
    have hwidth : 0 < width := h
    simp only [Member.view, helems]
    simp [Declarator.member, Declarator.part, memberPart, Declarator.Good, Member.getWidth, elemsAt, hwidth]
  | array dims =>
    have hgetWidth : ((Declarator.mk name (.array dims)).member ty pos).getWidth = ty.width := by
      simp [Declarator.member, Member.getWidth]
    have hview : [((Declarator.mk name (.array dims)).member ty pos).view] =
          ((Declarator.mk name (.array dims)).part ty).place pos ↔
        ((Declarator.mk name (.array dims)).member ty pos).elemPositions = elemsAt ty dims pos := by
      constructor
      · intro hv
        exact (Entry.member.inj (List.cons.inj hv).1).2.2.2.2
      · intro he
        rw [Member.view, he, hgetWidth]
        rfl
    rw [hview]
    by_cases hs : ty.bIsStruct ∧ dims ≠ []
    · have hmade := helems.trans (if_pos hs)
      have hright : elemsAt ty dims pos = _ := if_pos hs
      rw [hmade, hright, hgetWidth]
      exact (elems_eq_iff hty h).trans ⟨fun hl _ => hl, fun hl => hl hs.1⟩
    · have hmade := helems.trans (if_neg hs)
      have hright : elemsAt ty dims pos = [] := if_neg hs
      rw [hmade, hright]
      refine iff_of_true rfl fun hstruct => ?_
      have hnil : dims = [] := by
        by_contra hne
        exact hs ⟨hstruct, hne⟩
      rw [hnil]
      exact Nat.zero_le 1

theorem part_place_length (ty : Ty) (d : Declarator) (p : ℕ) : ((d.part ty).place p).length = 1 := by
  obtain ⟨name, suffix⟩ := d
  cases suffix <;> rfl

theorem fields_bits (ty : Ty) (ds : List Declarator) :
    (ds.map (Declarator.bits ty)).sum = rowWidth (ds.map (Declarator.part ty)) := by
  rw [rowWidth, List.map_map]
  exact congrArg List.sum (List.map_congr_left fun d _ => d.bits_eq ty)

/-- **A declaration in a struct.** -/
theorem fields_row_iff {ty : Ty} {pos : ℕ} {ds : List Declarator} (hty : 0 < ty.width) (h : ∀ d ∈ ds, d.Valid) :
    viewAll (madeFields ty pos ds) = row pos (ds.map (Declarator.part ty)) ↔ ∀ d ∈ ds, d.Good ty := by
  induction ds generalizing pos with
  | nil => simp [madeFields, viewAll, row]
  | cons d ds ih =>
    obtain ⟨hd, hds⟩ := List.forall_mem_cons.1 h
    have hcons : viewAll (madeFields ty pos (d :: ds)) =
        [(d.member ty pos).view] ++ viewAll (madeFields ty (pos + d.bits ty) ds) := rfl
    have hlen : [(d.member ty pos).view].length = ((d.part ty).place pos).length := by rw [part_place_length]; rfl
    rw [hcons, List.map_cons, row, ← Declarator.bits_eq, List.append_eq_append_iff_of_size_eq_left hlen,
      Declarator.view_iff hty hd, ih hds, List.forall_mem_cons]

theorem part_pos (ty : Ty) (d : Declarator) (p : ℕ) : ∃ w dims elems, (d.part ty).place p = [.member d.name p w dims elems] := by
  obtain ⟨name, suffix⟩ := d
  cases suffix <;> exact ⟨_, _, _, rfl⟩

theorem member_pos (ty : Ty) (pos : ℕ) (d : Declarator) : (d.member ty pos).structPos = pos := by
  obtain ⟨name, suffix⟩ := d
  cases suffix <;> rfl

/-- **A declaration in a union**: the position goes on from one declarator to the next. -/
theorem fields_over_iff {ty : Ty} {total : ℕ} {ds : List Declarator} (hty : 0 < ty.width) (h : ∀ d ∈ ds, d.Valid)
    (htotal : overWidth (ds.map (Declarator.part ty)) ≤ total) :
    viewAll (madeFields ty 0 ds) = overlaid (ds.map (Declarator.part ty)) ∧ (ds.map (Declarator.bits ty)).sum ≤ total ↔
      (∀ d ∈ ds, d.Good ty) ∧ ds.length ≤ 1 := by
  cases ds with
  | nil => simp [madeFields, viewAll, overlaid]
  | cons d ds =>
    cases ds with
    | nil =>
      have hd := h d List.mem_cons_self
      have hbits : d.bits ty ≤ total := by
        rw [Declarator.bits_eq]
        exact overWidth_le_iff.1 htotal _ List.mem_cons_self
      have hview : [(d.member ty 0).view] = (d.part ty).place 0 ↔ d.Good ty := Declarator.view_iff hty hd
      simpa [madeFields, viewAll, overlaid, Ident.view, hbits] using hview
    | cons e ds =>
      refine iff_of_false (fun hall => ?_) fun hall => absurd hall.2 (by simp)
      obtain ⟨w, dims, elems, hplace⟩ := part_pos ty e 0
      obtain ⟨w', dims', elems', hplace'⟩ := part_pos ty d 0
      have hpos := Declarator.bits_pos hty (h d List.mem_cons_self)
      have hsecond := congrArg (fun l => (l.map Entry.pos)[1]?) hall.1
      simp [madeFields, viewAll, overlaid, hplace, hplace', Ident.view, Member.view, Entry.pos, member_pos] at hsecond
      omega

/-! #### Variables of a nested struct -/

theorem var_view_iff {pos width : ℕ} {v : VarDecl} (hw : 0 < width) (hd : ∀ n ∈ v.dims, 0 < n) :
    [(declareVar pos width v).1.view] = (memberPart v.name ⟨width, true⟩ width v.dims).place pos ↔ v.dims = [] := by
  by_cases hv : v.dims = []
  · refine iff_of_true ?_ hv
    simp [declareVar, hv, Member.view, memberPart, Member.getWidth, hw, Member.elemPositions, elemsAt]
  · -- An array of structs has no elements.
    refine iff_of_false (fun heq => ?_) hv
    have helems := (Entry.member.inj (List.cons.inj heq).1).2.2.2.2
    have hidx : zeros v.dims ∈ indices v.dims := mem_indices.2 (zeros_inRange hd)
    obtain ⟨a, b, hab⟩ := List.append_of_mem hidx
    have hhead := congrArg (fun l => l[a.length]?) helems
    simp [declareVar, hv, Member.elemPositions, elemsAt, hab] at hhead

theorem vars_row_iff {pos width : ℕ} {vs : List VarDecl} (hw : 0 < width) (hd : ∀ v ∈ vs, ∀ n ∈ v.dims, 0 < n) :
    viewAll (vs.map fun v => Ident.member (declareVar pos width v).1) =
        row pos (vs.map fun v => memberPart v.name ⟨width, true⟩ width v.dims) ↔
      (∀ v ∈ vs, v.dims = []) ∧ vs.length ≤ 1 := by
  cases vs with
  | nil => simp [viewAll, row]
  | cons v vs =>
    have hdv := hd v List.mem_cons_self
    cases vs with
    | nil => simpa [viewAll, row, Ident.view] using var_view_iff hw hdv
    | cons u vs =>
      -- The second variable starts where the first one does.
      refine iff_of_false (fun heq => ?_) fun hall => absurd hall.2 (by simp)
      have hcount : 0 < RowMajor.count v.dims := Nat.zero_lt_of_lt (offset_lt (zeros_inRange hdv))
      have hsize : 0 < width * RowMajor.count v.dims := Nat.mul_pos hw hcount
      have hle : (declareVar pos width u).1.structPos ≤ pos := by
        unfold declareVar
        by_cases hu : u.dims = [] <;> simp [hu]
      have hsecond := congrArg (fun l => (l.map Entry.pos)[1]?) heq
      simp [viewAll, row, Ident.view, Member.view, memberPart, Entry.pos] at hsecond
      omega

theorem vars_over_iff {width total : ℕ} {vs : List VarDecl} (hw : 0 < width) (hd : ∀ v ∈ vs, ∀ n ∈ v.dims, 0 < n) :
    viewAll (vs.map fun v => Ident.member (declareVar 0 width v).1) =
          overlaid (vs.map fun v => memberPart v.name ⟨width, true⟩ width v.dims) ∧
        (vs.map fun v => (declareVar 0 width v).2).sum ≤ total ↔
      (∀ v ∈ vs, v.dims = []) ∧ vs.length * width ≤ total := by
  have hviews : viewAll (vs.map fun v => Ident.member (declareVar 0 width v).1) =
      overlaid (vs.map fun v => memberPart v.name ⟨width, true⟩ width v.dims) ↔ ∀ v ∈ vs, v.dims = [] := by
    clear total
    induction vs with
    | nil => simp [viewAll, overlaid]
    | cons v vs ih =>
      obtain ⟨hdv, hdvs⟩ := List.forall_mem_cons.1 hd
      have hlen : [(declareVar 0 width v).1.view].length =
        ((memberPart v.name ⟨width, true⟩ width v.dims).place 0).length := rfl
      rw [List.forall_mem_cons, ← ih hdvs, ← var_view_iff hw hdv, ← List.append_eq_append_iff_of_size_eq_left hlen]
      rfl
  rw [hviews]
  refine and_congr_right fun hall => ?_
  have hsum : (vs.map fun v => (declareVar 0 width v).2).sum = vs.length * width := by
    rw [List.map_congr_left (g := fun _ => width) fun v hv => by simp [declareVar, hall v hv]]
    simp
  rw [hsum]

/-! #### The same entries -/

def Entry.name? : Entry → Option Str
  | .record _ _ => none
  | .member name _ _ _ _ => some name

theorem shift_name (p : ℕ) (e : Entry) : (e.shift p).map Entry.name? = e.name?.map some := by
  cases e <;> rfl

/-- The entries that a declaration adds: a struct, and members. -/
def Decl.shape (d : Decl) : List (Option Str) := (d.tags 0).map (fun _ => none) ++ d.memberNames.map some

def shapeAll (ds : List Decl) : List (Option Str) := ds.flatMap Decl.shape

theorem shapeAll_names (ds : List Decl) : (shapeAll ds).filterMap id = memberNamesAll ds := by
  induction ds with
  | nil => rfl
  | cons d ds ih =>
    rw [shapeAll, List.flatMap_cons, List.filterMap_append, memberNamesAll]
    have hd : d.shape.filterMap id = d.memberNames := by
      cases d <;> simp [Decl.shape, Decl.tags, List.filterMap_map]
    rw [hd]
    exact congrArg _ ih

/-- The names of the entries do not depend on the position. -/
def Shaped (l : List (Piece Entry)) (ns : List (Option Str)) : Prop :=
  (∀ p, (row p l).map Entry.name? = ns) ∧ (overlaid l).map Entry.name? = ns

theorem shaped_one {i : Piece Entry} {ns : List (Option Str)} (h : ∀ p, (i.place p).map Entry.name? = ns) :
    Shaped [i] ns := by
  constructor
  · intro p
    simpa [row] using h p
  · simpa [overlaid] using h 0

theorem Shaped.append {l k : List (Piece Entry)} {ns ms : List (Option Str)} (hl : Shaped l ns) (hk : Shaped k ms) :
    Shaped (l ++ k) (ns ++ ms) := by
  constructor
  · intro p
    rw [row_append, List.map_append, hl.1, hk.1]
  · rw [overlaid_append, List.map_append, hl.2, hk.2]

theorem shaped_nil : Shaped [] [] := ⟨fun _ => rfl, rfl⟩

theorem Shaped.cons {i : Piece Entry} {k : List (Piece Entry)} {ns ms : List (Option Str)}
    (h : ∀ p, (i.place p).map Entry.name? = ns) (hk : Shaped k ms) : Shaped (i :: k) (ns ++ ms) :=
  (shaped_one h).append hk

theorem shaped_map {α : Type} {g : α → Piece Entry} {name : α → Str}
    (h : ∀ a p, ((g a).place p).map Entry.name? = [some (name a)]) (l : List α) :
    Shaped (l.map g) ((l.map name).map some) := by
  induction l with
  | nil => exact shaped_nil
  | cons a l ih => exact ih.cons (h a)

mutual

theorem parts_shape (d : Decl) : Shaped d.parts d.shape := by
  cases d with
  | fields ty ds =>
    refine shaped_map (fun d p => ?_) ds
    obtain ⟨w, dims, elems, hplace⟩ := part_pos ty d p
    rw [hplace]
    rfl
  | nested bIsUnion structName decls vars =>
    have hinner := partsAll_shape decls
    have hrecord : ∀ p : ℕ, ([Entry.record (bodyWidth bIsUnion (partsAll decls)) (bodyEntries bIsUnion (partsAll decls))].map
        Entry.name?) = [none] := fun p => rfl
    refine Shaped.cons hrecord ?_
    rw [Decl.memberNames]
    by_cases hv : vars = []
    · rw [if_pos hv, if_pos hv]
      cases structName with
      | some s => exact shaped_nil
      | none =>
        refine shaped_one fun p => ?_
        have hbody : (bodyEntries bIsUnion (partsAll decls)).map Entry.name? = shapeAll decls := by
          cases bIsUnion with
          | true => exact hinner.2
          | false => exact hinner.1 0
        have hshift : ((bodyEntries bIsUnion (partsAll decls)).filterMap (Entry.shift p)).map Entry.name? =
            (((bodyEntries bIsUnion (partsAll decls)).map Entry.name?).filterMap id).map some := by
          rw [List.map_filterMap, List.filterMap_map, List.map_filterMap]
          exact List.filterMap_congr fun e _ => shift_name p e
        rw [hshift, hbody, shapeAll_names]
        rfl
    · rw [if_neg hv, if_neg hv]
      exact shaped_map (fun v p => rfl) vars

theorem partsAll_shape (ds : List Decl) : Shaped (partsAll ds) (shapeAll ds) := by
  cases ds with
  | nil => exact shaped_nil
  | cons d ds => exact (parts_shape d).append (partsAll_shape ds)

end

theorem made_length (unnamedId pos : ℕ) (d : Decl) : (viewAll (d.made unnamedId pos)).length = d.shape.length := by
  have hnames := congrArg List.length (names_made unnamedId pos d).1
  rw [viewAll_eq_map, List.length_map]
  simp only [names, List.length_map, List.length_append, Decl.shape] at hnames ⊢
  rw [hnames]
  cases d <;> rfl

theorem row_length (p : ℕ) (d : Decl) : (row p d.parts).length = d.shape.length := by
  rw [← (parts_shape d).1 p, List.length_map]

theorem overlaid_length (d : Decl) : (overlaid d.parts).length = d.shape.length := by
  rw [← (parts_shape d).2, List.length_map]

/-! #### Declarations -/

/-- The members that a good declaration makes are regular. -/
theorem regular_made (unnamedId pos : ℕ) {bIsUnion : Bool} {total : ℕ} {d : Decl} (h : d.Good bIsUnion total) :
    ∀ m ∈ (d.made unnamedId pos).filterMap Ident.member?, m.Regular := by
  cases d with
  | fields ty ds =>
    rw [Decl.made]
    clear h
    induction ds generalizing pos with
    | nil => simp [madeFields]
    | cons d ds ih =>
      have hcons : (madeFields ty pos (d :: ds)).filterMap Ident.member? =
        d.member ty pos :: (madeFields ty (pos + d.bits ty) ds).filterMap Ident.member? := List.filterMap_cons_some rfl
      rw [hcons]
      exact List.forall_mem_cons.2 ⟨d.regular ty pos, ih _⟩
  | nested bInnerUnion structName decls vars =>
    rw [made_nested, members_struct, nestedIdents]
    by_cases hv : vars = []
    · rw [if_pos hv]
      cases structName with
      | some s => simp
      | none =>
        simp only [Option.isSome_none, Bool.false_eq_true, if_false, members_member, List.mem_map]
        rintro m ⟨f, -, rfl⟩
        exact relocate_regular pos f
    · rw [if_neg hv, members_member]
      simp only [List.mem_map]
      rintro m ⟨v, hv, rfl⟩
      rw [Decl.Good] at h
      have hdims := h.2.1 v hv
      constructor <;> simp [declareVar, hdims]

theorem regular_madeAll (bMadeUnion : Bool) (unnamedId pos : ℕ) {bIsUnion : Bool} {total : ℕ} {ds : List Decl}
    (h : GoodAll bIsUnion total ds) :
    ∀ m ∈ (madeAll bMadeUnion unnamedId pos ds).filterMap Ident.member?, m.Regular := by
  induction ds generalizing unnamedId pos with
  | nil => simp [madeAll]
  | cons d ds ih =>
    rw [madeAll, List.filterMap_append, List.forall_mem_append]
    exact ⟨regular_made unnamedId pos h.1, ih _ _ h.2⟩

theorem viewAll_append (l k : List Ident) : viewAll (l ++ k) = viewAll l ++ viewAll k := by
  simp [viewAll_eq_map]

theorem rowWidth_cons (i : Piece Entry) (l : List (Piece Entry)) : rowWidth (i :: l) = i.width + rowWidth l := by
  simp [rowWidth]

theorem overWidth_cons (i : Piece Entry) (l : List (Piece Entry)) : overWidth (i :: l) = max i.width (overWidth l) := rfl

/-- What a nested struct adds besides its own identifier, as parts. -/
def nestedParts (structName : Option Str) (vars : List VarDecl) (width : ℕ) (entries : List Entry) : List (Piece Entry) :=
  if vars = [] then
    if structName.isSome then [] else [⟨width, fun p => entries.filterMap (Entry.shift p)⟩]
  else vars.map fun v => memberPart v.name ⟨width, true⟩ width v.dims

theorem parts_nested (bIsUnion : Bool) (structName : Option Str) (decls : List Decl) (vars : List VarDecl) :
    (Decl.nested bIsUnion structName decls vars).parts =
      ⟨0, fun _ => [.record (bodyWidth bIsUnion (partsAll decls)) (bodyEntries bIsUnion (partsAll decls))]⟩ ::
        nestedParts structName vars (bodyWidth bIsUnion (partsAll decls)) (bodyEntries bIsUnion (partsAll decls)) := by
  rw [Decl.parts]
  rfl

section Nested

variable {structName : Option Str} {vars : List VarDecl} {tbl : List Ident} {width : ℕ}

/-- **A nested struct in a struct**, when the nested one is laid out. -/
theorem nested_row_iff (pos : ℕ) (hreg : ∀ m ∈ tbl.filterMap Ident.member?, m.Regular) (hw : 0 < width)
    (hd : ∀ v ∈ vars, ∀ n ∈ v.dims, 0 < n) :
    viewAll (nestedIdents structName vars pos tbl width) = row pos (nestedParts structName vars width (viewAll tbl)) ↔
      (∀ v ∈ vars, v.dims = []) ∧ vars.length ≤ 1 := by
  unfold nestedIdents nestedParts
  by_cases hv : vars = []
  · rw [if_pos hv, if_pos hv]
    refine iff_of_true ?_ (by simp [hv])
    cases structName with
    | some s => rfl
    | none =>
      simp only [Option.isSome_none, Bool.false_eq_true, if_false, row, List.append_nil]
      exact relocated_view pos tbl hreg
  · rw [if_neg hv, if_neg hv]
    exact vars_row_iff hw hd

/-- **A nested struct in a union.** -/
theorem nested_over_iff {total : ℕ} (hreg : ∀ m ∈ tbl.filterMap Ident.member?, m.Regular) (hw : 0 < width)
    (hd : ∀ v ∈ vars, ∀ n ∈ v.dims, 0 < n)
    (htotal : overWidth (nestedParts structName vars width (viewAll tbl)) ≤ total) :
    viewAll (nestedIdents structName vars 0 tbl width) = overlaid (nestedParts structName vars width (viewAll tbl)) ∧
        nestedBits structName vars width ≤ total ↔
      (∀ v ∈ vars, v.dims = []) ∧ vars.length * width ≤ total := by
  unfold nestedIdents nestedParts nestedBits at *
  by_cases hv : vars = []
  · rw [if_pos hv] at htotal ⊢
    rw [if_pos hv, if_pos hv]
    refine iff_of_true ?_ (by simp [hv])
    cases structName with
    | some s => exact ⟨rfl, Nat.zero_le _⟩
    | none =>
      simp only [Option.isSome_none, Bool.false_eq_true, if_false] at htotal ⊢
      refine ⟨?_, overWidth_le_iff.1 htotal _ List.mem_cons_self⟩
      simpa [overlaid] using relocated_view 0 tbl hreg
  · rw [if_neg hv, if_neg hv, if_neg hv]
    exact vars_over_iff hw hd

/-- The bits that a nested struct returns are those of its parts. -/
theorem nested_bits (entries : List Entry) (hdims : ∀ v ∈ vars, v.dims = []) :
    nestedBits structName vars width = rowWidth (nestedParts structName vars width entries) := by
  unfold nestedBits nestedParts
  by_cases hv : vars = []
  · rw [if_pos hv, if_pos hv]
    cases structName <;> simp [rowWidth]
  · rw [if_neg hv, if_neg hv, rowWidth, List.map_map]
    refine congrArg List.sum (List.map_congr_left fun v hv => ?_)
    simp [declareVar, memberPart, hdims v hv, count_nil]

end Nested

theorem overWidth_le_rowWidth (l : List (Piece Entry)) : overWidth l ≤ rowWidth l := by
  induction l with
  | nil => exact Nat.le_refl 0
  | cons i l ih =>
    rw [overWidth_cons, rowWidth_cons]
    omega

/-- A declaration makes its entries when it is good, in a struct and in a union. -/
structure Decl.Made (d : Decl) : Prop where
  row : ∀ unnamedId pos total, viewAll (d.made unnamedId pos) = Overlay.row pos d.parts ↔ d.Good false total
  rowBits : ∀ total, d.Good false total → d.bits = rowWidth d.parts
  overlaid : ∀ unnamedId total, overWidth d.parts ≤ total →
    (viewAll (d.made unnamedId 0) = Overlay.overlaid d.parts ∧ d.bits ≤ total ↔ d.Good true total)
  overBits : ∀ total, d.Good true total → overWidth d.parts ≤ d.bits

/-- The same for the declarations of a body. -/
structure MadeAll (ds : List Decl) : Prop where
  row : ∀ unnamedId pos total,
    viewAll (madeAll false unnamedId pos ds) = Overlay.row pos (partsAll ds) ↔ GoodAll false total ds
  rowBits : ∀ total, GoodAll false total ds → bitsAll false ds = rowWidth (partsAll ds)
  overlaid : ∀ unnamedId total, overWidth (partsAll ds) ≤ total →
    (viewAll (madeAll true unnamedId 0 ds) = Overlay.overlaid (partsAll ds) ∧ bitsAll true ds ≤ total ↔ GoodAll true total ds)
  overBits : ∀ total, GoodAll true total ds → overWidth (partsAll ds) ≤ bitsAll true ds

/-- **The body of a struct or a union.** -/
theorem MadeAll.body {ds : List Decl} (h : MadeAll ds) (bIsUnion : Bool) :
    viewAll (madeAll bIsUnion 0 0 ds) = bodyEntries bIsUnion (partsAll ds) ∧
        bitsAll bIsUnion ds = bodyWidth bIsUnion (partsAll ds) ↔
      GoodAll bIsUnion (bodyWidth bIsUnion (partsAll ds)) ds := by
  cases bIsUnion with
  | false =>
    have hview := h.row 0 0 (bodyWidth false (partsAll ds))
    exact ⟨fun hall => hview.1 hall.1, fun hgood => ⟨hview.2 hgood, h.rowBits _ hgood⟩⟩
  | true =>
    have hview := h.overlaid 0 (bodyWidth true (partsAll ds)) le_rfl
    exact ⟨fun hall => hview.1 ⟨hall.1, hall.2.le⟩, fun hgood =>
      ⟨(hview.2 hgood).1, le_antisymm (hview.2 hgood).2 (h.overBits _ hgood)⟩⟩

theorem made_fields {ty : Ty} {ds : List Declarator} (h : (Decl.fields ty ds).Valid) : (Decl.fields ty ds).Made := by
  rw [Decl.Valid] at h
  constructor
  · intro unnamedId pos total
    rw [Decl.made, Decl.parts, Decl.Good, fields_row_iff h.1 h.2]
    simp
  · intro total _
    rw [Decl.bits, Decl.parts]
    exact fields_bits ty ds
  · intro unnamedId total htotal
    rw [Decl.parts] at htotal ⊢
    rw [Decl.made, Decl.Good, Decl.bits, fields_over_iff h.1 h.2 htotal]
    simp
  · intro total _
    rw [Decl.bits, Decl.parts, fields_bits]
    exact overWidth_le_rowWidth _

theorem made_nestedDecl {bInnerUnion : Bool} {structName : Option Str} {decls : List Decl} {vars : List VarDecl}
    (h : (Decl.nested bInnerUnion structName decls vars).Valid) (hdecls : MadeAll decls) :
    (Decl.nested bInnerUnion structName decls vars).Made := by
  rw [Decl.Valid] at h
  obtain ⟨-, hw, hd⟩ := h
  have hbody := hdecls.body bInnerUnion
  have hbits : ∀ {bIsUnion total}, (Decl.nested bInnerUnion structName decls vars).Good bIsUnion total →
      (Decl.nested bInnerUnion structName decls vars).bits =
        rowWidth (Decl.nested bInnerUnion structName decls vars).parts := by
    intro bIsUnion total hgood
    rw [Decl.Good] at hgood
    rw [bits_nested, parts_nested, rowWidth_cons, Nat.zero_add, (hbody.2 hgood.1).2]
    exact nested_bits _ hgood.2.1
  constructor
  · intro unnamedId pos total
    rw [made_nested, parts_nested, viewAll, Ident.view, row, List.singleton_append, List.cons.injEq,
      Entry.record.injEq, Decl.Good, and_comm (a := bitsAll bInnerUnion decls = _), hbody, Nat.add_zero]
    refine and_congr_right fun hgood => ?_
    obtain ⟨hview, hwidth⟩ := hbody.2 hgood
    rw [hwidth, ← hview]
    exact nested_row_iff pos (regular_madeAll _ _ _ hgood) hw hd
  · intro total hgood
    exact hbits hgood
  · intro unnamedId total htotal
    rw [parts_nested, overWidth_cons] at htotal
    rw [made_nested, parts_nested, bits_nested, viewAll, Ident.view, overlaid, List.flatMap_cons, List.singleton_append,
      List.cons.injEq, Entry.record.injEq, Decl.Good, and_assoc, and_comm (a := bitsAll bInnerUnion decls = _), hbody]
    refine and_congr_right fun hgood => ?_
    obtain ⟨hview, hwidth⟩ := hbody.2 hgood
    rw [hwidth, ← hview]
    rw [← hview] at htotal
    exact nested_over_iff (regular_madeAll _ _ _ hgood) hw hd ((le_max_right _ _).trans htotal)
  · intro total hgood
    rw [hbits hgood]
    exact overWidth_le_rowWidth _

theorem madeAll_nil : MadeAll [] := by
  constructor <;> simp [madeAll, viewAll, partsAll, row, overlaid, GoodAll, bitsAll, rowWidth, overWidth]

theorem madeAll_cons {d : Decl} {ds : List Decl} (hd : d.Made) (hds : MadeAll ds) : MadeAll (d :: ds) := by
  constructor
  · intro unnamedId pos total
    have hlen : (viewAll (d.made unnamedId pos)).length = (row pos d.parts).length := by
      rw [made_length, row_length]
    rw [madeAll, partsAll, viewAll_append, row_append, List.append_eq_append_iff_of_size_eq_left hlen,
      hd.row unnamedId pos total, GoodAll]
    refine and_congr_right fun hgood => ?_
    -- The bits of a good declaration are those of its parts, so the rest starts where it should.
    rw [if_neg Bool.false_ne_true, hd.rowBits total hgood]
    exact hds.row _ _ total
  · rintro total ⟨hgood, hgoods⟩
    rw [bitsAll, partsAll, rowWidth_append, hd.rowBits total hgood, hds.rowBits total hgoods]
    rfl
  · intro unnamedId total htotal
    rw [partsAll, overWidth_append, max_le_iff] at htotal
    have hlen : (viewAll (d.made unnamedId 0)).length = (overlaid d.parts).length := by
      rw [made_length, overlaid_length]
    rw [madeAll, partsAll, viewAll_append, overlaid_append, List.append_eq_append_iff_of_size_eq_left hlen, bitsAll,
      if_pos rfl, if_pos rfl, max_le_iff, GoodAll, ← hd.overlaid unnamedId total htotal.1, ← hds.overlaid _ total htotal.2]
    exact and_and_and_comm
  · rintro total ⟨hgood, hgoods⟩
    rw [bitsAll, partsAll, overWidth_append, if_pos rfl]
    exact max_le_max (hd.overBits total hgood) (hds.overBits total hgoods)

mutual

theorem Decl.Valid.made {d : Decl} (h : d.Valid) : d.Made := by
  cases d with
  | fields ty ds => exact made_fields h
  | nested bInnerUnion structName decls vars =>
    have hdecls := h
    rw [Decl.Valid] at hdecls
    exact made_nestedDecl h (ValidAll.made hdecls.1)

theorem ValidAll.made {ds : List Decl} (h : ValidAll ds) : MadeAll ds := by
  cases ds with
  | nil => exact madeAll_nil
  | cons d ds => exact madeAll_cons (Decl.Valid.made h.1) (ValidAll.made h.2)

end

/-- **When a struct or a union is laid out.** A declaration in a union has one declarator, a nested struct has one variable
and no array of variables (in a union, variables that fit side by side), and an array of structs is a line. -/
theorem laysOut_iff (bIsUnion : Bool) (decls : List Decl) (h : ValidAll decls) :
    LaidOut bIsUnion decls ↔ AcceptedAll decls ∧ (namesAll 0 decls).Nodup ∧
      GoodAll bIsUnion (bodyWidth bIsUnion (partsAll decls)) decls := by
  have hstart : Started bIsUnion 0 0 := by cases bIsUnion <;> exact Eq.refl _
  have hparse : ∀ r, _ ↔ _ := fun r => parseBody_eq_some (r := r) (b := {}) bIsUnion decls List.nodup_nil hstart
  have hmax : (if bIsUnion = true then max 0 (bitsAll true decls) else 0 + bitsAll false decls) =
      bitsAll bIsUnion decls := by cases bIsUnion <;> simp
  simp only [LaidOut, hparse, hmax, List.map_nil, List.nil_append, (names_madeAll bIsUnion 0 0 decls).1,
    ← h.made.body bIsUnion]
  constructor
  · rintro ⟨b, ⟨hacc, hnd, rfl⟩, hview, hwidth⟩
    exact ⟨hacc, hnd, hview, hwidth⟩
  · rintro ⟨hacc, hnd, hview, hwidth⟩
    exact ⟨_, ⟨hacc, hnd, rfl⟩, hview, hwidth⟩

/-- **Members of a laid out struct are apart**, in the order of their declarations and without gaps. -/
theorem LaidOut.apart {decls : List Decl} (h : LaidOut false decls) :
    ∃ b, parseBody false {} decls = some b ∧
      viewAll b.tbl = (starts 0 (partsAll decls)).flatMap (fun s => s.2.place s.1) ∧
      (starts 0 (partsAll decls)).Pairwise (fun s t => s.1 + s.2.width ≤ t.1) ∧
      (starts 0 (partsAll decls)).IsChain fun s t => t.1 = s.1 + s.2.width := by
  obtain ⟨b, hparse, hview, -⟩ := h
  exact ⟨b, hparse, hview.trans row_eq, starts_pairwise, starts_chain⟩

/-- `int a, b; unsigned f : 3; struct { char c[2]; union { int x; short y; }; };` in a struct. -/
theorem laidOut_demo :
    LaidOut false
      [.fields ⟨32, false⟩ [⟨['a'], .none⟩, ⟨['b'], .none⟩], .fields ⟨32, false⟩ [⟨['f'], .bits 3⟩],
        .nested false none
          [.fields ⟨8, false⟩ [⟨['c'], .array [2]⟩],
            .nested true none [.fields ⟨32, false⟩ [⟨['x'], .none⟩], .fields ⟨16, false⟩ [⟨['y'], .none⟩]] []] []] := by
  refine (laysOut_iff false _ ?_).2 ⟨?_, ?_, ?_⟩
  · simp [ValidAll, Decl.Valid, Declarator.Valid, bodyWidth, partsAll, Decl.parts, rowWidth, overWidth, Declarator.part,
      memberPart, RowMajor.count]
  · simp [AcceptedAll, Decl.Accepted, Declarator.Accepted, namesAll, Decl.tags, Decl.memberNames, memberNamesAll, tagName]
  · simp [namesAll, Decl.tags, Decl.memberNames, memberNamesAll, tagName, Decl.nextId]
  · simp [GoodAll, Decl.Good, Declarator.Good]

/-- `union { int a, b; }`: `b` is behind `a`, and the union has 64 bits. -/
theorem union_declarators_apart :
    ¬LaidOut true [.fields ⟨32, false⟩ [⟨['a'], .none⟩, ⟨['b'], .none⟩]] := by
  rintro ⟨b, hparse, -, hwidth⟩
  have hb : b.maxStructBitPos = 64 := by
    simp [parseBody, parseDecl, declareFields, declMember, insertNew, Ident.name, Body.next] at hparse
    rw [← hparse]
  rw [hb] at hwidth
  simp [bodyWidth, partsAll, Decl.parts, overWidth, Declarator.part, memberPart, RowMajor.count] at hwidth

end OpenHT.Htfe.StructDecl
