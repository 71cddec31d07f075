import OpenHT.Htl.Token
import OpenHT.Lib.CInt
import Mathlib.Data.List.DropRight
import Mathlib.Data.List.TakeWhile

/-!
# Paths of message interfaces

`CMsgIntfPath` is built from the unit and the path of a parameter of the hti file. The path is read from its end: up to
two interface indices, the name of the interface, a replication index, and the path of the module.

* `callerPath`, `cMsgIntfPath`: what the callers do to a path, and the constructor.
* `Components`: a unit and a path with their texts.
* `UnitOpen`, `UnitLoose`, `PathBare`, `PathLoose`: the texts that the constructor reads out of, and those that it has
  no error for.
* `getIdx_cases`, `parsePath_components`: one index, and the path of some components.
* `parses_back_iff`: the parameters that are read right.
-/

namespace OpenHT.Htl.MsgPath

open CInt

inductive Msg
  /-- "illegal unit index syntax" -/
  | unitIndex
  /-- "illegal syntax for message interface index" -/
  | intfIndex
  /-- "illegal syntax for message interface name" -/
  | intfName
  /-- "illegal syntax for module replication index" -/
  | replIndex
  /-- "illegal syntax for module path" -/
  | modulePath
deriving DecidableEq, Repr

/-- What the constructor stores; after an error some fields are not set. -/
structure CMsgIntfPath where
  unitName : Text
  unitIdx : Int
  instPath : Text := []
  replIdx : Int := 0
  msgIntfName : Text := []
  msgIntfIdx : List Int := []
deriving DecidableEq, Repr

/-! ## Numbers -/

/-- `isspace` -/
def isSpace (c : Char) : Bool := c = ' ' || 9 ≤ c.toNat && c.toNat ≤ 13

/-- A `long` as an `int`. -/
def toInt (x : Int) : Int := IntType.int32.wrap x

/-- The digits as `strtol` reads them, up to the largest `long`. -/
def longValue (ds : Text) : Int := (min (Nat.ofDigitChars 10 ds 0) 9223372036854775807 : ℕ)

/-- A sign, and the text after it. -/
def takeSign : Text → Bool × Text
  | '+' :: s => (false, s)
  | '-' :: s => (true, s)
  | s => (false, s)

/-- `strtol` in base 10: the value and `pEnd`, which is `pStr` if there is no number. -/
def strtol (s : Text) : Int × Text :=
  let (neg, t) := takeSign (s.dropWhile isSpace)
  let ds := t.takeWhile Char.isDigit
  if ds = [] then (0, s)
  else
    -- the smallest `long` is one further from 0
    (if neg then -(min (Nat.ofDigitChars 10 ds 0) 9223372036854775808 : ℕ) else longValue ds, t.dropWhile Char.isDigit)

/-! ## The constructor -/

/-- `m_unitName`, `m_unitIdx` and the messages. `none`: the text after the number is past the end. -/
def parseUnit (msgUnit : Text) : Option (Text × Int × List Msg) :=
  let name := msgUnit.takeWhile (· ≠ '[')
  match msgUnit.dropWhile (· ≠ '[') with
  | [] => some (name, -1, [])
  | _ :: s =>
    match (strtol s).2 with
    | [] => none
    | c :: rest =>
      some (name, toInt (strtol s).1, (if (strtol s).2 = s ∨ c ≠ ']' then [.unitIndex] else []) ++
        if rest ≠ [] then [.unitIndex] else [])

/-- An index that is read backwards: `pPath[-1]` is read, there is an error, or the index and what is left. -/
inductive Idx
  | outside
  | bad
  | ok (idx : Int) (rev : Text)
deriving DecidableEq, Repr

/-- What is before the digits. `pEnd == pStr` compares pointers into two strings and never holds. -/
def openIdx (ds : Text) : Text → Idx
  | [] => .outside
  | b :: rev => if b = '[' then .ok (toInt (longValue ds)) rev else .bad

/-- One of the three blocks for an index, on `pPath[strIdx]`, `pPath[strIdx-1]` and so on. -/
def getIdx (dflt : Int) : Text → Idx
  | [] => .outside
  | c :: rev =>
    if c = ']' then openIdx (rev.takeWhile Char.isDigit).reverse (rev.dropWhile Char.isDigit) else .ok dflt (c :: rev)

/-- The path in front of the interface name, from the `/` on. -/
def parseInst (o : CMsgIntfPath) : Text → Option (CMsgIntfPath × List Msg)
  | [] => none
  | _ :: rev =>
    match getIdx 0 rev with
    | .outside => none
    | .bad => some (o, [.replIndex])
    | .ok replIdx rev =>
      if rev.length = 1 then some ({ o with replIdx := replIdx }, [.modulePath])
      else some ({ o with replIdx := replIdx, instPath := rev.reverse }, [])

/-- The path, where `o` is what has been stored so far. -/
def parsePath (o : CMsgIntfPath) (msgPath : Text) : Option (CMsgIntfPath × List Msg) :=
  match getIdx (-1) msgPath.reverse with
  | .outside => none
  | .bad => some (o, [.intfIndex])
  | .ok idx2 rev =>
    match getIdx (-1) rev with
    | .outside => none
    | .bad => some (o, [.intfIndex])
    | .ok idx1 rev =>
      parseInst { o with msgIntfIdx := [idx1, idx2].filter (0 ≤ ·), msgIntfName := (rev.takeWhile (· ≠ '/')).reverse }
        (rev.dropWhile (· ≠ '/'))

/-- The constructor: `none` is a read outside of a string. -/
def cMsgIntfPath (msgUnit msgPath : Text) : Option (CMsgIntfPath × List Msg) := do
  let (unitName, unitIdx, unitMsgs) ← parseUnit msgUnit
  let (o, pathMsgs) ← parsePath { unitName, unitIdx } msgPath
  return (o, unitMsgs ++ pathMsgs)

/-- What the callers do to a path. `erase(0)` erases from the first character on. -/
def callerPath (path : Text) : Text :=
  let path := if path.head? = some '"' then [] else path
  let path := if path.getLast? = some '"' then path.dropLast else path
  if path ≠ [] ∧ path.head? ≠ some '/' then '/' :: path else path

/-- `AddMsgIntfConn` and `AddMsgIntfParams`, with the parameters as they are written. -/
def addMsgIntf (unit path : Text) : Option (CMsgIntfPath × List Msg) := cMsgIntfPath unit (callerPath path)

/-! ## Components and their texts -/

structure Components where
  unitName : Text
  unitIdx : Option ℕ
  instPath : List Text
  replIdx : Option ℕ
  msgIntfName : Text
  msgIntfIdx : List ℕ
deriving DecidableEq, Repr

def indexText (i : ℕ) : Text := '[' :: Nat.toDigits 10 i ++ [']']

def optText (i : Option ℕ) : Text := (i.map indexText).getD []

/-- A name has no `/` and no bracket. -/
def IsName (s : Text) : Prop := s ≠ [] ∧ '/' ∉ s ∧ '[' ∉ s ∧ ']' ∉ s

namespace Components

variable (c : Components)

/-- The unit is optional. -/
def Wf : Prop :=
  ('[' ∉ c.unitName ∧ ']' ∉ c.unitName) ∧ (c.instPath ≠ [] ∧ ∀ s ∈ c.instPath, IsName s) ∧
    IsName c.msgIntfName ∧ c.msgIntfIdx.length ≤ 2

def unitText : Text := c.unitName ++ optText c.unitIdx

def instText : Text := c.instPath.flatMap ('/' :: ·)

def intfText : Text := c.msgIntfName ++ c.msgIntfIdx.flatMap indexText

def pathText : Text := c.instText ++ optText c.replIdx ++ '/' :: c.intfText

/-- The object that holds the components. -/
def object : CMsgIntfPath where
  unitName := c.unitName
  unitIdx := (c.unitIdx.map Nat.cast).getD (-1)
  instPath := c.instText
  replIdx := (c.replIdx.map Nat.cast).getD 0
  msgIntfName := c.msgIntfName
  msgIntfIdx := c.msgIntfIdx.map Nat.cast

/-- The indices are numbers of type `int`. -/
def Small : Prop := (∀ i ∈ c.unitIdx, i < 2147483648) ∧ (∀ i ∈ c.replIdx, i < 2147483648) ∧
  ∀ i ∈ c.msgIntfIdx, i < 2147483648

end Components

/-- The components have these texts. -/
def Spells (c : Components) (unit path : Text) : Prop := c.Wf ∧ unit = c.unitText ∧ path = c.pathText

/-- The first `/` of a path may be left out. -/
def slashed (path : Text) : Text := if path ≠ [] ∧ path.head? ≠ some '/' then '/' :: path else path

def quoted (q : Bool) (s : Text) : Text := if q then '"' :: s ++ ['"'] else s

/-- **Parameters parse back**, written with or without quotes: to their components, or if they have none to an error
without a read outside of a string. -/
def ParsesBack (quotedUnit : Bool) (unit : Text) (quotedPath : Bool) (path : Text) : Prop :=
  (∀ c, Spells c unit (slashed path) →
    addMsgIntf (quoted quotedUnit unit) (quoted quotedPath path) = some (c.object, [])) ∧
  ((¬∃ c, Spells c unit (slashed path)) →
    ∃ o msgs, addMsgIntf (quoted quotedUnit unit) (quoted quotedPath path) = some (o, msgs) ∧ msgs ≠ [])

/-! ## What the constructor accepts -/

def Digits (ds : Text) : Prop := ∀ c ∈ ds, c.isDigit = true

/-- A number that `strtol` reads whole. -/
def IsNumber (s : Text) : Prop :=
  ∃ ws sign ds : Text, s = ws ++ (sign ++ ds) ∧ (∀ c ∈ ws, isSpace c = true) ∧
    (sign = [] ∨ sign = ['+'] ∨ sign = ['-']) ∧ ds ≠ [] ∧ Digits ds

/-- A bracket with nothing or a number after it. -/
def UnitOpen (unit : Text) : Prop := ∃ name s, unit = name ++ '[' :: s ∧ '[' ∉ name ∧ (s = [] ∨ IsNumber s)

/-- No bracket, or at the end a number in brackets. -/
def UnitLoose (unit : Text) : Prop :=
  '[' ∉ unit ∨ ∃ name s, unit = name ++ '[' :: (s ++ [']']) ∧ '[' ∉ name ∧ IsNumber s

def bracketed (ds : Text) : Text := '[' :: ds ++ [']']

/-- Up to `k` indices after `m`, which may be empty brackets; with fewer than `k` there is no bracket before them. -/
def Groups (k : ℕ) (m : Text) (gs : List Text) (s : Text) : Prop :=
  (∀ ds ∈ gs, Digits ds) ∧ s = m ++ gs.flatMap bracketed ∧ (gs.length = k ∨ gs.length < k ∧ m.getLast? ≠ some ']')

def Indexed (k : ℕ) (m s : Text) : Prop := ∃ gs, Groups k m gs s

/-- No module path before the name. -/
def PathBare (path : Text) : Prop := path = [] ∨ ∃ m s, path = '/' :: s ∧ '/' ∉ m ∧ Indexed 2 m s

/-- A path but for empty brackets, and for brackets and empty names in its parts. -/
def PathLoose (path : Text) : Prop :=
  ∃ inst rs m s, path = rs ++ '/' :: s ∧ '/' ∉ m ∧ Indexed 2 m s ∧ Indexed 1 inst rs ∧ 2 ≤ inst.length

/-! ## One index -/

section

variable {s t m ds : Text} {gs : List Text} {k : ℕ} {dflt : Int}

theorem digits_reverse (h : Digits ds) : Digits ds.reverse := fun c hc => h c (List.mem_reverse.1 hc)

/-- A run of digits before another character. -/
theorem digits_split (h : Digits ds) {c : Char} (hc : c.isDigit = false) :
    (ds ++ c :: t).takeWhile Char.isDigit = ds ∧ (ds ++ c :: t).dropWhile Char.isDigit = c :: t := by
  constructor
  · rw [List.takeWhile_append_of_pos h, List.takeWhile_cons_of_neg (by rw [hc]; exact Bool.false_ne_true),
      List.append_nil]
  · rw [List.dropWhile_append_of_pos h, List.dropWhile_cons_of_neg (by rw [hc]; exact Bool.false_ne_true)]

theorem reverse_bracketed : (t ++ bracketed ds).reverse = ']' :: (ds.reverse ++ '[' :: t.reverse) := by
  unfold bracketed
  rw [List.reverse_append, List.reverse_append, List.reverse_singleton, List.reverse_cons, List.append_assoc,
    List.append_assoc]
  rfl

theorem getIdx_close (r : Text) :
    getIdx dflt (']' :: r) = openIdx (r.takeWhile Char.isDigit).reverse (r.dropWhile Char.isDigit) := rfl

theorem getIdx_bracketed (h : Digits ds) :
    getIdx dflt (t ++ bracketed ds).reverse = .ok (toInt (longValue ds)) t.reverse := by
  obtain ⟨htake, hdrop⟩ := @digits_split t.reverse _ (digits_reverse h) '[' rfl
  rw [reverse_bracketed, getIdx_close, hdrop, htake, List.reverse_reverse]
  rfl

theorem getIdx_plain (hne : s ≠ []) (h : s.getLast? ≠ some ']') : getIdx dflt s.reverse = .ok dflt s.reverse := by
  rw [← List.head?_reverse] at h
  cases hrev : s.reverse with
  | nil => exact absurd (List.reverse_eq_nil_iff.1 hrev) hne
  | cons c r =>
    rw [hrev] at h
    exact if_neg fun hc => h (congrArg some hc)

/-- **One index**: brackets at the end, no bracket at the end, or an error. -/
theorem getIdx_cases (hslash : '/' ∈ s) :
    (∃ t ds, Digits ds ∧ s = t ++ bracketed ds) ∨ s.getLast? ≠ some ']' ∨
      ((∀ dflt, getIdx dflt s.reverse = .bad) ∧ s.getLast? = some ']' ∧ ¬∃ t ds, Digits ds ∧ s = t ++ bracketed ds) := by
  by_cases hbr : ∃ t ds, Digits ds ∧ s = t ++ bracketed ds
  · exact Or.inl hbr
  · by_cases hlast : s.getLast? = some ']'
    · refine Or.inr (Or.inr ⟨fun dflt => ?_, hlast, hbr⟩)
      have hhead : s.reverse.head? = some ']' := List.head?_reverse.trans hlast
      cases hrev : s.reverse with
      | nil =>
        rw [hrev] at hhead
        cases hhead
      | cons c r =>
        rw [hrev] at hhead
        obtain rfl := Option.some.inj hhead
        have hs : s = r.reverse ++ [']'] := by rw [← List.reverse_reverse s, hrev, List.reverse_cons]
        have hr : r = r.takeWhile Char.isDigit ++ r.dropWhile Char.isDigit := (List.takeWhile_append_dropWhile).symm
        have hdigits : Digits (r.takeWhile Char.isDigit) := fun c hc => List.mem_takeWhile_imp hc
        rw [getIdx_close]
        cases hdrop : r.dropWhile Char.isDigit with
        | nil =>
          -- the slash is among the digits
          rw [hdrop, List.append_nil] at hr
          rw [hs, List.mem_append, List.mem_reverse, hr] at hslash
          rcases hslash with hslash | hslash
          · exact absurd (hdigits _ hslash) (by decide)
          · exact absurd hslash (by decide)
        | cons b rest =>
          refine if_neg fun hb => hbr ⟨rest.reverse, (r.takeWhile Char.isDigit).reverse, digits_reverse hdigits, ?_⟩
          subst hb
          rw [hs]
          conv => lhs; rw [hr, hdrop]
          rw [List.reverse_append, List.reverse_cons, List.append_assoc, List.append_assoc]
          rfl
    · exact Or.inr (Or.inl hlast)

/-- **The last index** is taken off first. -/
theorem indexed_succ : Indexed (k + 1) m s ↔
    (s = m ∧ m.getLast? ≠ some ']') ∨ ∃ ds t, Digits ds ∧ s = t ++ bracketed ds ∧ Indexed k m t := by
  constructor
  · rintro ⟨gs, hds, hs, hlen⟩
    rcases List.eq_nil_or_concat' gs with rfl | ⟨gs, ds, rfl⟩
    · rw [List.flatMap_nil, List.append_nil] at hs
      rcases hlen with h | h
      · cases h
      · exact Or.inl ⟨hs, h.2⟩
    · refine Or.inr ⟨ds, m ++ gs.flatMap bracketed, hds ds (List.mem_append_right _ List.mem_cons_self), ?_, gs,
        fun d hd => hds d (List.mem_append_left _ hd), rfl, ?_⟩
      · rw [hs, List.flatMap_append, List.flatMap_singleton, List.append_assoc]
      · rw [List.length_append, List.length_singleton] at hlen
        exact hlen.imp Nat.succ.inj fun h => ⟨Nat.lt_of_succ_lt_succ h.1, h.2⟩
  · rintro (⟨rfl, hlast⟩ | ⟨ds, t, hds, rfl, gs, hgs, rfl, hlen⟩)
    · refine ⟨[], fun d hd => absurd hd List.not_mem_nil, ?_, Or.inr ⟨Nat.succ_pos k, hlast⟩⟩
      rw [List.flatMap_nil, List.append_nil]
    · refine ⟨gs ++ [ds], fun d hd => ?_, ?_, ?_⟩
      · rcases List.mem_append.1 hd with h | h
        · exact hgs d h
        · rw [List.mem_singleton.1 h]
          exact hds
      · rw [List.flatMap_append, List.flatMap_singleton, List.append_assoc]
      · rw [List.length_append, List.length_singleton]
        exact hlen.imp (congrArg Nat.succ) fun h => ⟨Nat.succ_lt_succ h.1, h.2⟩

theorem indexed_zero : Indexed 0 m s ↔ s = m := by
  constructor
  · rintro ⟨gs, -, rfl, hlen⟩
    have hnil : gs = [] := List.length_eq_zero_iff.1 (hlen.resolve_right fun h => absurd h.1 (Nat.not_lt_zero _))
    rw [hnil, List.flatMap_nil, List.append_nil]
  · rintro rfl
    exact ⟨[], fun d hd => absurd hd List.not_mem_nil, by rw [List.flatMap_nil, List.append_nil], Or.inl rfl⟩

theorem getLast?_bracketed : (t ++ bracketed ds).getLast? = some ']' := by
  unfold bracketed
  rw [← List.append_assoc, List.getLast?_append]
  rfl

/-- **What the indices are taken off** is one text. -/
theorem indexed_unique {m' : Text} (h : Indexed k m s) (h' : Indexed k m' s) : m = m' := by
  induction k generalizing s with
  | zero => exact (indexed_zero.1 h).symm.trans (indexed_zero.1 h')
  | succ k ih =>
    rcases indexed_succ.1 h with ⟨rfl, hlast⟩ | ⟨ds, t, hds, rfl, ht⟩
    · rcases indexed_succ.1 h' with ⟨heq, -⟩ | ⟨ds', t', -, rfl, -⟩
      · exact heq
      · exact absurd getLast?_bracketed hlast
    · rcases indexed_succ.1 h' with ⟨heq, hlast⟩ | ⟨ds', t', hds', heq, ht'⟩
      · rw [← heq] at hlast
        exact absurd getLast?_bracketed hlast
      · have hok := @getIdx_bracketed t ds 0 hds
        rw [heq, getIdx_bracketed hds'] at hok
        have hrev : t'.reverse = t.reverse := (Idx.ok.inj hok).2
        rw [List.reverse_inj.1 hrev] at ht'
        exact ih ht ht'

theorem head_of_bracketed (h : (t ++ bracketed ds).head? = some '/') : t.head? = some '/' := by
  cases t with
  | nil => exact absurd (Option.some.inj h) (by decide)
  | cons c t => exact h

theorem slash_mem (h : s.head? = some '/') : '/' ∈ s := List.mem_of_mem_head? h

theorem ne_nil_of_head (h : s.head? = some '/') : s ≠ [] := by
  rintro rfl
  cases h

theorem head_of_indexed (h : s.head? = some '/') (hm : Indexed k m s) : m.head? = some '/' := by
  induction k generalizing s with
  | zero => exact (indexed_zero.1 hm) ▸ h
  | succ k ih =>
    rcases indexed_succ.1 hm with ⟨rfl, -⟩ | ⟨ds, t, -, rfl, ht⟩
    · exact h
    · exact ih (head_of_bracketed h) ht

theorem indexed_prepend (pre : Text) {name : Text} :
    Indexed k (pre ++ '/' :: name) (pre ++ '/' :: s) ↔ Indexed k name s := by
  have hlast : (pre ++ '/' :: name).getLast? ≠ some ']' ↔ name.getLast? ≠ some ']' := by
    rw [List.getLast?_append]
    cases name with
    | nil =>
      have hslash : (['/'].getLast?.or pre.getLast?) = some '/' := rfl
      rw [hslash]
      exact iff_of_true (by decide) (by decide)
    | cons c name =>
      rw [List.getLast?_cons_cons]
      cases hc : (c :: name).getLast? with
      | none => exact absurd (List.getLast?_eq_none_iff.1 hc) (List.cons_ne_nil _ _)
      | some d => exact Iff.rfl
  refine exists_congr fun gs => and_congr_right fun _ => ?_
  rw [hlast, List.append_assoc, List.append_cancel_left_eq, List.cons_append, List.cons.injEq]
  exact and_congr_left fun _ => ⟨fun h => h.2, fun h => ⟨rfl, h⟩⟩

end

/-! ## The path -/

section

variable {p m pre name : Text} {gs : List Text} {o : CMsgIntfPath}

/-- The indices that are stored. -/
def storedIdx (gs : List Text) : List Int := (gs.map fun ds => toInt (longValue ds)).filter (0 ≤ ·)

theorem parsePath_bad (h : p.head? = some '/') (hno : ∀ m, ¬Indexed 2 m p) :
    parsePath o p = some (o, [.intfIndex]) := by
  unfold parsePath
  rcases getIdx_cases (slash_mem h) with ⟨t, ds, hds, rfl⟩ | hlast | ⟨hbad, -, -⟩
  · have ht := head_of_bracketed h
    rw [getIdx_bracketed hds]
    dsimp only
    rcases getIdx_cases (slash_mem ht) with ⟨t', ds', hds', rfl⟩ | hlast | ⟨hbad, -, -⟩
    · exact absurd (indexed_succ.2 (Or.inr ⟨ds, _, hds, rfl, indexed_succ.2
        (Or.inr ⟨ds', t', hds', rfl, indexed_zero.2 rfl⟩)⟩)) (hno t')
    · exact absurd (indexed_succ.2 (Or.inr ⟨ds, t, hds, rfl, indexed_succ.2 (Or.inl ⟨rfl, hlast⟩)⟩)) (hno t)
    · rw [hbad]
  · exact absurd (indexed_succ.2 (Or.inl ⟨rfl, hlast⟩)) (hno p)
  · rw [hbad]

theorem parsePath_groups (h : p.head? = some '/') (hgs : Groups 2 m gs p) : parsePath o p =
    parseInst { o with msgIntfIdx := storedIdx gs, msgIntfName := (m.reverse.takeWhile (· ≠ '/')).reverse }
      (m.reverse.dropWhile (· ≠ '/')) := by
  have hm : m ≠ [] := ne_nil_of_head (head_of_indexed h ⟨gs, hgs⟩)
  obtain ⟨hds, rfl, hlen⟩ := hgs
  unfold parsePath
  have hneg : ([-1, -1] : List Int).filter (0 ≤ ·) = [] := rfl
  cases gs with
  | nil =>
    have hlast : m.getLast? ≠ some ']' := (hlen.resolve_left (by decide)).2
    rw [List.flatMap_nil, List.append_nil, getIdx_plain hm hlast]
    dsimp only
    rw [getIdx_plain hm hlast]
    dsimp only
    rw [hneg]
    rfl
  | cons a gs =>
    have ha := hds a List.mem_cons_self
    cases gs with
    | nil =>
      have hlast : m.getLast? ≠ some ']' := (hlen.resolve_left fun hone => by cases hone).2
      rw [List.flatMap_singleton, getIdx_bracketed ha]
      dsimp only
      rw [getIdx_plain hm hlast]
      dsimp only
      have hfilter : [-1, toInt (longValue a)].filter (0 ≤ ·) = storedIdx [a] := List.filter_cons_of_neg (by decide)
      rw [hfilter]
    | cons b gs =>
      have hb := hds b (List.mem_cons_of_mem _ List.mem_cons_self)
      have hnil : gs = [] := by
        apply List.length_eq_zero_iff.1
        simp only [List.length_cons] at hlen
        omega
      subst hnil
      have hflat : m ++ [a, b].flatMap bracketed = m ++ bracketed a ++ bracketed b := by
        rw [List.flatMap_cons, List.flatMap_singleton, List.append_assoc]
      rw [hflat, getIdx_bracketed hb]
      dsimp only
      rw [getIdx_bracketed ha]
      rfl

/-- The last part of a path. -/
theorem exists_name (h : m.head? = some '/') : ∃ pre name, m = pre ++ '/' :: name ∧ '/' ∉ name := by
  obtain ⟨as, bs, heq, hnot⟩ := List.eq_append_cons_of_mem (List.mem_reverse.2 (slash_mem h))
  refine ⟨bs.reverse, as.reverse, ?_, fun hmem => hnot (List.mem_reverse.1 hmem)⟩
  rw [← List.reverse_reverse m, heq, List.reverse_append, List.reverse_cons, List.append_assoc]
  rfl

theorem split_reverse (h : '/' ∉ name) :
    ((pre ++ '/' :: name).reverse.takeWhile (· ≠ '/')).reverse = name ∧
      (pre ++ '/' :: name).reverse.dropWhile (· ≠ '/') = '/' :: pre.reverse := by
  have hall : ∀ c ∈ name.reverse, decide (c ≠ '/') = true := fun c hc =>
    decide_eq_true fun heq => h (heq ▸ List.mem_reverse.1 hc)
  have hrev : (pre ++ '/' :: name).reverse = name.reverse ++ '/' :: pre.reverse := by
    rw [List.reverse_append, List.reverse_cons, List.append_assoc]
    rfl
  have htake : ('/' :: pre.reverse).takeWhile (fun c => decide (c ≠ '/')) = [] := rfl
  have hdrop : ('/' :: pre.reverse).dropWhile (fun c => decide (c ≠ '/')) = '/' :: pre.reverse := rfl
  rw [hrev, List.takeWhile_append_of_pos hall, htake, List.append_nil, List.reverse_reverse,
    List.dropWhile_append_of_pos hall, hdrop]
  exact ⟨rfl, rfl⟩

theorem slash_split_inj {pre' name' : Text} (h : '/' ∉ name) (h' : '/' ∉ name')
    (heq : pre ++ '/' :: name = pre' ++ '/' :: name') : pre = pre' ∧ name = name' := by
  obtain ⟨hname, hpre⟩ := @split_reverse pre name h
  obtain ⟨hname', hpre'⟩ := @split_reverse pre' name' h'
  rw [heq, hpre'] at hpre
  rw [heq, hname'] at hname
  exact ⟨(List.reverse_inj.1 (List.cons.inj hpre).2).symm, hname.symm⟩

/-- **The path from its name on**, once the indices are taken off. -/
theorem parsePath_name (h : p.head? = some '/') (hgs : Groups 2 (pre ++ '/' :: name) gs p) (hname : '/' ∉ name) :
    parsePath o p = parseInst { o with msgIntfIdx := storedIdx gs, msgIntfName := name } ('/' :: pre.reverse) := by
  obtain ⟨htake, hdrop⟩ := @split_reverse pre name hname
  rw [parsePath_groups h hgs, htake, hdrop]

theorem parseInst_nil : parseInst o ['/'] = none := rfl

theorem parseInst_bad (h : pre.head? = some '/') (hno : ∀ m, ¬Indexed 1 m pre) :
    parseInst o ('/' :: pre.reverse) = some (o, [.replIndex]) := by
  unfold parseInst
  dsimp only
  rcases getIdx_cases (slash_mem h) with ⟨t, ds, hds, rfl⟩ | hlast | ⟨hbad, -, -⟩
  · exact absurd (indexed_succ.2 (Or.inr ⟨ds, t, hds, rfl, indexed_zero.2 rfl⟩)) (hno t)
  · exact absurd (indexed_succ.2 (Or.inl ⟨rfl, hlast⟩)) (hno pre)
  · rw [hbad]

/-- The replication index that is stored. -/
def storedRepl (gs : List Text) : Int := (gs.head?.map fun ds => toInt (longValue ds)).getD 0

theorem parseInst_groups (h : pre.head? = some '/') (hgs : Groups 1 m gs pre) : parseInst o ('/' :: pre.reverse) =
    if m.length = 1 then some ({ o with replIdx := storedRepl gs }, [.modulePath])
    else some ({ o with replIdx := storedRepl gs, instPath := m }, []) := by
  have hm : m ≠ [] := ne_nil_of_head (head_of_indexed h ⟨gs, hgs⟩)
  obtain ⟨hds, rfl, hlen⟩ := hgs
  have hget : getIdx 0 (m ++ gs.flatMap bracketed).reverse = .ok (storedRepl gs) m.reverse := by
    cases gs with
    | nil =>
      have hlast : m.getLast? ≠ some ']' := (hlen.resolve_left fun h => by cases h).2
      rw [List.flatMap_nil, List.append_nil]
      exact getIdx_plain hm hlast
    | cons a gs =>
      have hnil : gs = [] := by
        apply List.length_eq_zero_iff.1
        simp only [List.length_cons] at hlen
        omega
      subst hnil
      unfold storedRepl
      rw [List.head?_cons, Option.map_some, Option.getD_some, List.flatMap_singleton]
      exact getIdx_bracketed (hds a List.mem_cons_self)
  unfold parseInst
  dsimp only
  rw [hget]
  dsimp only
  rw [List.length_reverse, List.reverse_reverse]

/-- **What is read of a path**: outside of it, or with an error, or to its end. -/
theorem parsePath_iff (h : p.head? = some '/') :
    (parsePath o p = none ↔ PathBare p) ∧ ((∃ o', parsePath o p = some (o', [])) ↔ PathLoose p) := by
  have hne := ne_nil_of_head h
  by_cases hidx : ∃ m, Indexed 2 m p
  · obtain ⟨m, gs, hgs⟩ := hidx
    obtain ⟨pre, name, rfl, hname⟩ := exists_name (head_of_indexed h ⟨gs, hgs⟩)
    have hp : p = pre ++ '/' :: (name ++ gs.flatMap bracketed) := by
      rw [hgs.2.1, List.append_assoc]
      rfl
    have hrest : Indexed 2 name (name ++ gs.flatMap bracketed) := by
      have hall : Indexed 2 (pre ++ '/' :: name) p := ⟨gs, hgs⟩
      rw [hp] at hall
      exact (indexed_prepend pre).1 hall
    have huniq : ∀ pre' name', '/' ∉ name' → Indexed 2 (pre' ++ '/' :: name') p → pre' = pre := fun pre' name' h' hi =>
      (slash_split_inj h' hname (indexed_unique hi ⟨gs, hgs⟩)).1
    have hbare : PathBare p ↔ pre = [] := by
      constructor
      · rintro (hnil | ⟨m', s, rfl, hm', hs⟩)
        · exact absurd hnil hne
        · exact (huniq [] m' hm' ((indexed_prepend []).2 hs)).symm
      · rintro rfl
        exact Or.inr ⟨name, _, hp, hname, hrest⟩
    have hloose : PathLoose p ↔ ∃ inst, Indexed 1 inst pre ∧ 2 ≤ inst.length := by
      constructor
      · rintro ⟨inst, rs, m', s, rfl, hm', hs, hinst, hlen⟩
        rw [← huniq rs m' hm' ((indexed_prepend rs).2 hs)]
        exact ⟨inst, hinst, hlen⟩
      · rintro ⟨inst, hinst, hlen⟩
        exact ⟨inst, pre, name, _, hp, hname, hrest, hinst, hlen⟩
    rw [hbare, hloose, parsePath_name h hgs hname]
    by_cases hnil : pre = []
    · subst hnil
      refine ⟨iff_of_true rfl rfl, iff_of_false ?_ ?_⟩
      · rintro ⟨o', h'⟩
        cases h'
      · rintro ⟨inst, ⟨gs', -, heq, -⟩, hlen⟩
        have hlen' := congrArg List.length heq
        rw [List.length_append, List.length_nil] at hlen'
        omega
    · have hpre : pre.head? = some '/' := by
        cases pre with
        | nil => exact absurd rfl hnil
        | cons c pre =>
          rw [hp] at h
          exact h
      by_cases hrepl : ∃ inst, Indexed 1 inst pre
      · obtain ⟨inst, gs', hgs'⟩ := hrepl
        have hhead := head_of_indexed hpre ⟨gs', hgs'⟩
        have hpos : 0 < inst.length := List.length_pos_iff.2 (ne_nil_of_head hhead)
        rw [parseInst_groups hpre hgs']
        by_cases hone : inst.length = 1
        · rw [if_pos hone]
          refine ⟨iff_of_false (fun h' => by cases h') hnil, iff_of_false ?_ ?_⟩
          · rintro ⟨o', h'⟩
            cases h'
          · rintro ⟨inst', hinst', hlen⟩
            rw [indexed_unique hinst' ⟨gs', hgs'⟩] at hlen
            omega
        · rw [if_neg hone]
          exact ⟨iff_of_false (fun h' => by cases h') hnil, iff_of_true ⟨_, rfl⟩ ⟨inst, ⟨gs', hgs'⟩, by omega⟩⟩
      · rw [parseInst_bad hpre fun m hm => hrepl ⟨m, hm⟩]
        refine ⟨iff_of_false (fun h' => by cases h') hnil, iff_of_false ?_ ?_⟩
        · rintro ⟨o', h'⟩
          cases h'
        · rintro ⟨inst, hinst, -⟩
          exact hrepl ⟨inst, hinst⟩
  · have hno : ∀ m, ¬Indexed 2 m p := fun m hm => hidx ⟨m, hm⟩
    rw [parsePath_bad h hno]
    refine ⟨iff_of_false (fun h' => by cases h') ?_, iff_of_false ?_ ?_⟩
    · rintro (hnil | ⟨m, s, rfl, -, hs⟩)
      · exact hne hnil
      · exact hno _ ((indexed_prepend []).2 hs)
    · rintro ⟨o', h'⟩
      cases h'
    · rintro ⟨inst, rs, m, s, rfl, -, hs, -⟩
      exact hno _ ((indexed_prepend rs).2 hs)

end

/-! ## The unit -/

section

variable {s u n rest name ds : Text}

def NoDigitHead (s : Text) : Prop := ∀ c ∈ s.head?, c.isDigit = false

theorem isSpace_of_isDigit {c : Char} (h : c.isDigit = true) : isSpace c = false := by
  have hge : 48 ≤ c.toNat := by
    unfold Char.isDigit at h
    simp only [Bool.and_eq_true, decide_eq_true_eq] at h
    exact h.1
  have hne : c ≠ ' ' := by
    rintro rfl
    exact absurd hge (by decide)
  unfold isSpace
  rw [decide_eq_false hne, Bool.false_or, Bool.and_eq_false_iff]
  exact Or.inr (decide_eq_false (by omega))

theorem digits_takeWhile (hds : Digits ds) (hrest : NoDigitHead rest) :
    (ds ++ rest).takeWhile Char.isDigit = ds ∧ (ds ++ rest).dropWhile Char.isDigit = rest := by
  cases rest with
  | nil =>
    rw [List.append_nil, List.takeWhile_eq_self_iff.2 hds, List.dropWhile_eq_nil_iff.2 hds]
    exact ⟨rfl, rfl⟩
  | cons c rest => exact digits_split hds (hrest c rfl)

/-- **`strtol` reads a number** up to a character that is no digit. -/
theorem strtol_number (hn : IsNumber n) (hrest : NoDigitHead rest) : (strtol (n ++ rest)).2 = rest := by
  obtain ⟨ws, sign, ds, rfl, hws, hsign, hne, hds⟩ := hn
  obtain ⟨htake, hdrop⟩ := digits_takeWhile hds hrest
  have hfirst : ∀ c ∈ (sign ++ (ds ++ rest)).head?, isSpace c = false := by
    rcases hsign with rfl | rfl | rfl
    · cases ds with
      | nil => exact absurd rfl hne
      | cons c ds =>
        intro a ha
        obtain rfl := Option.some.inj ha
        exact isSpace_of_isDigit (hds c List.mem_cons_self)
    · intro a ha
      obtain rfl := Option.some.inj ha
      rfl
    · intro a ha
      obtain rfl := Option.some.inj ha
      rfl
  have hspace : (ws ++ (sign ++ ds) ++ rest).dropWhile isSpace = sign ++ (ds ++ rest) := by
    rw [List.append_assoc, List.append_assoc, List.dropWhile_append_of_pos hws]
    cases htail : sign ++ (ds ++ rest) with
    | nil => rfl
    | cons c t =>
      rw [htail] at hfirst
      exact List.dropWhile_cons_of_neg (by rw [hfirst c rfl]; exact Bool.false_ne_true)
  have htaken : (takeSign (sign ++ (ds ++ rest))).2 = ds ++ rest := by
    rcases hsign with rfl | rfl | rfl
    · cases ds with
      | nil => exact absurd rfl hne
      | cons c ds =>
        have hc := hds c List.mem_cons_self
        rw [List.nil_append, List.cons_append]
        unfold takeSign
        split
        next heq =>
          rw [(List.cons.inj heq).1] at hc
          cases hc
        next heq =>
          rw [(List.cons.inj heq).1] at hc
          cases hc
        next => rfl
    · rfl
    · rfl
  unfold strtol
  dsimp only
  rw [hspace, htaken, htake, if_neg hne]
  exact hdrop

/-- What `strtol` has not read is all there is, or follows a number. -/
theorem strtol_split (s : Text) : (strtol s).2 = s ∨ ∃ n, IsNumber n ∧ s = n ++ (strtol s).2 := by
  have hsign : ∀ t : Text, ∃ sign, t = sign ++ (takeSign t).2 ∧ (sign = [] ∨ sign = ['+'] ∨ sign = ['-']) := by
    intro t
    unfold takeSign
    split
    next t => exact ⟨['+'], rfl, Or.inr (Or.inl rfl)⟩
    next t => exact ⟨['-'], rfl, Or.inr (Or.inr rfl)⟩
    next => exact ⟨[], rfl, Or.inl rfl⟩
  obtain ⟨sign, htaken, hsign⟩ := hsign (s.dropWhile isSpace)
  unfold strtol
  dsimp only
  by_cases hds : (takeSign (s.dropWhile isSpace)).2.takeWhile Char.isDigit = []
  · rw [if_pos hds]
    exact Or.inl rfl
  · rw [if_neg hds]
    refine Or.inr ⟨s.takeWhile isSpace ++ (sign ++ (takeSign (s.dropWhile isSpace)).2.takeWhile Char.isDigit),
      ⟨_, _, _, rfl, fun c hc => List.mem_takeWhile_imp hc, hsign, hds, fun c hc => List.mem_takeWhile_imp hc⟩, ?_⟩
    dsimp only
    rw [List.append_assoc, List.append_assoc, List.takeWhile_append_dropWhile, ← htaken,
      List.takeWhile_append_dropWhile]

theorem IsNumber.ne_nil (hn : IsNumber n) : n ≠ [] := by
  obtain ⟨ws, sign, ds, rfl, -, -, hne, -⟩ := hn
  intro h
  exact hne (List.append_eq_nil_iff.1 (List.append_eq_nil_iff.1 h).2).2

theorem split_bracket (h : '[' ∉ name) : (name ++ '[' :: s).takeWhile (· ≠ '[') = name ∧
    (name ++ '[' :: s).dropWhile (· ≠ '[') = '[' :: s := by
  have hall : ∀ c ∈ name, decide (c ≠ '[') = true := fun c hc => decide_eq_true fun heq => h (heq ▸ hc)
  have htake : ('[' :: s).takeWhile (fun c => decide (c ≠ '[')) = [] := rfl
  have hdrop : ('[' :: s).dropWhile (fun c => decide (c ≠ '[')) = '[' :: s := rfl
  rw [List.takeWhile_append_of_pos hall, List.dropWhile_append_of_pos hall, htake, hdrop, List.append_nil]
  exact ⟨rfl, rfl⟩

theorem parseUnit_plain (h : '[' ∉ u) : parseUnit u = some (u, -1, []) := by
  have hall : ∀ c ∈ u, decide (c ≠ '[') = true := fun c hc => decide_eq_true fun heq => h (heq ▸ hc)
  unfold parseUnit
  rw [List.takeWhile_eq_self_iff.2 hall, List.dropWhile_eq_nil_iff.2 hall]

theorem parseUnit_bracket (h : '[' ∉ name) : parseUnit (name ++ '[' :: s) = match (strtol s).2 with
    | [] => none
    | c :: rest => some (name, toInt (strtol s).1, (if (strtol s).2 = s ∨ c ≠ ']' then [.unitIndex] else []) ++
        if rest ≠ [] then [.unitIndex] else []) := by
  obtain ⟨htake, hdrop⟩ := @split_bracket s name h
  unfold parseUnit
  rw [htake, hdrop]

theorem bracket_unique {name' s' : Text} (h : '[' ∉ name) (h' : '[' ∉ name')
    (heq : name ++ '[' :: s = name' ++ '[' :: s') : name = name' ∧ s = s' := by
  obtain ⟨htake, hdrop⟩ := @split_bracket s name h
  obtain ⟨htake', hdrop'⟩ := @split_bracket s' name' h'
  rw [heq, htake'] at htake
  rw [heq, hdrop'] at hdrop
  exact ⟨htake.symm, (List.cons.inj hdrop).2.symm⟩

/-- **What is read of a unit**: outside of it, or to its end without an error. -/
theorem parseUnit_iff (u : Text) :
    (parseUnit u = none ↔ UnitOpen u) ∧ ((∃ x i, parseUnit u = some (x, i, [])) ↔ UnitLoose u) := by
  by_cases hbr : '[' ∈ u
  · obtain ⟨name, s, rfl, hname⟩ := List.eq_append_cons_of_mem hbr
    have hopen : UnitOpen (name ++ '[' :: s) ↔ s = [] ∨ IsNumber s := by
      constructor
      · rintro ⟨name', s', heq, hname', h⟩
        rw [(bracket_unique hname hname' heq).2]
        exact h
      · exact fun h => ⟨name, s, rfl, hname, h⟩
    have hloose : UnitLoose (name ++ '[' :: s) ↔ ∃ n, s = n ++ [']'] ∧ IsNumber n := by
      constructor
      · rintro (hnot | ⟨name', n, heq, hname', hn⟩)
        · exact absurd hbr hnot
        · exact ⟨n, (bracket_unique hname hname' heq).2, hn⟩
      · rintro ⟨n, rfl, hn⟩
        exact Or.inr ⟨name, n, rfl, hname, hn⟩
    rw [hopen, hloose, parseUnit_bracket hname]
    have hnone : (strtol s).2 = [] ↔ s = [] ∨ IsNumber s := by
      constructor
      · intro h
        rcases strtol_split s with hs | ⟨n, hn, hs⟩
        · exact Or.inl (hs.symm.trans h)
        · rw [h, List.append_nil] at hs
          exact Or.inr (hs ▸ hn)
      · rintro (rfl | hn)
        · rfl
        · have h := @strtol_number s [] hn fun c hc => by cases hc
          rw [List.append_nil] at h
          exact h
    have hclosed : (strtol s).2 = [']'] ∧ (strtol s).2 ≠ s ↔ ∃ n, s = n ++ [']'] ∧ IsNumber n := by
      constructor
      · rintro ⟨h, hne⟩
        rcases strtol_split s with hs | ⟨n, hn, hs⟩
        · exact absurd hs hne
        · exact ⟨n, h ▸ hs, hn⟩
      · rintro ⟨n, rfl, hn⟩
        have h := @strtol_number n [']'] hn fun c hc => by
          obtain rfl := Option.some.inj hc
          rfl
        refine ⟨h, fun heq => hn.ne_nil ?_⟩
        rw [h] at heq
        exact List.self_eq_append_left.1 heq
    rw [← hnone, ← hclosed]
    cases hend : (strtol s).2 with
    | nil =>
      refine ⟨iff_of_true rfl rfl, iff_of_false ?_ fun h => by cases h.1⟩
      rintro ⟨x, i, h⟩
      cases h
    | cons c rest =>
      refine ⟨iff_of_false (fun h => by cases h) (List.cons_ne_nil _ _), ?_⟩
      constructor
      · rintro ⟨x, i, h⟩
        have hmsgs := (Prod.mk.inj (Prod.mk.inj (Option.some.inj h)).2).2
        rw [List.append_eq_nil_iff, ite_eq_right_iff, ite_eq_right_iff] at hmsgs
        obtain ⟨hfirst, hrest⟩ := hmsgs
        have hc : c = ']' := Decidable.not_not.1 fun hc => List.cons_ne_nil _ _ (hfirst (Or.inr hc))
        have hnil : rest = [] := Decidable.not_not.1 fun hnil => List.cons_ne_nil _ _ (hrest hnil)
        refine ⟨by rw [hc, hnil], fun heq => ?_⟩
        exact List.cons_ne_nil _ _ (hfirst (Or.inl heq))
      · rintro ⟨heq, hne⟩
        obtain ⟨rfl, rfl⟩ := List.cons.inj heq
        have hmsgs : (if ([']'] : Text) = s ∨ ']' ≠ ']' then [Msg.unitIndex] else []) ++
            (if ([] : Text) ≠ [] then [Msg.unitIndex] else []) = [] := by
          rw [if_neg (fun h => h.elim hne fun h => h rfl), if_neg fun h => h rfl]
          rfl
        dsimp only
        rw [hmsgs]
        exact ⟨_, _, rfl⟩
  · rw [parseUnit_plain hbr]
    refine ⟨iff_of_false (fun h => by cases h) ?_, iff_of_true ⟨_, _, rfl⟩ (Or.inl hbr)⟩
    rintro ⟨name, s, rfl, -⟩
    exact hbr (List.mem_append_right _ List.mem_cons_self)

end

/-! ## The texts of components -/

section

variable {c : Components} {u p : Text}

/-- An index as it is stored. -/
def stored (i : ℕ) : Int := toInt (min i 9223372036854775807 : ℕ)

theorem digits_toDigits (i : ℕ) : Digits (Nat.toDigits 10 i) := fun _ hc =>
  Nat.isDigit_of_mem_toDigits (by decide) (by decide) hc

theorem longValue_toDigits (i : ℕ) : toInt (longValue (Nat.toDigits 10 i)) = stored i := by
  unfold longValue stored
  rw [Nat.ofDigitChars_ten_toDigits]

theorem stored_eq_iff (i : ℕ) : stored i = i ↔ i < 2147483648 := by
  constructor
  · intro h
    have hrange := IntType.wrap_inRange IntType.int32 (min i 9223372036854775807 : ℕ)
    have hlt := (IntType.inRange_int32.1 hrange).2
    unfold stored toInt at h
    omega
  · intro h
    have hmin : min i 9223372036854775807 = i := Nat.min_eq_left (by omega)
    unfold stored toInt
    rw [hmin]
    exact IntType.wrap_of_inRange (IntType.inRange_int32.2 (by omega))

theorem indexText_eq (i : ℕ) : indexText i = bracketed (Nat.toDigits 10 i) := rfl

/-- **The number of an index** as `strtol` reads it, before the bracket. -/
theorem strtol_index (i : ℕ) : toInt (strtol (Nat.toDigits 10 i ++ [']'])).1 = stored i := by
  have hds := digits_toDigits i
  have hne : Nat.toDigits 10 i ≠ [] := Nat.toDigits_ne_nil
  obtain ⟨htake, -⟩ := @digits_takeWhile [']'] _ hds fun c hc => by
    obtain rfl := Option.some.inj hc
    rfl
  have hspace : (Nat.toDigits 10 i ++ [']']).dropWhile isSpace = Nat.toDigits 10 i ++ [']'] := by
    cases hcons : Nat.toDigits 10 i with
    | nil => exact absurd hcons hne
    | cons a ds =>
      have ha : a.isDigit = true := hds a (by rw [hcons]; exact List.mem_cons_self)
      exact List.dropWhile_cons_of_neg (by rw [isSpace_of_isDigit ha]; exact Bool.false_ne_true)
  have hsign : takeSign (Nat.toDigits 10 i ++ [']']) = (false, Nat.toDigits 10 i ++ [']']) := by
    cases hcons : Nat.toDigits 10 i with
    | nil => exact absurd hcons hne
    | cons a ds =>
      have ha : a.isDigit = true := hds a (by rw [hcons]; exact List.mem_cons_self)
      rw [List.cons_append]
      unfold takeSign
      split
      next heq =>
        rw [(List.cons.inj heq).1] at ha
        cases ha
      next heq =>
        rw [(List.cons.inj heq).1] at ha
        cases ha
      next => rfl
  unfold strtol
  rw [hspace, hsign]
  dsimp only
  rw [htake, if_neg hne]
  exact longValue_toDigits i

theorem parseUnit_components (hwf : c.Wf) :
    parseUnit c.unitText = some (c.unitName, (c.unitIdx.map stored).getD (-1), []) := by
  obtain ⟨⟨hopen, -⟩, -⟩ := hwf
  unfold Components.unitText optText
  cases c.unitIdx with
  | none =>
    rw [Option.map_none, Option.getD_none, List.append_nil]
    exact parseUnit_plain hopen
  | some i =>
    have hnumber : IsNumber (Nat.toDigits 10 i) :=
      ⟨[], [], _, rfl, fun c hc => absurd hc List.not_mem_nil, Or.inl rfl, Nat.toDigits_ne_nil, digits_toDigits i⟩
    have hend := @strtol_number _ [']'] hnumber fun c hc => by
      obtain rfl := Option.some.inj hc
      rfl
    have hne : ([']'] : Text) ≠ Nat.toDigits 10 i ++ [']'] := fun h => hnumber.ne_nil (List.self_eq_append_left.1 h)
    have hmsgs : (if ([']'] : Text) = Nat.toDigits 10 i ++ [']'] ∨ ']' ≠ ']' then [Msg.unitIndex] else []) ++
        (if ([] : Text) ≠ [] then [Msg.unitIndex] else []) = [] := by
      rw [if_neg (fun h => h.elim hne fun h => h rfl), if_neg fun h => h rfl]
      rfl
    have hparse := @parseUnit_bracket (Nat.toDigits 10 i ++ [']']) c.unitName hopen
    rw [hend, strtol_index] at hparse
    dsimp only at hparse
    rw [hmsgs] at hparse
    rw [Option.map_some, Option.getD_some, Option.map_some, Option.getD_some, indexText_eq]
    exact hparse

theorem getLast?_ne_of_notMem {s : Text} {a : Char} (h : a ∉ s) : s.getLast? ≠ some a := fun heq =>
  h (List.mem_of_getLast? heq)

theorem bracket_notMem_inst (hinst : ∀ s ∈ c.instPath, IsName s) : ']' ∉ c.instText := by
  intro h
  obtain ⟨s, hs, hmem⟩ := List.mem_flatMap.1 h
  rcases List.mem_cons.1 hmem with h | h
  · exact absurd h (by decide)
  · exact (hinst s hs).2.2.2 h

theorem instText_head (hwf : c.Wf) : c.instText.head? = some '/' ∧ 2 ≤ c.instText.length := by
  obtain ⟨-, ⟨hne, hinst⟩, -⟩ := hwf
  unfold Components.instText
  cases hcons : c.instPath with
  | nil => exact absurd hcons hne
  | cons s ss =>
    have hs := (hinst s (by rw [hcons]; exact List.mem_cons_self)).1
    have hpos : 0 < s.length := List.length_pos_iff.2 hs
    rw [List.flatMap_cons]
    refine ⟨rfl, ?_⟩
    rw [List.length_append, List.length_cons]
    omega

theorem groups_inst (hwf : c.Wf) :
    Groups 1 c.instText (c.replIdx.toList.map (Nat.toDigits 10)) (c.instText ++ optText c.replIdx) := by
  have hlast := getLast?_ne_of_notMem (bracket_notMem_inst hwf.2.1.2)
  unfold optText
  cases c.replIdx with
  | none =>
    exact ⟨fun d hd => absurd hd List.not_mem_nil, rfl, Or.inr ⟨Nat.zero_lt_one, hlast⟩⟩
  | some i =>
    refine ⟨fun d hd => ?_, ?_, Or.inl rfl⟩
    · rw [List.mem_singleton.1 hd]
      exact digits_toDigits i
    · change _ = _ ++ [Nat.toDigits 10 i].flatMap bracketed
      rw [List.flatMap_singleton]
      rfl

theorem groups_name (hwf : c.Wf) : Groups 2 c.msgIntfName (c.msgIntfIdx.map (Nat.toDigits 10)) c.intfText := by
  obtain ⟨-, -, hname, hlen⟩ := hwf
  refine ⟨fun d hd => ?_, ?_, ?_⟩
  · obtain ⟨i, -, rfl⟩ := List.mem_map.1 hd
    exact digits_toDigits i
  · unfold Components.intfText
    rw [List.flatMap_map]
    rfl
  · rw [List.length_map]
    rcases Nat.lt_or_eq_of_le hlen with h | h
    · exact Or.inr ⟨h, getLast?_ne_of_notMem hname.2.2.2⟩
    · exact Or.inl h

/-- The object of some components, with the numbers as they are stored. -/
def storedObject (c : Components) : CMsgIntfPath where
  unitName := c.unitName
  unitIdx := (c.unitIdx.map stored).getD (-1)
  instPath := c.instText
  replIdx := (c.replIdx.map stored).getD 0
  msgIntfName := c.msgIntfName
  msgIntfIdx := (c.msgIntfIdx.map stored).filter (0 ≤ ·)

theorem pathText_head (hwf : c.Wf) : c.pathText.head? = some '/' := by
  unfold Components.pathText
  rw [List.append_assoc, List.head?_append, (instText_head hwf).1]
  rfl

/-- **The path of some components** is read to its end. -/
theorem parsePath_components (hwf : c.Wf) (o : CMsgIntfPath) : parsePath o c.pathText = some ({ o with
    msgIntfIdx := (c.msgIntfIdx.map stored).filter (0 ≤ ·), msgIntfName := c.msgIntfName,
    replIdx := (c.replIdx.map stored).getD 0, instPath := c.instText }, []) := by
  obtain ⟨hhead, hlen⟩ := instText_head hwf
  obtain ⟨hds, hs, hcnt⟩ := groups_name hwf
  have hpre : (c.instText ++ optText c.replIdx).head? = some '/' := by
    rw [List.head?_append, hhead]
    rfl
  have hall : Groups 2 (c.instText ++ optText c.replIdx ++ '/' :: c.msgIntfName) (c.msgIntfIdx.map (Nat.toDigits 10))
      c.pathText := by
    have hname : c.msgIntfName ≠ [] := hwf.2.2.1.1
    refine ⟨hds, ?_, hcnt.imp id fun h => ⟨h.1, ?_⟩⟩
    · unfold Components.pathText
      rw [hs, List.append_assoc _ ('/' :: _)]
      rfl
    · rw [List.getLast?_append_of_ne_nil _ (List.cons_ne_nil _ _), List.getLast?_cons, Ne, Option.some_inj]
      intro hlast
      cases hcons : c.msgIntfName.getLast? with
      | none => exact hname (List.getLast?_eq_none_iff.1 hcons)
      | some d =>
        rw [hcons] at hlast
        rw [Option.getD_some] at hlast
        exact h.2 (hcons.trans (congrArg some hlast))
  have hstored : storedIdx (c.msgIntfIdx.map (Nat.toDigits 10)) = (c.msgIntfIdx.map stored).filter (0 ≤ ·) := by
    have hmap : (c.msgIntfIdx.map (Nat.toDigits 10)).map (fun ds => toInt (longValue ds)) =
        c.msgIntfIdx.map stored := by
      rw [List.map_map]
      refine List.map_congr_left fun i _ => ?_
      rw [Function.comp_apply, longValue_toDigits]
    unfold storedIdx
    rw [hmap]
  have hrepl : storedRepl (c.replIdx.toList.map (Nat.toDigits 10)) = (c.replIdx.map stored).getD 0 := by
    unfold storedRepl
    cases c.replIdx with
    | none => rfl
    | some i =>
      rw [Option.toList_some, List.map_cons, List.head?_cons, Option.map_some, Option.getD_some, longValue_toDigits,
        Option.map_some, Option.getD_some]
  rw [parsePath_name (pathText_head hwf) hall hwf.2.2.1.2.1, parseInst_groups hpre (groups_inst hwf),
    if_neg (by omega), hstored, hrepl]

end

/-! ## Parameters -/

/-- **Which parameters are read right**: the path is not quoted, has a module path, and
* next to a quoted unit there is an error that is reported: the texts spell no components, and the unit has a bracket
  or the path is not even one of `PathLoose`;
* next to a plain unit nothing is left open, what is accepted spells components, and these have small indices. -/
def ReadRight (quotedUnit : Bool) (unit : Text) (quotedPath : Bool) (path : Text) : Prop :=
  quotedPath = false ∧ ¬PathBare (slashed path) ∧
    if quotedUnit then (¬∃ c, Spells c unit (slashed path)) ∧ ('[' ∈ unit ∨ ¬PathLoose (slashed path))
    else ¬UnitOpen unit ∧ (UnitLoose unit → PathLoose (slashed path) → ∃ c, Spells c unit (slashed path)) ∧
      ∀ c, Spells c unit (slashed path) → c.Small

section

variable {c : Components} {u p t : Text}

/-- **The constructor on texts of components** stores them, with the numbers it can hold. -/
theorem cMsgIntfPath_components (h : Spells c u p) : cMsgIntfPath u p = some (storedObject c, []) := by
  obtain ⟨hwf, rfl, rfl⟩ := h
  unfold cMsgIntfPath
  rw [parseUnit_components hwf]
  change (parsePath _ c.pathText).bind _ = _
  rw [parsePath_components hwf]
  rfl

theorem getD_stored_iff (i : Option ℕ) (d : Int) :
    (i.map stored).getD d = (i.map Nat.cast).getD d ↔ ∀ n ∈ i, n < 2147483648 := by
  cases i with
  | none =>
    rw [Option.map_none, Option.map_none]
    exact iff_of_true rfl fun n hn => by cases hn
  | some n =>
    rw [Option.map_some, Option.getD_some, Option.map_some, Option.getD_some, stored_eq_iff]
    constructor
    · intro h m hm
      rw [← Option.some.inj hm]
      exact h
    · exact fun h => h n rfl

theorem filter_stored_iff (l : List ℕ) :
    (l.map stored).filter (0 ≤ ·) = l.map Nat.cast ↔ ∀ n ∈ l, n < 2147483648 := by
  constructor
  · intro h
    have hlen : ((l.map stored).filter (0 ≤ ·)).length = (l.map stored).length := by
      rw [h, List.length_map, List.length_map]
    rw [List.filter_eq_self.2 (List.length_filter_eq_length_iff.1 hlen)] at h
    exact fun n hn => (stored_eq_iff n).1 (List.map_inj_left.1 h n hn)
  · intro h
    have hmap : l.map stored = l.map Nat.cast := List.map_congr_left fun n hn => by rw [(stored_eq_iff n).2 (h n hn)]
    rw [hmap]
    refine List.filter_eq_self.2 fun x hx => ?_
    obtain ⟨n, -, rfl⟩ := List.mem_map.1 hx
    exact decide_eq_true (Int.natCast_nonneg n)

theorem storedObject_iff (c : Components) : storedObject c = c.object ↔ c.Small := by
  unfold storedObject Components.object Components.Small
  rw [← getD_stored_iff c.unitIdx (-1), ← getD_stored_iff c.replIdx 0, ← filter_stored_iff]
  simp only [CMsgIntfPath.mk.injEq, true_and]

theorem cMsgIntfPath_iff (hp : p.head? = some '/') :
    (cMsgIntfPath u p = none ↔ UnitOpen u ∨ PathBare p) ∧
      ((∃ o, cMsgIntfPath u p = some (o, [])) ↔ UnitLoose u ∧ PathLoose p) := by
  obtain ⟨hunone, hunil⟩ := parseUnit_iff u
  cases hu : parseUnit u with
  | none =>
    have hnone : cMsgIntfPath u p = none := by
      unfold cMsgIntfPath
      rw [hu]
      rfl
    rw [hnone]
    refine ⟨iff_of_true rfl (Or.inl (hunone.1 hu)), iff_of_false ?_ fun h => ?_⟩
    · rintro ⟨o, h⟩
      cases h
    · obtain ⟨x, i, hx⟩ := hunil.2 h.1
      rw [hu] at hx
      cases hx
  | some r =>
    obtain ⟨x, i, msgs⟩ := r
    obtain ⟨hpnone, hpnil⟩ := @parsePath_iff p { unitName := x, unitIdx := i } hp
    have hrun : cMsgIntfPath u p =
        (parsePath { unitName := x, unitIdx := i } p).bind fun r => some (r.1, msgs ++ r.2) := by
      unfold cMsgIntfPath
      rw [hu]
      rfl
    have hclosed : ¬UnitOpen u := fun h => by
      rw [hunone.2 h] at hu
      cases hu
    have hmsgs : UnitLoose u ↔ msgs = [] := by
      rw [← hunil, hu]
      constructor
      · rintro ⟨x', i', h⟩
        exact (Prod.mk.inj (Prod.mk.inj (Option.some.inj h)).2).2
      · rintro rfl
        exact ⟨x, i, rfl⟩
    rw [hrun, ← hpnone, ← hpnil, hmsgs]
    cases hpath : parsePath { unitName := x, unitIdx := i } p with
    | none =>
      refine ⟨iff_of_true rfl (Or.inr rfl), iff_of_false ?_ ?_⟩
      · rintro ⟨o, h⟩
        cases h
      · rintro ⟨-, o, h⟩
        cases h
    | some r =>
      obtain ⟨o', msgs'⟩ := r
      refine ⟨iff_of_false (fun h => by cases h) fun h => h.elim hclosed fun h => (by cases h), ?_⟩
      constructor
      · rintro ⟨o, h⟩
        obtain ⟨h1, h2⟩ := List.append_eq_nil_iff.1 (Prod.mk.inj (Option.some.inj h)).2
        exact ⟨h1, o', congrArg (fun m => some (o', m)) h2⟩
      · rintro ⟨rfl, o, h⟩
        obtain ⟨rfl, rfl⟩ := Prod.mk.inj (Option.some.inj h)
        exact ⟨_, rfl⟩

theorem callerPath_plain (ht : '"' ∉ t) : callerPath t = slashed t := by
  have hhead : t.head? ≠ some '"' := fun h => ht (List.mem_of_mem_head? h)
  have hlast : t.getLast? ≠ some '"' := getLast?_ne_of_notMem ht
  unfold callerPath slashed
  dsimp only
  rw [if_neg hhead, if_neg hlast]

/-- **A quoted path is erased.** -/
theorem callerPath_quoted (t : Text) : callerPath (quoted true t) = [] := rfl

theorem cMsgIntfPath_nil (u : Text) : cMsgIntfPath u [] = none := by
  unfold cMsgIntfPath
  cases parseUnit u with
  | none => rfl
  | some r => rfl

theorem addMsgIntf_quotedPath (u t : Text) : addMsgIntf u (quoted true t) = none := by
  unfold addMsgIntf
  rw [callerPath_quoted, cMsgIntfPath_nil]

theorem slashed_head (ht : t ≠ []) : (slashed t).head? = some '/' := by
  unfold slashed
  by_cases h : t.head? = some '/'
  · rw [if_neg fun hc => hc.2 h]
    exact h
  · rw [if_pos ⟨ht, h⟩]
    rfl

/-- A unit in quotes keeps them. -/
theorem quoted_unit (u : Text) : ¬UnitOpen (quoted true u) ∧ (UnitLoose (quoted true u) ↔ '[' ∉ u) := by
  have hmem : '[' ∈ quoted true u ↔ '[' ∈ u := by
    change '[' ∈ '"' :: u ++ ['"'] ↔ _
    simp
  have hlast : (quoted true u).getLast? = some '"' := by
    change ('"' :: u ++ ['"']).getLast? = _
    rw [List.getLast?_append]
    rfl
  constructor
  · rintro ⟨name, s, heq, -, h⟩
    rw [heq, List.getLast?_append_of_ne_nil _ (List.cons_ne_nil _ _)] at hlast
    rcases h with rfl | ⟨ws, sign, ds, rfl, -, -, hne, hds⟩
    · exact absurd (Option.some.inj hlast) (by decide)
    · have hdigit : '"' ∈ ds := by
        have happ : '[' :: (ws ++ (sign ++ ds)) = ('[' :: (ws ++ sign)) ++ ds := by
          rw [List.cons_append, List.append_assoc]
        rw [happ, List.getLast?_append_of_ne_nil _ hne] at hlast
        exact List.mem_of_getLast? hlast
      exact absurd (hds _ hdigit) (by decide)
  · constructor
    · rintro (h | ⟨name, s, heq, -, -⟩)
      · exact fun hu => h (hmem.2 hu)
      · have happ : name ++ '[' :: (s ++ [']']) = (name ++ '[' :: s) ++ [']'] := by
          rw [List.append_assoc, List.cons_append]
        rw [heq, happ, List.getLast?_append] at hlast
        exact absurd (Option.some.inj hlast) (by decide)
    · exact fun h => Or.inl fun hu => h (hmem.1 hu)

theorem parseInst_unitName {o o' : CMsgIntfPath} {rev : Text} {msgs : List Msg}
    (h : parseInst o rev = some (o', msgs)) : o'.unitName = o.unitName := by
  unfold parseInst at h
  split at h
  · cases h
  · split at h
    · cases h
    · rw [← (Prod.mk.inj (Option.some.inj h)).1]
    · split at h
      · rw [← (Prod.mk.inj (Option.some.inj h)).1]
      · rw [← (Prod.mk.inj (Option.some.inj h)).1]

theorem parsePath_unitName {o o' : CMsgIntfPath} {msgs : List Msg} (h : parsePath o p = some (o', msgs)) :
    o'.unitName = o.unitName := by
  unfold parsePath at h
  split at h
  · cases h
  · rw [← (Prod.mk.inj (Option.some.inj h)).1]
  · split at h
    · cases h
    · rw [← (Prod.mk.inj (Option.some.inj h)).1]
    · have hinst := parseInst_unitName h
      exact hinst

/-- The unit name of what is made with a quoted unit. -/
theorem quoted_unitName {o : CMsgIntfPath} (hp : p.head? = some '/')
    (h : cMsgIntfPath (quoted true u) p = some (o, [])) : '"' ∈ o.unitName := by
  have hu := (quoted_unit u).2.1 ((cMsgIntfPath_iff hp).2.1 ⟨o, h⟩).1
  have hnot : '[' ∉ quoted true u := by
    change '[' ∉ '"' :: u ++ ['"']
    simp [hu]
  unfold cMsgIntfPath at h
  rw [parseUnit_plain hnot] at h
  change (parsePath _ p).bind _ = _ at h
  obtain ⟨⟨o', msgs⟩, hpath, heq⟩ := Option.bind_eq_some_iff.1 h
  have ho : o' = o := (Prod.mk.inj (Option.some.inj heq)).1
  rw [← ho, parsePath_unitName hpath]
  exact List.mem_cons_self

end

theorem parsesBack_iff {unit path : Text} (quotedUnit quotedPath : Bool) (hu : '"' ∉ unit) (ht : '"' ∉ path) :
    ParsesBack quotedUnit unit quotedPath path ↔ ReadRight quotedUnit unit quotedPath path := by
  have hsome : ParsesBack quotedUnit unit quotedPath path →
      addMsgIntf (quoted quotedUnit unit) (quoted quotedPath path) ≠ none := by
    rintro ⟨hlegal, hother⟩ hnone
    by_cases hc : ∃ c, Spells c unit (slashed path)
    · obtain ⟨c, hc⟩ := hc
      rw [hlegal c hc] at hnone
      cases hnone
    · obtain ⟨o, msgs, hadd, -⟩ := hother hc
      rw [hadd] at hnone
      cases hnone
  cases quotedPath with
  | true => exact iff_of_false (fun h => hsome h (addMsgIntf_quotedPath _ _)) fun h => Bool.noConfusion h.1
  | false =>
    have hadd : addMsgIntf (quoted quotedUnit unit) (quoted false path) =
        cMsgIntfPath (quoted quotedUnit unit) (slashed path) := congrArg _ (callerPath_plain ht)
    unfold ParsesBack ReadRight at *
    rw [hadd] at hsome ⊢
    by_cases hnil : path = []
    · subst hnil
      refine iff_of_false (fun h => hsome h (cMsgIntfPath_nil _)) fun h => h.2.1 (Or.inl rfl)
    · have hp := slashed_head hnil
      obtain ⟨hnone, haccept⟩ := @cMsgIntfPath_iff (quoted quotedUnit unit) _ hp
      -- what is read and has no components must be an error
      have hother : (∃ o msgs, cMsgIntfPath (quoted quotedUnit unit) (slashed path) = some (o, msgs) ∧ msgs ≠ []) ↔
          ¬(UnitOpen (quoted quotedUnit unit) ∨ PathBare (slashed path)) ∧
            ¬(UnitLoose (quoted quotedUnit unit) ∧ PathLoose (slashed path)) := by
        rw [← hnone, ← haccept]
        cases cMsgIntfPath (quoted quotedUnit unit) (slashed path) with
        | none =>
          refine iff_of_false ?_ fun h => h.1 rfl
          rintro ⟨o, msgs, h, -⟩
          cases h
        | some r =>
          obtain ⟨o, msgs⟩ := r
          constructor
          · rintro ⟨o', msgs', h, hne⟩
            obtain ⟨rfl, rfl⟩ := Prod.mk.inj (Option.some.inj h)
            refine ⟨fun h => (by cases h), ?_⟩
            rintro ⟨o', h⟩
            exact hne (Prod.mk.inj (Option.some.inj h)).2
          · rintro ⟨-, h⟩
            exact ⟨o, msgs, rfl, fun hm => h ⟨o, by rw [hm]⟩⟩
      cases quotedUnit with
      | true =>
        obtain ⟨hopen, hloose⟩ := quoted_unit unit
        rw [hother, hloose, if_pos rfl]
        constructor
        · rintro ⟨hlegal, herror⟩
          have hno : ¬∃ c, Spells c unit (slashed path) := by
            rintro ⟨c, hc⟩
            have hquote := quoted_unitName hp (hlegal c hc)
            refine hu ?_
            rw [hc.2.1]
            exact List.mem_append_left _ hquote
          obtain ⟨hbare, hnot⟩ := herror hno
          refine ⟨rfl, fun h => hbare (Or.inr h), hno, ?_⟩
          by_cases hbr : '[' ∈ unit
          · exact Or.inl hbr
          · exact Or.inr fun h => hnot ⟨hbr, h⟩
        · rintro ⟨-, hbare, hno, hor⟩
          refine ⟨fun c hc => absurd ⟨c, hc⟩ hno, fun _ => ⟨fun h => h.elim hopen hbare, fun h => ?_⟩⟩
          exact hor.elim h.1 fun hl => hl h.2
      | false =>
        change _ ∧ _ ↔ _
        rw [hother, if_neg Bool.false_ne_true]
        have hstored : ∀ c, Spells c unit (slashed path) →
            (cMsgIntfPath (quoted false unit) (slashed path) = some (c.object, []) ↔ c.Small) := by
          intro c hc
          have hrun : cMsgIntfPath (quoted false unit) (slashed path) = _ := cMsgIntfPath_components hc
          rw [hrun, ← storedObject_iff c]
          exact ⟨fun h => (Prod.mk.inj (Option.some.inj h)).1, fun h => by rw [h]⟩
        constructor
        · rintro ⟨hlegal, herror⟩
          have hread := hsome ⟨hlegal, fun h => hother.2 (herror h)⟩
          refine ⟨rfl, fun h => hread (hnone.2 (Or.inr h)), fun h => hread (hnone.2 (Or.inl h)), ?_,
            fun c hc => (hstored c hc).1 (hlegal c hc)⟩
          intro hul hpl
          exact Classical.not_not.1 fun hno => (herror hno).2 ⟨hul, hpl⟩
        · rintro ⟨-, hbare, hopen, hacc, hsmall⟩
          refine ⟨fun c hc => (hstored c hc).2 (hsmall c hc), fun hno => ⟨fun h => h.elim hopen hbare, fun h => ?_⟩⟩
          exact hno (hacc h.1 h.2)

/-- **Exactly which parameters parse back**: see `ReadRight`. -/
theorem parses_back_iff {unit path : Text} (quotedUnit quotedPath : Bool) (hu : '"' ∉ unit) (ht : '"' ∉ path) :
    ParsesBack quotedUnit unit quotedPath path ↔ ReadRight quotedUnit unit quotedPath path :=
  parsesBack_iff quotedUnit quotedPath hu ht

/-- `Au[1]` and `/ctl/m[3]/req[2]` -/
theorem parses_back_iff_demo :
    ParsesBack false ['A', 'u', '[', '1', ']'] false
        ['/', 'c', 't', 'l', '/', 'm', '[', '3', ']', '/', 'r', 'e', 'q', '[', '2', ']'] ↔
      ReadRight false ['A', 'u', '[', '1', ']'] false
        ['/', 'c', 't', 'l', '/', 'm', '[', '3', ']', '/', 'r', 'e', 'q', '[', '2', ']'] :=
  parses_back_iff false false (by decide) (by decide)

/-- **A path in quotes** is lost. -/
theorem quoted_path_lost : ¬∀ (unit path : Text) (quotedUnit quotedPath : Bool), '"' ∉ unit → '"' ∉ path →
    ParsesBack quotedUnit unit quotedPath path := by
  intro hall
  have hread := hall ['A', 'u'] ['/', 'c', 't', 'l', '/', 'r', 'e', 'q'] false true (by decide) (by decide)
  exact Bool.noConfusion ((parsesBack_iff false true (by decide) (by decide)).1 hread).1

end OpenHT.Htl.MsgPath
