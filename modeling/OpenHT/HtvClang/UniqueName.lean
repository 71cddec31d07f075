import Mathlib.Data.List.Count
import Mathlib.Data.List.DropRight
import Mathlib.Data.List.Nodup
import Mathlib.Logic.Function.Basic

/-!
# Names of temporaries

`HtDesign::findUniqueName` makes the name of a temporary from a name, the file and the line, and a letter from the
second call on. One map counts the calls for a base and holds the names with letters too.

* `letter`: the character that is appended, the first of those the loop writes.
* `findUniqueName`: one call, `none` where the assertion fires or the buffer is too small.
* `run`: calls with identifiers, and with names that earlier calls returned.
* `Inv`: what the map and the names are after some calls.
* `unique_iff`: the calls whose names are all different.
-/

namespace OpenHT.HtvClang.UniqueName

abbrev Text := List Char

structure HtLineInfo where
  fileNum : ℤ
  lineNum : ℤ
deriving DecidableEq, Repr

/-- `%d` -/
def printInt (n : ℤ) : Text := if n < 0 then '-' :: Nat.toDigits 10 n.natAbs else Nat.toDigits 10 n.natAbs

/-- `sprintf(buf, "%s$%d$%d", ..)` -/
def printName (name : Text) (lineInfo : HtLineInfo) : Text :=
  name ++ '$' :: (printInt lineInfo.fileNum ++ '$' :: printInt lineInfo.lineNum)

/-- `string::find`, -1 if the character is not there. -/
def find (c : Char) (name : Text) : ℤ := if c ∈ name then name.idxOf c else -1

/-- The name up to its last digit. -/
def withoutSuffix (name : Text) : Text := name.rdropWhile fun c => !c.isDigit

/-- `letters[idx+1]`: the loop writes the letters from the last one on, and the first one is used. -/
def letter (i : ℕ) : Char :=
  if 0 < i / 26 then letter (i / 26) else .ofNat ('a'.toNat + (i - 1) % 26)
termination_by i
decreasing_by omega

/-- `m_uniqueNameMap`; a name that is not in the map gets the count 0 when it is inserted. -/
abbrev UniqueNameMap := Text → ℕ

/-- The name without a letter; `none` if it does not fit in the buffer of 128 characters. -/
def baseName (name : Text) (lineInfo : HtLineInfo) : Option Text :=
  if 0 < find '$' name then some (withoutSuffix name)
  else if (printName name lineInfo).length < 128 then some (printName name lineInfo) else none

/-- `HtDesign::findUniqueName` -/
def findUniqueName (map : UniqueNameMap) (name : Text) (lineInfo : HtLineInfo) : Option (Text × UniqueNameMap) := do
  let uniqName ← baseName name lineInfo
  if 0 < map uniqName then
    let temp := uniqName ++ [letter (map uniqName)]
    let map := Function.update map uniqName (map uniqName + 1)
    -- `assert(insertPair.first->second == 0)`
    if map temp = 0 then some (temp, Function.update map temp (map temp + 1)) else none
  else some (uniqName, Function.update map uniqName (map uniqName + 1))

/-! ## Calls -/

/-- The name of a call: an identifier, or the name that the call with this number returned. -/
inductive Arg
  | ident (name : Text)
  | returned (k : ℕ)
deriving DecidableEq, Repr

structure Call where
  arg : Arg
  lineInfo : HtLineInfo
deriving DecidableEq, Repr

/-- The map, and the names returned so far. -/
structure State where
  map : UniqueNameMap
  names : List Text

def State.initial : State := ⟨fun _ => 0, []⟩

def Arg.name (names : List Text) : Arg → Option Text
  | .ident name => some name
  | .returned k => names[k]?

def Call.run (c : Call) (s : State) : Option State := do
  let name ← c.arg.name s.names
  let (temp, map) ← findUniqueName s.map name c.lineInfo
  return ⟨map, s.names ++ [temp]⟩

def run : List Call → State → Option State
  | [], s => some s
  | c :: cs, s => (c.run s).bind (run cs)

/-- A nonempty word of letters, digits and `_`. -/
def IsIdentifier (name : Text) : Prop := name ≠ [] ∧ ∀ c ∈ name, c.isAlphanum = true ∨ c = '_'

/-- Identifiers, and names that `n` and the later calls have returned by then. -/
def Valid : ℕ → List Call → Prop
  | _, [] => True
  | n, c :: cs => (match c.arg with
      | .ident name => IsIdentifier name
      | .returned k => k < n) ∧ Valid (n + 1) cs

/-- The name and line that a call is about, where `bases` are those of the calls before. -/
def Call.base (bases : List Text) (c : Call) : Text :=
  match c.arg with
  | .ident name => printName name c.lineInfo
  | .returned k => bases.getD k []

def basesFrom : List Text → List Call → List Text
  | bases, [] => bases
  | bases, c :: cs => basesFrom (bases ++ [c.base bases]) cs

/-- The identifier of a call fits in the buffer with its line. -/
def Call.Fits (c : Call) : Prop := ∀ name, c.arg = .ident name → (printName name c.lineInfo).length < 128

/-! ## Bases and letters -/

def EndsInDigit (t : Text) : Prop := ∃ a c, t = a ++ [c] ∧ c.isDigit = true

theorem printInt_ends (n : ℤ) : EndsInDigit (printInt n) := by
  have hdigits : EndsInDigit (Nat.toDigits 10 n.natAbs) := by
    obtain ⟨a, c, h⟩ := (List.eq_nil_or_concat' (Nat.toDigits 10 n.natAbs)).resolve_left Nat.toDigits_ne_nil
    refine ⟨a, c, h, Nat.isDigit_of_mem_toDigits (b := 10) (n := n.natAbs) (by decide) (by decide) ?_⟩
    rw [h]
    exact List.mem_append_right _ List.mem_cons_self
  unfold printInt
  split
  · obtain ⟨a, c, h, hc⟩ := hdigits
    exact ⟨'-' :: a, c, congrArg _ h, hc⟩
  · exact hdigits

theorem printName_ends (name : Text) (lineInfo : HtLineInfo) : EndsInDigit (printName name lineInfo) := by
  obtain ⟨a, c, h, hc⟩ := printInt_ends lineInfo.lineNum
  refine ⟨name ++ '$' :: (printInt lineInfo.fileNum ++ '$' :: a), c, ?_, hc⟩
  unfold printName
  rw [h, List.append_assoc, List.cons_append, List.append_assoc, List.cons_append]

theorem letter_of_lt {i : ℕ} (h : i < 26) : letter i = .ofNat ('a'.toNat + (i - 1) % 26) := by
  unfold letter
  rw [if_neg (by omega)]

theorem letter_last : letter 26 = letter 1 := by
  rw [letter, if_pos (by decide)]

/-- A letter is no digit. -/
theorem letter_not_digit {i : ℕ} (h : i ≤ 26) : (letter i).isDigit = false := by
  by_cases hlt : i < 26
  · rw [letter_of_lt hlt]
    have hmod : (i - 1) % 26 < 26 := Nat.mod_lt _ (by decide)
    revert hmod
    generalize (i - 1) % 26 = k
    revert k
    decide
  · rw [show i = 26 by omega, letter_last, letter_of_lt (by decide)]
    decide

theorem letter_inj {i j : ℕ} (hi : 1 ≤ i ∧ i < 26) (hj : 1 ≤ j ∧ j < 26) (h : letter i = letter j) : i = j := by
  have hall : ∀ k < 25, ∀ l < 25, Char.ofNat ('a'.toNat + k) = Char.ofNat ('a'.toNat + l) → k = l := by decide
  rw [letter_of_lt hi.2, letter_of_lt hj.2, Nat.mod_eq_of_lt (by omega), Nat.mod_eq_of_lt (by omega)] at h
  have := hall (i - 1) (by omega) (j - 1) (by omega) h
  omega

/-- What the call number `j` for a base appends to it. -/
def suffix (j : ℕ) : Text := if j = 0 then [] else [letter j]

section

variable {b b' : Text} {i j : ℕ}

theorem suffix_zero : suffix 0 = [] := if_pos rfl

theorem suffix_of_pos (hj : 1 ≤ j) : suffix j = [letter j] := if_neg (by omega)

/-- A base with a letter is no base. -/
theorem not_endsInDigit (hj : 1 ≤ j ∧ j ≤ 26) : ¬EndsInDigit (b ++ suffix j) := by
  rintro ⟨a, c, h, hc⟩
  rw [suffix_of_pos hj.1] at h
  have hlast : letter j = c := (List.cons.inj (List.append_inj' h rfl).2).1
  rw [← hlast, letter_not_digit hj.2] at hc
  cases hc

theorem withoutSuffix_suffix (hb : EndsInDigit b) (hj : j ≤ 26) : withoutSuffix (b ++ suffix j) = b := by
  obtain ⟨a, c, rfl, hc⟩ := hb
  have hbase : withoutSuffix (a ++ [c]) = a ++ [c] := List.rdropWhile_concat_neg _ _ _ (by simp [hc])
  by_cases hz : j = 0
  · rw [hz, suffix_zero, List.append_nil]
    exact hbase
  · rw [suffix_of_pos (by omega)]
    exact (List.rdropWhile_concat_pos _ _ _ (by simp [letter_not_digit hj])).trans hbase

/-- **Base and number of a name** are found again. -/
theorem suffix_inj (hb : EndsInDigit b) (hb' : EndsInDigit b') (hi : i < 26) (hj : j < 26)
    (h : b ++ suffix i = b' ++ suffix j) : b = b' ∧ i = j := by
  have hbase : b = b' := by
    rw [← withoutSuffix_suffix hb (Nat.le_of_lt hi), h, withoutSuffix_suffix hb' (Nat.le_of_lt hj)]
  refine ⟨hbase, ?_⟩
  rw [hbase] at h
  have hsuffix : suffix i = suffix j := List.append_cancel_left h
  by_cases hi0 : i = 0
  · by_cases hj0 : j = 0
    · omega
    · rw [hi0, suffix_zero, suffix_of_pos (Nat.pos_of_ne_zero hj0)] at hsuffix
      cases hsuffix
  · by_cases hj0 : j = 0
    · rw [hj0, suffix_zero, suffix_of_pos (Nat.pos_of_ne_zero hi0)] at hsuffix
      cases hsuffix
    · rw [suffix_of_pos (Nat.pos_of_ne_zero hi0), suffix_of_pos (Nat.pos_of_ne_zero hj0)] at hsuffix
      exact letter_inj (by omega) (by omega) (List.cons.inj hsuffix).1

theorem IsIdentifier.dollar_notMem {name : Text} (hname : IsIdentifier name) : '$' ∉ name := by
  intro h
  rcases hname.2 _ h with h | h
  · exact absurd h (by decide)
  · exact absurd h (by decide)

/-- A temporary has a `$` after its identifier. -/
theorem find_temp {name rest : Text} (hname : IsIdentifier name) : 0 < find '$' (name ++ '$' :: rest) := by
  have hmem := hname.dollar_notMem
  have hpos : 0 < name.length := List.length_pos_of_ne_nil hname.1
  unfold find
  rw [if_pos (List.mem_append_right _ List.mem_cons_self), List.idxOf_append_of_notMem hmem, List.idxOf_cons_self]
  omega

theorem find_identifier {name : Text} (hname : IsIdentifier name) : ¬0 < find '$' name := by
  unfold find
  rw [if_neg hname.dollar_notMem]
  decide

end

/-! ## The names so far -/

/-- A text that starts with an identifier and a `$`. -/
def IsTemp (t : Text) : Prop := ∃ name rest, t = name ++ '$' :: rest ∧ IsIdentifier name

/-- The names that calls with these bases return: each base as often as it is there, with its letters. -/
structure Inv (s : State) (bases : List Text) : Prop where
  stripped : s.names.map withoutSuffix = bases
  temp : ∀ b ∈ bases, IsTemp b ∧ EndsInDigit b
  mem_names : ∀ t, t ∈ s.names ↔ ∃ b j, j < bases.count b ∧ t = b ++ suffix j
  nodup : s.names.Nodup
  count_le : ∀ b, bases.count b ≤ 26
  map_base : ∀ b, EndsInDigit b → s.map b = bases.count b
  map_temp : ∀ b j, EndsInDigit b → 1 ≤ j ∧ j ≤ 26 →
    s.map (b ++ suffix j) = if b ++ suffix j ∈ s.names then 1 else 0

section

variable {s : State} {bases : List Text} {b : Text}

theorem Inv.initial : Inv .initial [] where
  stripped := rfl
  temp b hb := (List.not_mem_nil hb).elim
  mem_names t := by simp [State.initial]
  nodup := List.nodup_nil
  count_le b := Nat.zero_le 26
  map_base b _ := rfl
  map_temp b j _ _ := rfl

theorem Inv.mem_temp (hi : Inv s bases) (hb : EndsInDigit b) {j : ℕ} (hj : j < 26) :
    b ++ suffix j ∈ s.names ↔ j < bases.count b := by
  rw [hi.mem_names]
  constructor
  · rintro ⟨b', j', hj', h⟩
    have hmem : b' ∈ bases := List.count_pos_iff.1 (by omega)
    have hle := hi.count_le b'
    obtain ⟨rfl, rfl⟩ := suffix_inj hb (hi.temp b' hmem).2 hj (by omega) h
    exact hj'
  · exact fun h => ⟨b, j, h, rfl⟩

/-- The base of a name with more than one call. -/
theorem findUniqueName_of_base (map : UniqueNameMap) {name : Text} {lineInfo : HtLineInfo}
    (h : baseName name lineInfo = some b) : findUniqueName map name lineInfo =
      if map b = 0 then some (b, Function.update map b 1)
      else if Function.update map b (map b + 1) (b ++ [letter (map b)]) = 0 then
        some (b ++ [letter (map b)], Function.update (Function.update map b (map b + 1)) (b ++ [letter (map b)])
          (Function.update map b (map b + 1) (b ++ [letter (map b)]) + 1))
      else none := by
  unfold findUniqueName
  rw [h]
  simp only [Option.bind_eq_bind, Option.bind_some]
  by_cases hz : map b = 0
  · rw [if_neg (by omega), if_pos hz, hz]
  · rw [if_pos (by omega), if_neg hz]

variable {name : Text} {lineInfo : HtLineInfo}

theorem ne_suffix (hb : EndsInDigit b) {b' : Text} {j : ℕ} (hj : 1 ≤ j ∧ j ≤ 26) : b' ++ suffix j ≠ b := by
  rintro rfl
  exact not_endsInDigit hj hb

/-- **One of the first 26 calls** for a base returns it with the next letter. -/
theorem Inv.call (hi : Inv s bases) (hbase : baseName name lineInfo = some b) (hb : EndsInDigit b)
    (hn : bases.count b < 26) : ∃ map', findUniqueName s.map name lineInfo = some (b ++ suffix (bases.count b), map') ∧
      map' b = bases.count b + 1 ∧ (1 ≤ bases.count b → map' (b ++ suffix (bases.count b)) = 1) ∧
      ∀ u, u ≠ b → u ≠ b ++ suffix (bases.count b) → map' u = s.map u := by
  have hmap := hi.map_base b hb
  rw [findUniqueName_of_base s.map hbase, hmap]
  by_cases hz : bases.count b = 0
  · rw [if_pos hz, hz, suffix_zero, List.append_nil]
    refine ⟨_, rfl, Function.update_self .., fun h => absurd h (by decide), fun u hu _ => ?_⟩
    exact Function.update_of_ne hu _ _
  · have hpos : 1 ≤ bases.count b ∧ bases.count b ≤ 26 := by omega
    have hne : b ++ suffix (bases.count b) ≠ b := ne_suffix hb hpos
    have hfree : b ++ suffix (bases.count b) ∉ s.names := by
      rw [hi.mem_temp hb hn]
      omega
    rw [if_neg hz, ← suffix_of_pos hpos.1]
    have hcount : Function.update s.map b (bases.count b + 1) (b ++ suffix (bases.count b)) = 0 := by
      rw [Function.update_of_ne hne, hi.map_temp b _ hb hpos, if_neg hfree]
    rw [if_pos hcount, hcount]
    refine ⟨_, rfl, ?_, fun _ => Function.update_self .., fun u hu hut => ?_⟩
    · rw [Function.update_of_ne hne.symm, Function.update_self]
    · rw [Function.update_of_ne hut, Function.update_of_ne hu]

/-- **The call after those** gets the first letter again, and the assertion fires. -/
theorem Inv.stuck (hi : Inv s bases) (hbase : baseName name lineInfo = some b) (hb : EndsInDigit b)
    (hn : bases.count b = 26) : findUniqueName s.map name lineInfo = none := by
  have hmap := hi.map_base b hb
  have hne : b ++ suffix 1 ≠ b := ne_suffix hb (by decide)
  have hused : b ++ suffix 1 ∈ s.names := by
    rw [hi.mem_temp hb (by decide)]
    omega
  have hcount : Function.update s.map b (26 + 1) (b ++ [letter 26]) = 1 := by
    rw [letter_last, ← suffix_of_pos (Nat.le_refl 1), Function.update_of_ne hne, hi.map_temp b 1 hb (by decide),
      if_pos hused]
  rw [findUniqueName_of_base s.map hbase, hmap, hn, if_neg (by decide), hcount, if_neg (by decide)]

/-- The names after a call. -/
theorem Inv.snoc (hi : Inv s bases) (ht : IsTemp b) (hb : EndsInDigit b) (hn : bases.count b < 26)
    {map' : UniqueNameMap} (hself : map' b = bases.count b + 1)
    (htemp : 1 ≤ bases.count b → map' (b ++ suffix (bases.count b)) = 1)
    (hframe : ∀ u, u ≠ b → u ≠ b ++ suffix (bases.count b) → map' u = s.map u) :
    Inv ⟨map', s.names ++ [b ++ suffix (bases.count b)]⟩ (bases ++ [b]) := by
  have hcount : ∀ b', (bases ++ [b]).count b' = bases.count b' + if b = b' then 1 else 0 := by
    intro b'
    rw [List.count_append, List.count_singleton]
    simp only [beq_iff_eq]
  have hnew : b ++ suffix (bases.count b) ∉ s.names := by
    rw [hi.mem_temp hb hn]
    omega
  have hbnew : ∀ b', EndsInDigit b' → b' = b ++ suffix (bases.count b) → b' = b := by
    intro b' hb' heq
    by_cases hz : bases.count b = 0
    · rw [heq, hz, suffix_zero, List.append_nil]
    · rw [heq] at hb'
      exact (not_endsInDigit (by omega) hb').elim
  refine ⟨?_, ?_, ?_, ?_, ?_, ?_, ?_⟩
  · rw [List.map_append, hi.stripped, List.map_singleton, withoutSuffix_suffix hb (by omega)]
  · intro b' hb'
    rcases List.mem_append.1 hb' with hb' | hb'
    · exact hi.temp b' hb'
    · obtain rfl := List.mem_singleton.1 hb'
      exact ⟨ht, hb⟩
  · intro t
    rw [List.mem_append, hi.mem_names, List.mem_singleton]
    constructor
    · rintro (⟨b', j, hj, rfl⟩ | rfl)
      · exact ⟨b', j, by rw [hcount]; omega, rfl⟩
      · exact ⟨b, _, by rw [hcount, if_pos rfl]; omega, rfl⟩
    · rintro ⟨b', j, hj, rfl⟩
      rw [hcount] at hj
      by_cases hlt : j < bases.count b'
      · exact Or.inl ⟨b', j, hlt, rfl⟩
      · by_cases heq : b = b'
        · subst heq
          rw [if_pos rfl] at hj
          rw [show j = bases.count b by omega]
          exact Or.inr rfl
        · rw [if_neg heq] at hj
          omega
  · exact List.nodup_append.2 ⟨hi.nodup, List.nodup_singleton _, fun x hx y hy => by
      obtain rfl := List.mem_singleton.1 hy
      exact fun h => hnew (h ▸ hx)⟩
  · intro b'
    have := hi.count_le b'
    rw [hcount]
    split
    · rename_i heq
      rw [← heq]
      omega
    · omega
  · intro b' hb'
    rw [hcount]
    by_cases heq : b = b'
    · rw [← heq, if_pos rfl]
      exact hself
    · rw [if_neg heq, ← hi.map_base b' hb']
      exact hframe b' (fun h => heq h.symm) fun h => heq (hbnew b' hb' h).symm
  · intro b' j hb' hj
    dsimp only
    by_cases heq : b' ++ suffix j = b ++ suffix (bases.count b)
    · have hpos : 1 ≤ bases.count b := by
        refine Nat.pos_of_ne_zero fun hz => ?_
        rw [hz, suffix_zero, List.append_nil] at heq
        exact ne_suffix hb hj heq
      rw [heq, if_pos (List.mem_append_right _ List.mem_cons_self)]
      exact htemp hpos
    · rw [hframe _ (ne_suffix hb hj) heq, hi.map_temp b' j hb' hj]
      have hiff : b' ++ suffix j ∈ s.names ++ [b ++ suffix (bases.count b)] ↔ b' ++ suffix j ∈ s.names := by
        rw [List.mem_append, List.mem_singleton]
        exact or_iff_left heq
      by_cases hmem : b' ++ suffix j ∈ s.names
      · rw [if_pos hmem, if_pos (hiff.2 hmem)]
      · rw [if_neg hmem, if_neg fun h => hmem (hiff.1 h)]

end

/-! ## Any calls -/

section

variable {s : State} {bases : List Text} {c : Call} {cs : List Call}

theorem IsTemp.find_pos {t : Text} (h : IsTemp t) : 0 < find '$' t := by
  obtain ⟨name, rest, rfl, hname⟩ := h
  exact find_temp hname

theorem IsTemp.append {t : Text} (h : IsTemp t) (u : Text) : IsTemp (t ++ u) := by
  obtain ⟨name, rest, rfl, hname⟩ := h
  exact ⟨name, rest ++ u, by rw [List.append_assoc, List.cons_append], hname⟩

/-- The name of a valid call leads to its base. -/
theorem Inv.base (hi : Inv s bases) (hv : Valid bases.length (c :: cs)) (hf : c.Fits) :
    ∃ name, c.arg.name s.names = some name ∧ baseName name c.lineInfo = some (c.base bases) ∧
      IsTemp (c.base bases) ∧ EndsInDigit (c.base bases) := by
  obtain ⟨arg, lineInfo⟩ := c
  obtain ⟨harg, -⟩ := hv
  cases arg with
  | ident name =>
    refine ⟨name, rfl, ?_, ⟨name, _, rfl, harg⟩, printName_ends name lineInfo⟩
    have hlen : (printName name lineInfo).length < 128 := hf name rfl
    unfold baseName
    rw [if_neg (find_identifier harg), if_pos hlen]
    rfl
  | returned k =>
    have hk : k < bases.length := harg
    have hlen : s.names.length = bases.length := by rw [← hi.stripped, List.length_map]
    have hmem : s.names[k] ∈ s.names := List.getElem_mem (by omega)
    have hbase : withoutSuffix s.names[k] = bases[k] := by
      have h := List.getElem_map withoutSuffix (l := s.names) (i := k) (h := by rw [List.length_map]; omega)
      rw [← h]
      simp only [hi.stripped]
    have hbases : (Call.mk (.returned k) lineInfo).base bases = bases[k] := by
      change bases.getD k [] = bases[k]
      rw [List.getD_eq_getElem?_getD, List.getElem?_eq_getElem hk, Option.getD_some]
    obtain ⟨b, j, hj, hname⟩ := (hi.mem_names _).1 hmem
    have htemp : IsTemp s.names[k] := by
      rw [hname]
      exact (hi.temp b (List.count_pos_iff.1 (by omega))).1.append _
    rw [hbases]
    refine ⟨s.names[k], List.getElem?_eq_getElem (by omega), ?_, hi.temp _ (List.getElem_mem hk)⟩
    unfold baseName
    rw [if_pos htemp.find_pos, hbase]

/-- An identifier that does not fit overruns the buffer. -/
theorem run_of_not_fits {n : ℕ} (hv : Valid n (c :: cs)) (hf : ¬c.Fits) : c.run s = none := by
  obtain ⟨arg, lineInfo⟩ := c
  obtain ⟨harg, -⟩ := hv
  cases arg with
  | ident name =>
    have hlen : ¬(printName name lineInfo).length < 128 := fun h => hf fun name' h' => by
      rw [← Arg.ident.inj h']
      exact h
    have hbase : baseName name lineInfo = none := by
      unfold baseName
      rw [if_neg (find_identifier harg), if_neg hlen]
    unfold Call.run findUniqueName Arg.name
    simp only [hbase, Option.bind_eq_bind, Option.bind_none, Option.bind_some]
  | returned k => exact (hf fun name h => by cases h).elim

theorem count_le_basesFrom (b : Text) (bases : List Text) (cs : List Call) :
    bases.count b ≤ (basesFrom bases cs).count b := by
  induction cs generalizing bases with
  | nil => exact Nat.le_refl _
  | cons c cs ih =>
    have h := ih (bases ++ [c.base bases])
    rw [List.count_append] at h
    rw [basesFrom]
    omega

/-- **From any names so far** the calls return different names if none is the 27th for its base. -/
theorem run_iff (hi : Inv s bases) (hv : Valid bases.length cs) :
    (∃ s', run cs s = some s' ∧ s'.names.Nodup) ↔
      (∀ c ∈ cs, c.Fits) ∧ ∀ b, (basesFrom bases cs).count b ≤ 26 := by
  induction cs generalizing s bases with
  | nil => exact iff_of_true ⟨s, rfl, hi.nodup⟩ ⟨fun c hc => (List.not_mem_nil hc).elim, hi.count_le⟩
  | cons c cs ih =>
    rw [List.forall_mem_cons, run]
    by_cases hf : c.Fits
    · obtain ⟨name, hname, hbase, ht, hb⟩ := hi.base hv hf
      by_cases hn : bases.count (c.base bases) < 26
      · obtain ⟨map', hfind, hself, htemp, hframe⟩ := hi.call hbase hb hn
        have hcall : c.run s = some ⟨map', s.names ++ [c.base bases ++ suffix (bases.count (c.base bases))]⟩ := by
          unfold Call.run
          rw [hname]
          simp only [Option.bind_eq_bind, Option.bind_some, hfind]
          rfl
        have hv' : Valid (bases ++ [c.base bases]).length cs := by
          rw [List.length_append]
          exact hv.2
        rw [hcall, Option.bind_some, ih (hi.snoc ht hb hn hself htemp hframe) hv', and_assoc]
        exact ⟨fun h => ⟨hf, h⟩, fun h => h.2⟩
      · have hfull : bases.count (c.base bases) = 26 := by
          have := hi.count_le (c.base bases)
          omega
        have hcall : c.run s = none := by
          unfold Call.run
          rw [hname]
          simp only [Option.bind_eq_bind, Option.bind_some, hi.stuck hbase hb hfull]
          rfl
        rw [hcall]
        refine iff_of_false (fun ⟨s', h, _⟩ => by cases h) fun h => ?_
        have hle := h.2 (c.base bases)
        have hge := count_le_basesFrom (c.base bases) (bases ++ [c.base bases]) cs
        rw [List.count_append, List.count_singleton_self] at hge
        rw [basesFrom] at hle
        omega
    · rw [run_of_not_fits hv hf]
      exact iff_of_false (fun ⟨s', h, _⟩ => by cases h) fun h => hf h.1.1

end

/-- **Temporary names are unique**: every call returns, and no name comes twice. -/
def Unique (cs : List Call) : Prop := ∃ s, run cs .initial = some s ∧ s.names.Nodup

/-- **Exactly up to 26 calls for a name and line** the names are unique, where a call for a name that was returned
counts for its base, and where the base fits in the buffer. -/
theorem unique_iff {cs : List Call} (hv : Valid 0 cs) :
    Unique cs ↔ (∀ c ∈ cs, c.Fits) ∧ ∀ b, (basesFrom [] cs).count b ≤ 26 :=
  run_iff .initial hv

def demoCalls : List Call :=
  [⟨.ident ['a', 'i'], ⟨3, 37⟩⟩, ⟨.ident ['a', 'i'], ⟨3, 37⟩⟩, ⟨.returned 1, ⟨4, 1⟩⟩]

theorem ai_identifier : IsIdentifier ['a', 'i'] := by
  refine ⟨List.cons_ne_nil _ _, fun c hc => ?_⟩
  simp only [List.mem_cons, List.not_mem_nil, or_false] at hc
  rcases hc with rfl | rfl
  · exact Or.inl rfl
  · exact Or.inl rfl

theorem demoCalls_valid : Valid 0 demoCalls := by
  refine ⟨ai_identifier, ai_identifier, ?_, trivial⟩
  change 1 < 2
  omega

theorem unique_iff_demo :
    Unique demoCalls ↔ (∀ c ∈ demoCalls, c.Fits) ∧ ∀ b, (basesFrom [] demoCalls).count b ≤ 26 :=
  unique_iff demoCalls_valid

/-- A temporary for an index, 27 times on one line. -/
def manyCalls : List Call := List.replicate 27 ⟨.ident ['a', 'i'], ⟨3, 37⟩⟩

/-- **The 27th temporary of a line** gets the letter of the second one. -/
theorem many_not_unique : ¬∀ cs, Valid 0 cs → Unique cs := by
  intro hall
  have hvalid : ∀ n k, Valid k (List.replicate n ⟨.ident ['a', 'i'], ⟨3, 37⟩⟩) := by
    intro n
    induction n with
    | zero => exact fun _ => trivial
    | succ n ih => exact fun k => ⟨ai_identifier, ih (k + 1)⟩
  have hle := ((run_iff .initial (hvalid 27 0)).1 (hall manyCalls (hvalid 27 0))).2 (printName ['a', 'i'] ⟨3, 37⟩)
  have hbases : ∀ n (bases : List Text), (basesFrom bases (List.replicate n ⟨.ident ['a', 'i'], ⟨3, 37⟩⟩)).count
      (printName ['a', 'i'] ⟨3, 37⟩) = bases.count (printName ['a', 'i'] ⟨3, 37⟩) + n := by
    intro n
    induction n with
    | zero => exact fun _ => rfl
    | succ n ih =>
      intro bases
      rw [List.replicate_succ, basesFrom, ih]
      have hbase : (Call.mk (.ident ['a', 'i']) ⟨3, 37⟩).base bases = printName ['a', 'i'] ⟨3, 37⟩ := rfl
      rw [hbase, List.count_append, List.count_singleton_self]
      omega
  rw [hbases 27] at hle
  exact absurd hle (by decide)

end OpenHT.HtvClang.UniqueName
