import Mathlib.Data.Nat.Notation

/-!
# `ExpandString`

An expansion `{...}` is a list of elements: texts, numeric ranges, replications, the bits of a constant, and texts around
nested lists.

* `Parsed`: how a call ends.
* `expandItems`, `expandText`: `ExpandString` behind its brace, and the text of one item.
* `expandString`: the call, which is never short of fuel (`expandString_ends`).
-/

namespace OpenHT.Vex

abbrev Str := List Char

instance : LawfulBEq Str := inferInstance

/-- How a call of `ExpandString` ends: with the text behind the expansion and the elements, with an error and the text
to go on with, or in something that C++ leaves undefined. -/
inductive Parsed
  | ok (src : Str) (expandedList : List Str)
  | error (src : Str)
  | undef
  | fuel
deriving DecidableEq

/-- `SkipToRBrace` -/
def skipToRBrace : Str → Str
  | [] => []
  | c :: s => if c = '}' then s else skipToRBrace s

/-- The value of a run of digits. -/
def digits (s : Str) : ℕ := (s.takeWhile Char.isDigit).foldl (fun v c => v * 10 + (c.toNat - 48)) 0

/-- An `int`, or an overflow. -/
def toInt (x : Int) : Option Int := if -2147483648 ≤ x ∧ x < 2147483648 then some x else none

/-- The text behind a character. -/
def eat (c : Char) : Str → Option Str
  | [] => none
  | d :: s => if d = c then some s else none

/-- The text behind a sign. -/
def skipSign (src : Str) : Str := ((eat '-' src).or (eat '+' src)).getD src

/-- `GetNum`, with the text behind the number. -/
def getNum (src : Str) : Option (Int × Str) := do
  let value ← toInt (digits (skipSign src))
  return (if src.head? = some '-' then -value else value, (skipSign src).dropWhile Char.isDigit)

/-- What stands before the text of an item: `expCount`, the text to go on with, and the elements so far. -/
inductive Prefix
  | next (expCount : ℕ) (src : Str) (expandedList : List Str)
  | error (src : Str)
  | undef
  | fuel

/-- A digit, or `-` and a digit. -/
def startsNumber (s : Str) : Bool := ((eat '-' s).getD s).head?.any Char.isDigit

/-- The elements of a numeric range, from the last to the first. -/
def rangeElems (base incBase inc incDiv : Int) : ℕ → Option (Option (List Str))
  | 0 => some (some [])
  | i + 1 => do
    let value ← if incDiv = 0 then none else toInt (base + (incBase + i * inc).tdiv incDiv)
    if value < 0 then return none
    let rest ← rangeElems base incBase inc incDiv i
    return rest.map ((Nat.toDigits 10 value.toNat) :: ·)

/-- The count of a numeric range, behind its second `:`. -/
def expandCount (base incBase inc incDiv : Int) (src : Str) (list : List Str) : Prefix :=
  if !(src.head?.any Char.isDigit) then .error (skipToRBrace src)
  else match getNum src with
    | none => .undef
    | some (expCount, src) =>
      if src.head? ≠ some ',' ∧ src.head? ≠ some '}' then .error (skipToRBrace src)
      else match rangeElems base incBase inc incDiv expCount.toNat with
        | none => .undef
        | some none => .error (skipToRBrace src)
        | some (some elems) => .next expCount.toNat src (list ++ elems)

/-- The numbers of a range before its second `:`, and the text from there. -/
def rangeNums (src : Str) : Option (Int × Int × Int × Str) := do
  let (inc, src) ← getNum src
  if src.head? = some '-' ∨ src.head? = some '+' then
    let (inc', src) ← getNum src
    match eat '/' src with
    | some src => (getNum src).map fun (incDiv, src) => (inc, inc', incDiv, src)
    | none => return (inc, inc', 1, src)
  else return (0, inc, 1, src)

/-- A numeric range, behind its first `:`. -/
def expandRange (base : Int) (src : Str) (list : List Str) : Prefix :=
  if !startsNumber src then .error (skipToRBrace src)
  else match rangeNums src with
    | none => .undef
    | some (incBase, inc, incDiv, src) =>
      match src with
      | [] => .undef
      | c :: src => if c = ':' then expandCount base incBase inc incDiv src list else .error (skipToRBrace src)

def hexDigit (c : Char) : ℕ := if c.isDigit then c.toNat - 48 else c.toLower.toNat - 97 + 10

def isXDigit (c : Char) : Bool := c.isDigit || ('a' ≤ c && c ≤ 'f') || ('A' ≤ c && c ≤ 'F')

/-- The apostrophe of a constant. -/
def quote : Char := Char.ofNat 39

/-- The bits of a `uint64`, from the highest. -/
def bitElems (value : ℕ) : ℕ → List Str
  | 0 => []
  | i + 1 => ['1', quote, 'b', if value.testBit i then '1' else '0'] :: bitElems value i

/-- The bits of a constant, behind its apostrophe. -/
def expandConst (width : ℕ) (src : Str) (list : List Str) : Prefix :=
  match src with
  | [] => .undef
  | c :: src =>
    if c ≠ 'b' ∧ c ≠ 'h' then .error (skipToRBrace src)
    else
      let isDig (d : Char) : Bool := if c = 'b' then d = '0' || d = '1' else isXDigit d
      let radix := if c = 'b' then 2 else 16
      let value := (src.takeWhile isDig).foldl (fun v d => (v * radix + hexDigit d) % 18446744073709551616) 0
      if 64 < width then .undef else .next width (src.dropWhile isDig) (list ++ bitElems value width)

/-- A replication of what `expand` has added to the list behind `startIdx`. -/
def expandReplication (base startIdx : ℕ) : Parsed → Prefix
  | .ok src list =>
    if src.head? ≠ some ',' ∧ src.head? ≠ some '}' then .error (skipToRBrace src)
    else .next ((list.length - startIdx) * base) src
      (list ++ (List.replicate (base - 1) (list.drop startIdx)).flatten)
  | .error src => .error src
  | .undef => .undef
  | .fuel => .fuel

attribute [local simp] OpenHT.Vex.expandReplication

/-- The start of an item. -/
def expandPrefix (expand : Str → List Str → Parsed) (src : Str) (list : List Str) : Prefix :=
  if !(src.head?.any Char.isDigit) then .next 0 src list
  else match getNum src with
    | none => .undef
    | some (_, []) => .next 0 src list
    | some (base, c :: s) =>
      if c = ':' then expandRange base s list
      else if c = '{' then expandReplication base.toNat list.length (expand s list)
      else if c = quote then expandConst base.toNat s list
      else .next 0 src list

/-- A text is added behind `expCount` elements from `startIdx` on. -/
def appendFrom (list : List Str) (startIdx expCount : ℕ) (buf : ℕ → Str) : Option (List Str) :=
  if list.length < startIdx + expCount then none
  else some (list.mapIdx fun i s => if startIdx ≤ i ∧ i < startIdx + expCount then s ++ buf (i - startIdx) else s)

/-- The end of an item. -/
def endItem (list : List Str) (startIdx expCount : ℕ) (buf : Str) : Option (List Str) :=
  if expCount = 0 then some (list ++ [buf])
  else if buf = [] then some list
  else appendFrom list startIdx expCount fun _ => buf

mutual

/-- The items of an expansion, behind its `{`. -/
def expandItems : ℕ → Str → List Str → Parsed
  | 0, _, _ => .fuel
  | f + 1, src, list =>
    match expandPrefix (expandItems f) (src.dropWhile (· = ' ')) list with
    | .error src => .error src
    | .undef => .undef
    | .fuel => .fuel
    | .next expCount src list =>
      match expandText f src list list.length expCount [] with
      | .ok [] _ => .error []
      | .ok (c :: src) list => if c = ',' then expandItems f src list else .ok src list
      | .error src => .error src
      | .undef => .undef
      | .fuel => .fuel

/-- The text of an item and the lists in it, up to its end. -/
def expandText : ℕ → Str → List Str → ℕ → ℕ → Str → Parsed
  | 0, _, _, _, _, _ => .fuel
  | f + 1, src, list, startIdx, expCount, buf =>
    if 255 < buf.length then .undef
    else match src with
      | [] =>
        match endItem list startIdx expCount buf with
        | none => .undef
        | some list => .ok [] list
      | c :: src' =>
        if c = '{' then
          match expandItems f src' [] with
          | .ok src localExpList =>
            if expCount = 0 then
              expandText f src (list ++ localExpList.map (buf ++ ·)) startIdx localExpList.length []
            else if expCount ≠ localExpList.length then .error (skipToRBrace src)
            else match appendFrom list startIdx expCount fun i => buf ++ localExpList.getD i [] with
              | none => .undef
              | some list => expandText f src list startIdx expCount []
          | .error src => .error src
          | .undef => .undef
          | .fuel => .fuel
        else if c = ',' ∨ c = '}' then
          match endItem list startIdx expCount buf with
          | none => .undef
          | some list => .ok src list
        else expandText f src' list startIdx expCount (buf ++ [c])

end

/-- `ExpandString`, behind its brace. -/
def expandString (src : Str) : Parsed := expandItems (2 * src.length + 2) src []

/-! ## Fuel -/

theorem skip_length (s : Str) (p : Char → Bool) : (s.dropWhile p).length ≤ s.length := by
  induction s with
  | nil => exact Nat.le_refl _
  | cons c s ih =>
    rw [List.dropWhile_cons]
    split
    · exact Nat.le_succ_of_le ih
    · exact Nat.le_refl _

theorem eat_length {c : Char} {src s : Str} (h : eat c src = some s) : s.length < src.length := by
  unfold eat at h
  split at h
  · cases h
  · split at h
    · cases h
      exact Nat.lt_succ_self _
    · cases h

theorem skipSign_length (src : Str) : (skipSign src).length ≤ src.length := by
  unfold skipSign
  cases hminus : eat '-' src with
  | some s => exact Nat.le_of_lt (eat_length hminus)
  | none =>
    cases hplus : eat '+' src with
    | some s => exact Nat.le_of_lt (eat_length hplus)
    | none => exact Nat.le_refl _

theorem getNum_length {src s : Str} {x : Int} (h : getNum src = some (x, s)) : s.length ≤ src.length := by
  unfold getNum at h
  obtain ⟨value, -, h⟩ := Option.bind_eq_some_iff.1 h
  cases h
  exact Nat.le_trans (skip_length _ _) (skipSign_length src)

theorem expandCount_length {base incBase inc incDiv : Int} {src s : Str} {list l : List Str} {c : ℕ}
    (h : expandCount base incBase inc incDiv src list = .next c s l) : s.length ≤ src.length := by
  unfold expandCount at h
  split at h
  · cases h
  · split at h
    · cases h
    · next hnum =>
      have hle := getNum_length hnum
      split at h
      · cases h
      · split at h
        · cases h
        · cases h
        · cases h
          exact hle

theorem rangeNums_length {src s : Str} {incBase inc incDiv : Int} (h : rangeNums src = some (incBase, inc, incDiv, s)) :
    s.length ≤ src.length := by
  unfold rangeNums at h
  obtain ⟨⟨inc₁, s₁⟩, h₁, h⟩ := Option.bind_eq_some_iff.1 h
  have hle₁ := getNum_length h₁
  simp only at h
  split at h
  · obtain ⟨⟨inc₂, s₂⟩, h₂, h⟩ := Option.bind_eq_some_iff.1 h
    have hle₂ := getNum_length h₂
    simp only at h
    split at h
    · next s₃ heat =>
      have hlt := eat_length heat
      obtain ⟨⟨div, s₄⟩, h₄, hs⟩ := Option.map_eq_some_iff.1 h
      have hle₄ : s₄.length ≤ s₃.length := getNum_length h₄
      simp only [Prod.mk.injEq] at hs
      obtain ⟨-, -, -, rfl⟩ := hs
      omega
    · cases h
      omega
  · cases h
    exact hle₁

theorem expandRange_length {base : Int} {src s : Str} {list l : List Str} {c : ℕ}
    (h : expandRange base src list = .next c s l) : s.length ≤ src.length := by
  unfold expandRange at h
  split at h
  · cases h
  · split at h
    · cases h
    · next hnums =>
      have hle := rangeNums_length hnums
      split at h
      · cases h
      · split at h
        · have hlt := expandCount_length h
          simp only [List.length_cons] at hle
          omega
        · cases h

theorem expandConst_length {width : ℕ} {src s : Str} {list l : List Str} {c : ℕ}
    (h : expandConst width src list = .next c s l) : s.length ≤ src.length := by
  unfold expandConst at h
  split at h
  · cases h
  · next c' src' =>
    split at h
    · cases h
    · simp only at h
      split at h
      · cases h
      · cases h
        refine Nat.le_trans (skip_length _ _) ?_
        simp

/-- The start of an item is not longer than the item. -/
theorem expandPrefix_length {expand : Str → List Str → Parsed}
    (hexpand : ∀ src list s l, expand src list = .ok s l → s.length ≤ src.length) {src s : Str} {list l : List Str} {c : ℕ}
    (h : expandPrefix expand src list = .next c s l) : s.length ≤ src.length := by
  unfold expandPrefix at h
  split at h
  · cases h
    exact Nat.le_refl _
  · split at h
    · cases h
    · cases h
      exact Nat.le_refl _
    · next base c' s₁ hnum =>
      have hle := getNum_length hnum
      rw [List.length_cons] at hle
      split at h
      · have hlt := expandRange_length h
        omega
      · split at h
        · unfold expandReplication at h
          split at h
          · next hok =>
            have hlt := hexpand _ _ _ _ hok
            split at h
            · cases h
            · cases h
              omega
          · cases h
          · cases h
          · cases h
        · split at h
          · have hlt := expandConst_length h
            omega
          · cases h
            exact Nat.le_refl _

theorem endItem_ne {list : List Str} {startIdx expCount : ℕ} {buf : Str} {src : Str} :
    (match endItem list startIdx expCount buf with
      | none => Parsed.undef
      | some list => .ok src list) ≠ .fuel := by
  split
  · exact Parsed.noConfusion
  · exact Parsed.noConfusion

/-- What is left is behind the expansion, or behind the text of the item. -/
theorem expand_length (f : ℕ) :
    (∀ src list s l, expandItems f src list = .ok s l → s.length < src.length) ∧
      ∀ src list startIdx expCount buf s l, expandText f src list startIdx expCount buf = .ok s l →
        s.length ≤ src.length := by
  induction f with
  | zero => exact ⟨fun _ _ _ _ h => Parsed.noConfusion h, fun _ _ _ _ _ _ _ h => Parsed.noConfusion h⟩
  | succ f ih =>
    obtain ⟨ihitems, ihtext⟩ := ih
    constructor
    · intro src list s l h
      rw [expandItems] at h
      split at h
      · cases h
      · cases h
      · cases h
      · next expCount src₁ list₁ hprefix =>
        have hle : src₁.length ≤ (src.dropWhile (· = ' ')).length :=
          expandPrefix_length (fun src list s l h => Nat.le_of_lt (ihitems src list s l h)) hprefix
        have hskip := skip_length src (· = ' ')
        split at h
        · cases h
        · next c src₂ list₂ htext =>
          have hle₂ := ihtext _ _ _ _ _ _ _ htext
          rw [List.length_cons] at hle₂
          split at h
          · have hlt := ihitems _ _ _ _ h
            omega
          · cases h
            omega
        · cases h
        · cases h
        · cases h
    · intro src list startIdx expCount buf s l h
      rw [expandText.eq_def] at h
      simp only at h
      split at h
      · cases h
      · split at h
        · split at h
          · cases h
          · cases h
            exact Nat.le_refl _
        · next c src₁ =>
          rw [List.length_cons]
          split at h
          · split at h
            · next hitems =>
              have hlt := ihitems _ _ _ _ hitems
              split at h
              · have hle := ihtext _ _ _ _ _ _ _ h
                omega
              · split at h
                · cases h
                · split at h
                  · cases h
                  · have hle := ihtext _ _ _ _ _ _ _ h
                    omega
            · cases h
            · cases h
            · cases h
          · split at h
            · split at h
              · cases h
              · cases h
                exact Nat.le_refl _
            · have hle := ihtext _ _ _ _ _ _ _ h
              omega

theorem expandCount_ends {base incBase inc incDiv : Int} {src : Str} {list : List Str} :
    expandCount base incBase inc incDiv src list ≠ .fuel := by
  intro h
  unfold expandCount at h
  split at h
  · cases h
  · split at h
    · cases h
    · split at h
      · cases h
      · split at h <;> cases h

theorem expandRange_ends {base : Int} {src : Str} {list : List Str} : expandRange base src list ≠ .fuel := by
  intro h
  unfold expandRange at h
  split at h
  · cases h
  · split at h
    · cases h
    · split at h
      · cases h
      · split at h
        · exact expandCount_ends h
        · cases h

theorem expandConst_ends {width : ℕ} {src : Str} {list : List Str} : expandConst width src list ≠ .fuel := by
  intro h
  unfold expandConst at h
  split at h
  · cases h
  · split at h
    · cases h
    · simp only at h
      split at h <;> cases h

/-- The start of an item is short of fuel only if a list in it is. -/
theorem expandPrefix_ends {expand : Str → List Str → Parsed} {src : Str} {list : List Str}
    (hexpand : ∀ s, s.length < src.length → expand s list ≠ .fuel) : expandPrefix expand src list ≠ .fuel := by
  intro h
  unfold expandPrefix at h
  split at h
  · cases h
  · split at h
    · cases h
    · cases h
    · next base c s₁ hnum =>
      have hle := getNum_length hnum
      rw [List.length_cons] at hle
      split at h
      · exact expandRange_ends h
      · split at h
        · unfold expandReplication at h
          split at h
          · split at h <;> cases h
          · cases h
          · cases h
          · next hfuel => exact hexpand s₁ (by omega) hfuel
        · split at h
          · exact expandConst_ends h
          · cases h

theorem expand_ends (f : ℕ) :
    (∀ src list, 2 * src.length + 2 ≤ f → expandItems f src list ≠ .fuel) ∧
      ∀ src list startIdx expCount buf, 2 * src.length + 1 ≤ f → expandText f src list startIdx expCount buf ≠ .fuel := by
  induction f with
  | zero => exact ⟨fun src _ h => by omega, fun src _ _ _ _ h => by omega⟩
  | succ f ih =>
    obtain ⟨ihitems, ihtext⟩ := ih
    constructor
    · intro src list hf h
      have hskip := skip_length src (· = ' ')
      rw [expandItems] at h
      split at h
      · cases h
      · cases h
      · next hprefix =>
        refine expandPrefix_ends (fun s hs => ihitems s list ?_) hprefix
        omega
      · next expCount src₁ list₁ hprefix =>
        have hle : src₁.length ≤ (src.dropWhile (· = ' ')).length :=
          expandPrefix_length (fun src list s l h => Nat.le_of_lt ((expand_length f).1 src list s l h)) hprefix
        have htextEnds := ihtext src₁ list₁ list₁.length expCount [] (by omega)
        split at h
        · cases h
        · next c src₂ list₂ htext =>
          have hle₂ := (expand_length f).2 _ _ _ _ _ _ _ htext
          rw [List.length_cons] at hle₂
          split at h
          · exact ihitems src₂ list₂ (by omega) h
          · cases h
        · cases h
        · cases h
        · next htext => exact htextEnds htext
    · intro src list startIdx expCount buf hf h
      rw [expandText.eq_def] at h
      simp only at h
      split at h
      · cases h
      · split at h
        · exact endItem_ne h
        · next c src₁ =>
          rw [List.length_cons] at hf
          split at h
          · split at h
            · next src₂ localExpList hitems =>
              have hlt := (expand_length f).1 _ _ _ _ hitems
              split at h
              · exact ihtext src₂ _ _ _ _ (by omega) h
              · split at h
                · cases h
                · split at h
                  · cases h
                  · exact ihtext src₂ _ _ _ _ (by omega) h
            · cases h
            · cases h
            · next hitems => exact ihitems src₁ [] (by omega) hitems
          · split at h
            · exact endItem_ne h
            · exact ihtext src₁ _ _ _ _ (by omega) h

/-- **A call ends**: the fuel is enough. -/
theorem expandString_ends (src : Str) : expandString src ≠ .fuel := (expand_ends _).1 src [] (Nat.le_refl _)

end OpenHT.Vex
