import OpenHT.Htl.StructElemRun

/-!
# The names of the elements

`GetHeirFieldName` prints the path of an element: the names of the records it is in, with their indices, and its own. As
the names in one scope differ, so do the paths, and the path can be read off the name.

* `Tok`, `pathText`: a path and its text.
* `WellNamed`: the names of a scope differ, those in unnamed records included.
* `texts_nodup`: the names of all elements of a record differ.
* `struct_elem_iter`: what holds of the iterator.
-/

namespace OpenHT.Htl.StructElem

open RowMajor

/-! ## Paths -/

/-- A part of a path. -/
inductive Tok
  | name (n : Str)
  | index (i : ℕ)
deriving DecidableEq, Repr

/-- The characters that start a part. -/
def isSep (c : Char) : Bool := c = '.' || c = '['

/-- An identifier has no separators. -/
def Ident (n : Str) : Prop := ∀ c ∈ n, isSep c = false

instance (n : Str) : Decidable (Ident n) := inferInstanceAs (Decidable (∀ c ∈ n, isSep c = false))

namespace Tok

def sep : Tok → Char
  | name _ => '.'
  | index _ => '['

def body : Tok → Str
  | name n => n
  | index i => Nat.toDigits 10 i ++ [']']

/-- Names in a path are not empty. -/
def Ok : Tok → Prop
  | name n => Ident n ∧ n ≠ []
  | index _ => True

def text (t : Tok) : Str := t.sep :: t.body

theorem isSep_sep (t : Tok) : isSep t.sep = true := by
  cases t with
  | name n => rfl
  | index i => rfl

theorem toDigits_inj {i j : ℕ} (h : Nat.toDigits 10 i = Nat.toDigits 10 j) : i = j := by
  rw [← Nat.ofDigitChars_ten_toDigits (n := i), h, Nat.ofDigitChars_ten_toDigits]

theorem body_ident {t : Tok} (h : t.Ok) : ∀ c ∈ t.body, isSep c = false := by
  cases t with
  | name n => exact h.1
  | index i =>
    intro c hc
    rcases List.mem_append.1 hc with hc | hc
    · have hdigit := Nat.isDigit_of_mem_toDigits (by decide) (by decide) hc
      cases hsep : isSep c with
      | false => rfl
      | true =>
        -- a separator is no digit
        rcases Bool.or_eq_true_iff.1 hsep with h' | h'
        · rw [of_decide_eq_true h'] at hdigit
          exact absurd hdigit (by decide)
        · rw [of_decide_eq_true h'] at hdigit
          exact absurd hdigit (by decide)
    · rw [List.mem_singleton.1 hc]
      decide

theorem text_inj {t u : Tok} (hsep : t.sep = u.sep) (hbody : t.body = u.body) : t = u := by
  cases t with
  | name n =>
    cases u with
    | name k => rw [show n = k from hbody]
    | index j => exact absurd (show '.' = '[' from hsep) (by decide)
  | index i =>
    cases u with
    | name k => exact absurd (show '[' = '.' from hsep) (by decide)
    | index j =>
      have hdigits : Nat.toDigits 10 i = Nat.toDigits 10 j := List.append_cancel_right hbody
      rw [toDigits_inj hdigits]

end Tok

def tokText (path : List Tok) : Str := path.flatMap Tok.text

/-- A text behind a part ends or starts with a separator. -/
theorem tokText_head (path : List Tok) : ∀ c ∈ (tokText path).head?, isSep c = true := by
  cases path with
  | nil => simp [tokText]
  | cons t path =>
    intro c hc
    obtain rfl : t.sep = c := by simpa [tokText, Tok.text] using hc
    exact t.isSep_sep

/-- A part ends where the next separator is. -/
theorem takeWhile_body {b rest : Str} (hb : ∀ c ∈ b, isSep c = false) (hr : ∀ c ∈ rest.head?, isSep c = true) :
    (b ++ rest).takeWhile (fun c => !isSep c) = b := by
  induction b with
  | nil =>
    cases rest with
    | nil => rfl
    | cons c cs =>
      have hc : isSep c = true := hr c rfl
      simp [hc]
  | cons c cs ih =>
    have hc := hb c List.mem_cons_self
    have hcs := ih fun d hd => hb d (List.mem_cons_of_mem c hd)
    simp only [List.cons_append, List.takeWhile_cons, hc, Bool.not_false, if_true, hcs]

theorem tokText_inj : ∀ {p q : List Tok}, (∀ t ∈ p, t.Ok) → (∀ t ∈ q, t.Ok) → tokText p = tokText q → p = q := by
  intro p
  induction p with
  | nil =>
    intro q _ _ h
    cases q with
    | nil => rfl
    | cons u q => cases h
  | cons t p ih =>
    intro q hp hq h
    cases q with
    | nil => cases h
    | cons u q =>
      have h' : t.sep :: (t.body ++ tokText p) = u.sep :: (u.body ++ tokText q) := h
      obtain ⟨hsep, hrest⟩ := List.cons.inj h'
      have hbody : t.body = u.body := by
        rw [← takeWhile_body (Tok.body_ident (hp t List.mem_cons_self)) (tokText_head p), hrest,
          takeWhile_body (Tok.body_ident (hq u List.mem_cons_self)) (tokText_head q)]
      have htu := Tok.text_inj hsep hbody
      rw [hbody] at hrest
      have hpq := ih (fun v hv => hp v (List.mem_cons_of_mem t hv)) (fun v hv => hq v (List.mem_cons_of_mem u hv))
        (List.append_cancel_left hrest)
      rw [htu, hpq]

/-- The name of a record: its path without the dot in front. -/
def heirOf : List Tok → Str
  | .name n :: path => n ++ tokText path
  | path => tokText path

/-- The name of an element, with the dot that is printed in front of all names. -/
def pathText : List Tok → Str
  | .index i :: path => '.' :: tokText (.index i :: path)
  | path => tokText path

theorem pathText_inj {p q : List Tok} (hp : ∀ t ∈ p, t.Ok) (hq : ∀ t ∈ q, t.Ok) (h : pathText p = pathText q) : p = q := by
  apply tokText_inj hp hq
  -- behind the first dot there is a bracket or the start of a name
  have hname : ∀ {n : Str} {r r' : List Tok} {i : ℕ}, (Tok.name n).Ok → pathText (.name n :: r) ≠ pathText (.index i :: r') := by
    intro n r r' i hok heq
    cases n with
    | nil => exact hok.2 rfl
    | cons c cs =>
      have hc : isSep c = false := hok.1 c List.mem_cons_self
      have heq' : '.' :: c :: (cs ++ tokText r) = '.' :: '[' :: (Nat.toDigits 10 i ++ [']'] ++ tokText r') := heq
      rw [(List.cons.inj (List.cons.inj heq').2).1] at hc
      exact absurd hc (by decide)
  cases p with
  | nil =>
    cases q with
    | nil => rfl
    | cons u q =>
      cases u with
      | name n => exact h
      | index j => cases h
  | cons t p =>
    cases t with
    | name n =>
      cases q with
      | nil => exact h
      | cons u q =>
        cases u with
        | name k => exact h
        | index j => exact absurd h (hname (hp _ List.mem_cons_self))
    | index i =>
      cases q with
      | nil => cases h
      | cons u q =>
        cases u with
        | name k => exact absurd h.symm (hname (hq _ List.mem_cons_self))
        | index j => exact (List.cons.inj h).2

/-! ## The paths of a record -/

def nameToks (n : Str) : List Tok := if n = [] then [] else [.name n]

/-- The path of a field's element in its record. -/
def fieldPath (f : CField) (idx : List ℕ) : List Tok := nameToks f.name ++ idx.map .index

/-- The paths of the elements of a record, in the order of `leaves`. -/
def paths (m : Mode) : Fields → List (List Tok)
  | .nil => []
  | .int f _ rest => (indices f.dimenList).map (fieldPath f) ++ paths m rest
  | .record f fields rest =>
    (if m.follows f then (indices f.dimenList).flatMap fun idx => (paths m fields).map (fieldPath f idx ++ ·)
    else (indices f.dimenList).map (fieldPath f)) ++ paths m rest

/-- The names in the scope of a record. Those in an unnamed record belong to the record around it. -/
def scope : Fields → List Str
  | .nil => []
  | .int f _ rest => f.name :: scope rest
  | .record f fields rest => (if f.name = [] then scope fields else [f.name]) ++ scope rest

/-- All names are identifiers, only records are unnamed, and the names of a scope differ. -/
def WellNamed : Fields → Prop
  | .nil => True
  | .int f _ rest => Ident f.name ∧ f.name ≠ [] ∧ f.name ∉ scope rest ∧ WellNamed rest
  | .record f fields rest =>
    Ident f.name ∧ WellNamed fields ∧ (∀ n ∈ (if f.name = [] then scope fields else [f.name]), n ∉ scope rest) ∧
      WellNamed rest

/-- The first name on a path. -/
def firstName : List Tok → Option Str
  | [] => none
  | .name n :: _ => some n
  | .index _ :: path => firstName path

section

variable {m : Mode}

theorem firstName_index (idx : List ℕ) (path : List Tok) : firstName (idx.map .index ++ path) = firstName path := by
  induction idx with
  | nil => rfl
  | cons i is ih => exact ih

theorem fieldPath_ok {f : CField} (h : Ident f.name) (idx : List ℕ) : ∀ t ∈ fieldPath f idx, t.Ok := by
  intro t ht
  rcases List.mem_append.1 ht with ht | ht
  · unfold nameToks at ht
    split at ht
    · cases ht
    · rename_i hne
      rw [List.mem_singleton.1 ht]
      exact ⟨h, hne⟩
  · obtain ⟨i, -, rfl⟩ := List.mem_map.1 ht
    trivial

theorem paths_ok {fs : Fields} (h : WellNamed fs) : ∀ p ∈ paths m fs, ∀ t ∈ p, t.Ok := by
  induction fs with
  | nil => exact fun p hp => absurd hp List.not_mem_nil
  | int f fldWidth rest ih =>
    obtain ⟨hident, -, -, hrest⟩ := h
    intro p hp
    rcases List.mem_append.1 hp with hp | hp
    · obtain ⟨idx, -, rfl⟩ := List.mem_map.1 hp
      exact fieldPath_ok hident idx
    · exact ih hrest p hp
  | record f fields rest ihf ih =>
    obtain ⟨hident, hfields, -, hrest⟩ := h
    intro p hp
    rcases List.mem_append.1 hp with hp | hp
    · split at hp
      · obtain ⟨idx, -, hp⟩ := List.mem_flatMap.1 hp
        obtain ⟨q, hq, rfl⟩ := List.mem_map.1 hp
        intro t ht
        rcases List.mem_append.1 ht with ht | ht
        · exact fieldPath_ok hident idx t ht
        · exact ihf hfields q hq t ht
      · obtain ⟨idx, -, rfl⟩ := List.mem_map.1 hp
        exact fieldPath_ok hident idx
    · exact ih hrest p hp

theorem firstName_fieldPath {f : CField} (h : f.name ≠ []) (idx : List ℕ) (path : List Tok) :
    firstName (fieldPath f idx ++ path) = some f.name := by
  unfold fieldPath nameToks
  rw [if_neg h]
  rfl

/-- The first name of a path is in the scope. -/
theorem firstName_mem {fs : Fields} (h : WellNamed fs) : ∀ p ∈ paths m fs, ∃ n ∈ scope fs, firstName p = some n := by
  induction fs with
  | nil => exact fun p hp => absurd hp List.not_mem_nil
  | int f fldWidth rest ih =>
    obtain ⟨-, hne, -, hrest⟩ := h
    intro p hp
    rcases List.mem_append.1 hp with hp | hp
    · obtain ⟨idx, -, rfl⟩ := List.mem_map.1 hp
      have hfirst := firstName_fieldPath hne idx []
      rw [List.append_nil] at hfirst
      exact ⟨f.name, List.mem_cons_self, hfirst⟩
    · obtain ⟨n, hn, hfirst⟩ := ih hrest p hp
      exact ⟨n, List.mem_cons_of_mem _ hn, hfirst⟩
  | record f fields rest ihf ih =>
    obtain ⟨-, hfields, -, hrest⟩ := h
    intro p hp
    rcases List.mem_append.1 hp with hp | hp
    · by_cases hname : f.name = []
      · have hfol : m.follows f = true := by simp [Mode.follows, hname]
        rw [if_pos hfol] at hp
        obtain ⟨idx, -, hp⟩ := List.mem_flatMap.1 hp
        obtain ⟨q, hq, rfl⟩ := List.mem_map.1 hp
        obtain ⟨n, hn, hfirst⟩ := ihf hfields q hq
        refine ⟨n, List.mem_append_left _ (by rw [if_pos hname]; exact hn), ?_⟩
        unfold fieldPath nameToks
        rw [if_pos hname, List.nil_append, firstName_index, hfirst]
      · refine ⟨f.name, List.mem_append_left _ (by rw [if_neg hname]; exact List.mem_singleton.2 rfl), ?_⟩
        split at hp
        · obtain ⟨idx, -, hp⟩ := List.mem_flatMap.1 hp
          obtain ⟨q, -, rfl⟩ := List.mem_map.1 hp
          exact firstName_fieldPath hname idx q
        · obtain ⟨idx, -, rfl⟩ := List.mem_map.1 hp
          have hfirst := firstName_fieldPath hname idx []
          rwa [List.append_nil] at hfirst
    · obtain ⟨n, hn, hfirst⟩ := ih hrest p hp
      exact ⟨n, List.mem_append_right _ hn, hfirst⟩

theorem length_of_inRange {dims idx : List ℕ} (h : InRange dims idx) : idx.length = dims.length := by
  induction dims generalizing idx with
  | nil =>
    cases idx with
    | nil => rfl
    | cons i is => cases h
  | cons d ds ih =>
    cases idx with
    | nil => cases h
    | cons i is => rw [List.length_cons, List.length_cons, ih h.2]

/-- Elements at different indices have different paths. -/
theorem fieldPath_append_inj {f : CField} {idx idx' : List ℕ} (h : idx ∈ indices f.dimenList)
    (h' : idx' ∈ indices f.dimenList) {p p' : List Tok} (heq : fieldPath f idx ++ p = fieldPath f idx' ++ p') :
    idx = idx' := by
  have hlen : (idx.map Tok.index).length = (idx'.map Tok.index).length := by
    rw [List.length_map, List.length_map, length_of_inRange (mem_indices.1 h), length_of_inRange (mem_indices.1 h')]
  unfold fieldPath at heq
  rw [List.append_assoc, List.append_assoc] at heq
  obtain ⟨hidx, -⟩ := List.append_inj (List.append_cancel_left heq) hlen
  exact List.map_injective_iff.2 (fun i j hij => Tok.index.inj hij) hidx

theorem fieldPaths_nodup (f : CField) : ((indices f.dimenList).map (fieldPath f)).Nodup := by
  refine List.Nodup.map_on ?_ indices_nodup
  intro idx h idx' h' heq
  exact @fieldPath_append_inj _ _ _ h h' [] [] (by rw [heq])

/-- Fields with names of their own have no path in common. -/
theorem disjoint_of_firstName {l l' : List (List Tok)} {names names' : List Str}
    (h : ∀ p ∈ l, ∃ n ∈ names, firstName p = some n) (h' : ∀ p ∈ l', ∃ n ∈ names', firstName p = some n)
    (hd : ∀ n ∈ names, n ∉ names') : List.Disjoint l l' := by
  intro p hp hp'
  obtain ⟨n, hn, hfirst⟩ := h p hp
  obtain ⟨n', hn', hfirst'⟩ := h' p hp'
  obtain rfl := Option.some.inj (hfirst.symm.trans hfirst')
  exact hd n hn hn'

theorem paths_nodup {fs : Fields} (h : WellNamed fs) : (paths m fs).Nodup := by
  induction fs with
  | nil => exact List.nodup_nil
  | int f fldWidth rest ih =>
    obtain ⟨-, hne, hnot, hrest⟩ := id h
    refine List.nodup_append'.2 ⟨fieldPaths_nodup f, ih hrest, ?_⟩
    refine @disjoint_of_firstName _ _ [f.name] _ ?_ (firstName_mem hrest) ?_
    · intro p hp
      obtain ⟨idx, -, rfl⟩ := List.mem_map.1 hp
      have hfirst := firstName_fieldPath hne idx []
      rw [List.append_nil] at hfirst
      exact ⟨f.name, List.mem_singleton.2 rfl, hfirst⟩
    · intro n hn
      rw [List.mem_singleton.1 hn]
      exact hnot
  | record f fields rest ihf ih =>
    obtain ⟨hident, hfields, hnot, hrest⟩ := id h
    refine List.nodup_append'.2 ⟨?_, ih hrest, ?_⟩
    · split
      · rw [List.nodup_flatMap]
        refine ⟨?_, ?_⟩
        · intro idx _
          exact (ihf hfields).map (List.append_right_injective _)
        · refine List.Pairwise.imp_of_mem ?_ (@indices_nodup f.dimenList)
          intro idx idx' hidx hidx' hne p hp hp'
          obtain ⟨q, -, rfl⟩ := List.mem_map.1 hp
          obtain ⟨q', -, heq⟩ := List.mem_map.1 hp'
          exact hne (fieldPath_append_inj hidx hidx' heq.symm)
      · exact fieldPaths_nodup f
    · -- the record alone is a well-named list of fields
      have hone : WellNamed (.record f fields .nil) := ⟨hident, hfields, fun _ _ => List.not_mem_nil, trivial⟩
      have hpaths : paths m (.record f fields .nil) ++ paths m rest = paths m (.record f fields rest) := by
        simp only [paths, List.append_nil]
      have hfirst := firstName_mem (m := m) hone
      simp only [paths, List.append_nil, scope] at hfirst
      exact disjoint_of_firstName hfirst (firstName_mem hrest) hnot

/-! ## The texts -/

theorem tokText_index (idx : List ℕ) : tokText (idx.map .index) = indexText idx := by
  unfold tokText indexText
  rw [List.flatMap_map]
  rfl

theorem tokText_append (p q : List Tok) : tokText (p ++ q) = tokText p ++ tokText q := List.flatMap_append

/-- A path that is not empty has a text. -/
theorem heirOf_eq_nil {h : List Tok} (hok : ∀ t ∈ h, t.Ok) : heirOf h = [] ↔ h = [] := by
  cases h with
  | nil => simp [heirOf, tokText]
  | cons t h =>
    cases t with
    | name n =>
      have hne : n ≠ [] := (hok _ List.mem_cons_self).2
      simp [heirOf, hne]
    | index i => simp [heirOf, tokText, Tok.text]

theorem heirOf_append {h : List Tok} (hne : h ≠ []) (p : List Tok) : heirOf (h ++ p) = heirOf h ++ tokText p := by
  cases h with
  | nil => exact absurd rfl hne
  | cons t h =>
    cases t with
    | name n => simp only [List.cons_append, heirOf, tokText_append, List.append_assoc]
    | index i => exact tokText_append (.index i :: h) p

theorem heirText_eq {h : List Tok} (hok : ∀ t ∈ h, t.Ok) (f : CField) (idx : List ℕ) :
    heirText (heirOf h) f.name idx = heirOf (h ++ fieldPath f idx) := by
  unfold heirText fieldPath nameToks
  by_cases hname : f.name = []
  · rw [if_pos hname, if_pos hname, List.nil_append]
    by_cases hh : h = []
    · rw [hh, List.nil_append, ← tokText_index]
      cases idx <;> rfl
    · rw [heirOf_append hh, tokText_index]
  · rw [if_neg hname, if_neg hname]
    by_cases hh : h = []
    · rw [if_pos ((heirOf_eq_nil hok).2 hh), hh]
      simp only [heirOf, tokText, List.flatMap_nil, List.nil_append, List.singleton_append]
      rw [← tokText_index]
      rfl
    · rw [if_neg fun he => hh ((heirOf_eq_nil hok).1 he), heirOf_append hh, List.singleton_append, ← tokText_index]
      simp [tokText, Tok.text, Tok.sep, Tok.body]

theorem elem_text {h : List Tok} (hok : ∀ t ∈ h, t.Ok) {f : CField} (hname : f.name ≠ []) (idx : List ℕ)
    (pos width : ℕ) (b : Bool) :
    (⟨heirOf h, f.name, idx, pos, width, b⟩ : Elem).text = pathText (h ++ fieldPath f idx) := by
  unfold Elem.text fieldPath nameToks
  rw [if_neg hname]
  by_cases hh : h = []
  · simp only []
    rw [if_pos ((heirOf_eq_nil hok).2 hh), hh, ← tokText_index]
    rfl
  · simp only []
    rw [if_neg fun he => hh ((heirOf_eq_nil hok).1 he), ← tokText_index]
    cases h with
    | nil => exact absurd rfl hh
    | cons t h =>
      cases t with
      | name n => simp [heirOf, pathText, tokText, Tok.text, Tok.sep, Tok.body]
      | index i => simp [heirOf, pathText, tokText, Tok.text, Tok.sep, Tok.body]

/-- The names of the elements are the texts of their paths. -/
theorem leaves_text {fs : Fields} (h : WellNamed fs) : ∀ (path : List Tok) (base : ℕ), (∀ t ∈ path, t.Ok) →
    (leaves m fs (heirOf path) base).map Elem.text = (paths m fs).map fun p => pathText (path ++ p) := by
  induction fs with
  | nil => exact fun _ _ _ => rfl
  | int f fldWidth rest ih =>
    obtain ⟨-, hne, -, hrest⟩ := h
    intro path base hok
    simp only [leaves, paths, List.map_append, List.map_map, ih hrest path base hok]
    congr 1
    apply List.map_congr_left
    intro idx _
    exact elem_text hok hne idx _ _ _
  | record f fields rest ihf ih =>
    obtain ⟨hident, hfields, -, hrest⟩ := h
    intro path base hok
    simp only [leaves, paths, List.map_append, ih hrest path base hok]
    congr 1
    by_cases hfol : m.follows f = true
    · simp only [if_pos hfol, List.map_flatMap, List.map_map]
      apply List.flatMap_congr
      intro idx _
      have hok' : ∀ t ∈ path ++ fieldPath f idx, t.Ok := by
        intro t ht
        rcases List.mem_append.1 ht with ht | ht
        · exact hok t ht
        · exact fieldPath_ok hident idx t ht
      rw [heirText_eq hok, ihf hfields _ _ hok']
      apply List.map_congr_left
      intro p _
      exact congrArg pathText (List.append_assoc _ _ _)
    · have hne : f.name ≠ [] := by
        intro hname
        exact hfol (by simp [Mode.follows, hname])
      simp only [if_neg hfol, List.map_map]
      apply List.map_congr_left
      intro idx _
      exact elem_text hok hne idx _ _ _

/-- **The names differ.** -/
theorem texts_nodup {fs : Fields} (h : WellNamed fs) : ((leaves m fs [] 0).map Elem.text).Nodup := by
  have htext := leaves_text (m := m) h [] 0 fun _ ht => absurd ht List.not_mem_nil
  have hheir : heirOf [] = [] := rfl
  rw [hheir] at htext
  rw [htext]
  refine List.Nodup.map_on ?_ (paths_nodup h)
  intro p hp q hq heq
  exact pathText_inj (paths_ok h p hp) (paths_ok h q hq) heq

end

/-! ## What holds of the iterator -/

/-- With all records followed, the loop ends, and it has seen each element of the layout once, with its name, its
position and its width. -/
def Complete (typeWidth : ℕ) (fields : Fields) : Prop :=
  ∃ r l, start ⟨true, true⟩ fields = some r ∧ Visits ⟨true, true⟩ r l ∧
    l.map CStack.getHeirFieldName = (leaves ⟨true, true⟩ fields [] 0).map (fun e => some e.text) ∧
    l.map CStack.getHeirFieldPos = (leaves ⟨true, true⟩ fields [] 0).map Elem.pos ∧
    l.map (CStack.getWidth typeWidth) = (leaves ⟨true, true⟩ fields [] 0).map Elem.width ∧
    (l.map CStack.getHeirFieldName).Nodup

/-- With only unnamed records followed, `GetWidth` of a record among the elements is its own width. -/
def OwnWidths (typeWidth : ℕ) (fields : Fields) : Prop :=
  ∀ r l, start ⟨false, true⟩ fields = some r → Visits ⟨false, true⟩ r l →
    ∀ s ∈ l, ∀ f fs rest, s.fields = .record f fs rest → s.getWidth typeWidth = f.clangBitWidth

/-- No index of an integer field needs more than five digits. -/
def DimsFit : Fields → Prop
  | .nil => True
  | .int f _ rest => (∀ d ∈ f.dimenList, d ≤ 100000) ∧ DimsFit rest
  | .record _ fields rest => DimsFit fields ∧ DimsFit rest

/-- The named records among the fields are as wide as the whole. -/
def SameWidth (typeWidth : ℕ) : Fields → Prop
  | .nil => True
  | .int _ _ rest => SameWidth typeWidth rest
  | .record f fields rest =>
    (if f.name = [] then SameWidth typeWidth fields else f.clangBitWidth = typeWidth) ∧ SameWidth typeWidth rest

section

variable {typeWidth : ℕ} {s : CStack}

theorem getHeirFieldName_eq : s.getHeirFieldName = some s.view.text ↔ Fits s.view.index := by
  have hindex : s.view.index = s.refList := by
    unfold CStack.view
    split <;> rfl
  rw [hindex]
  constructor
  · intro h
    obtain ⟨text, htext, -⟩ := Option.map_eq_some_iff.1 h
    exact fits_of_indexStr htext
  · intro h
    unfold CStack.getHeirFieldName
    rw [indexStr_of_fits h]
    unfold CStack.view Elem.text
    cases hfs : s.fields <;> rfl

theorem getHeirFieldPos_eq : s.getHeirFieldPos = s.view.pos := by
  unfold CStack.view
  split <;> rfl

theorem getWidth_of_int (h : s.view.bStructOrUnion = false) (hne : s.fields ≠ .nil) :
    s.getWidth typeWidth = s.view.width := by
  unfold CStack.view at h ⊢
  unfold CStack.getWidth
  cases hfs : s.fields with
  | nil => exact absurd hfs hne
  | int f fldWidth rest => rfl
  | record f fields rest =>
    rw [hfs] at h
    cases h

/-- A state that a loop sees is at an element. -/
theorem leaf_of_visits {m : Mode} (hm : m.bDimenIter = true) {r l : List CStack} (h : Visits m r l) :
    AtLeaf m r → ∀ s ∈ l, Leaf m s.fields := by
  induction h with
  | done => exact fun _ => forall_mem_nil
  | step hnext _ ih =>
    intro hleaf
    exact List.forall_mem_cons.2 ⟨hleaf.1, ih (next_spec hm hleaf hnext).1⟩

theorem leaves_int (fs : Fields) : ∀ (heirName : Str) (base : ℕ),
    ∀ e ∈ leaves ⟨true, true⟩ fs heirName base, e.bStructOrUnion = false := by
  induction fs with
  | nil => exact fun _ _ e he => absurd he List.not_mem_nil
  | int f fldWidth rest ih =>
    intro heirName base e he
    rcases List.mem_append.1 he with he | he
    · obtain ⟨idx, -, rfl⟩ := List.mem_map.1 he
      rfl
    · exact ih heirName base e he
  | record f fields rest ihf ih =>
    intro heirName base e he
    have hfol : Mode.follows ⟨true, true⟩ f = true := by simp [Mode.follows]
    rw [leaves, if_pos hfol] at he
    rcases List.mem_append.1 he with he | he
    · obtain ⟨idx, -, he⟩ := List.mem_flatMap.1 he
      exact ihf _ _ e he
    · exact ih heirName base e he

theorem zeros_mem (f : CField) : zeros f.dimenList ∈ indices f.dimenList := mem_indices.2 (zeros_inRange f.dimen_pos)

theorem leaves_fit (fs : Fields) : ∀ (heirName : Str) (base : ℕ),
    (∀ e ∈ leaves ⟨true, true⟩ fs heirName base, Fits e.index) ↔ DimsFit fs := by
  induction fs with
  | nil => exact fun _ _ => ⟨fun _ => trivial, fun _ e he => absurd he List.not_mem_nil⟩
  | int f fldWidth rest ih =>
    intro heirName base
    rw [leaves, List.forall_mem_append, ih, DimsFit, ← fits_indices f.dimen_pos, List.forall_mem_map]
  | record f fields rest ihf ih =>
    intro heirName base
    have hfol : Mode.follows ⟨true, true⟩ f = true := by simp [Mode.follows]
    rw [leaves, if_pos hfol, List.forall_mem_append, ih, DimsFit]
    refine and_congr_left' ⟨?_, ?_⟩
    · intro h
      refine (ihf (heirText heirName f.name (zeros f.dimenList)) (elemPos base f (zeros f.dimenList))).1 ?_
      intro e he
      exact h e (List.mem_flatMap.2 ⟨_, zeros_mem f, he⟩)
    · intro h e he
      obtain ⟨idx, -, he⟩ := List.mem_flatMap.1 he
      exact (ihf _ _).2 h e he

theorem leaves_own (fs : Fields) : ∀ (heirName : Str) (base : ℕ),
    (∀ e ∈ leaves ⟨false, true⟩ fs heirName base, e.bStructOrUnion = true → e.width = typeWidth) ↔
      SameWidth typeWidth fs := by
  induction fs with
  | nil => exact fun _ _ => ⟨fun _ => trivial, fun _ e he => absurd he List.not_mem_nil⟩
  | int f fldWidth rest ih =>
    intro heirName base
    rw [leaves, List.forall_mem_append, ih, SameWidth, List.forall_mem_map]
    refine ⟨fun h => h.2, fun h => ⟨?_, h⟩⟩
    intro idx _ hb
    cases hb
  | record f fields rest ihf ih =>
    intro heirName base
    rw [leaves, List.forall_mem_append, ih, SameWidth]
    refine and_congr_left' ?_
    by_cases hname : f.name = []
    · have hfol : Mode.follows ⟨false, true⟩ f = true := by simp [Mode.follows, hname]
      rw [if_pos hfol, if_pos hname]
      constructor
      · intro h
        refine (ihf (heirText heirName f.name (zeros f.dimenList)) (elemPos base f (zeros f.dimenList))).1 ?_
        intro e he
        exact h e (List.mem_flatMap.2 ⟨_, zeros_mem f, he⟩)
      · intro h e he
        obtain ⟨idx, -, he⟩ := List.mem_flatMap.1 he
        exact (ihf _ _).2 h e he
    · have hfol : ¬Mode.follows ⟨false, true⟩ f = true := by simp [Mode.follows, hname]
      rw [if_neg hfol, if_neg hname, List.forall_mem_map]
      exact ⟨fun h => h _ (zeros_mem f) rfl, fun h _ _ _ => h⟩

/-- What can be entered with all records followed, can be with fewer. -/
theorem enterable_unnamed {fs : Fields} (h : Enterable ⟨true, true⟩ fs) : Enterable ⟨false, true⟩ fs := by
  induction fs with
  | nil => trivial
  | int f fldWidth rest ih => exact ih h
  | record f fields rest ihf ih =>
    obtain ⟨hrec, hrest⟩ := h
    refine ⟨?_, ih hrest⟩
    intro _
    obtain ⟨hne, hfields, hdims⟩ := hrec (by simp [Mode.follows])
    exact ⟨hne, ihf hfields, hdims⟩

end

/-- With all records followed. -/
theorem complete_iff (typeWidth : ℕ) (fields : Fields) (hn : WellNamed fields) :
    Complete typeWidth fields ↔ Enterable ⟨true, true⟩ fields ∧ DimsFit fields := by
  constructor
  · rintro ⟨r, l, hr, hl, hname, -, -, -⟩
    refine ⟨(visits_iff rfl fields).1 ⟨r, l, hr, hl⟩, (leaves_fit fields [] 0).1 ?_⟩
    have hview := visits_leaves rfl hr hl
    rw [← hview, List.map_map] at hname
    intro e he
    rw [← hview] at he
    obtain ⟨s, hs, rfl⟩ := List.mem_map.1 he
    exact getHeirFieldName_eq.1 (List.map_inj_left.1 hname s hs)
  · rintro ⟨hent, hfit⟩
    obtain ⟨r, l, hr, hl⟩ := (visits_iff rfl fields).2 hent
    have hview := visits_leaves rfl hr hl
    have hname : l.map CStack.getHeirFieldName = (leaves ⟨true, true⟩ fields [] 0).map (fun e => some e.text) := by
      rw [← hview, List.map_map]
      apply List.map_congr_left
      intro s hs
      refine getHeirFieldName_eq.2 ((leaves_fit fields [] 0).2 hfit s.view ?_)
      rw [← hview]
      exact List.mem_map_of_mem hs
    refine ⟨r, l, hr, hl, hname, ?_, ?_, ?_⟩
    · rw [← hview, List.map_map]
      exact List.map_congr_left fun s _ => getHeirFieldPos_eq
    · have hleaf := leaf_of_visits rfl hl
        (settle_spec (m := ⟨true, true⟩) rfl (s := ⟨fields, [], 0, 0, fields.zeroRefs⟩) ⟨rfl, rfl⟩ forall_mem_nil hr).1
      rw [← hview, List.map_map]
      apply List.map_congr_left
      intro s hs
      refine getWidth_of_int (leaves_int fields [] 0 s.view ?_) ?_
      · rw [← hview]
        exact List.mem_map_of_mem hs
      · intro hnil
        have := hleaf s hs
        rw [hnil] at this
        exact this
    · have hmap : (leaves ⟨true, true⟩ fields [] 0).map (fun e => some e.text) =
          ((leaves ⟨true, true⟩ fields [] 0).map Elem.text).map some := (List.map_map ..).symm
      rw [hname, hmap]
      exact (texts_nodup hn).map (Option.some_injective _)

/-- With unnamed records followed only. -/
theorem ownWidths_iff (typeWidth : ℕ) (fields : Fields) (h : Enterable ⟨true, true⟩ fields) :
    OwnWidths typeWidth fields ↔ SameWidth typeWidth fields := by
  rw [← leaves_own fields [] 0]
  constructor
  · intro hown
    obtain ⟨r, l, hr, hl⟩ := (visits_iff (m := ⟨false, true⟩) rfl fields).2 (enterable_unnamed h)
    intro e he hb
    rw [← visits_leaves rfl hr hl] at he
    obtain ⟨s, hs, rfl⟩ := List.mem_map.1 he
    have hs' := hown r l hr hl s hs
    unfold CStack.view at hb ⊢
    unfold CStack.getWidth at hs'
    cases hfs : s.fields with
    | nil =>
      rw [hfs] at hb
      cases hb
    | int f fldWidth rest =>
      rw [hfs] at hb
      cases hb
    | record f fields rest =>
      rw [hfs] at hs'
      exact (hs' f fields rest rfl).symm
  · intro hw r l hr hl s hs f fs rest hfs
    have hwidth := hw s.view (by rw [← visits_leaves rfl hr hl]; exact List.mem_map_of_mem hs)
    unfold CStack.view at hwidth
    unfold CStack.getWidth
    rw [hfs] at hwidth ⊢
    exact (hwidth rfl).symm

/-- **The iterator.** It sees the elements of a record as they are laid out, and gives the widths of the records it does
not follow, exactly if every record among the fields has a field, no array has more than 100000 elements in a dimension,
and the records it does not follow are as wide as the whole. -/
theorem struct_elem_iter (typeWidth : ℕ) (fields : Fields) (hn : WellNamed fields) :
    Complete typeWidth fields ∧ OwnWidths typeWidth fields ↔
      Enterable ⟨true, true⟩ fields ∧ DimsFit fields ∧ SameWidth typeWidth fields := by
  rw [complete_iff typeWidth fields hn]
  constructor
  · rintro ⟨⟨hent, hfit⟩, hown⟩
    exact ⟨hent, hfit, (ownWidths_iff typeWidth fields hent).1 hown⟩
  · rintro ⟨hent, hfit, hsame⟩
    exact ⟨⟨hent, hfit⟩, (ownWidths_iff typeWidth fields hent).2 hsame⟩

theorem ident_singleton {c : Char} (h : isSep c = false) : Ident [c] := by
  intro d hd
  rw [List.mem_singleton.1 hd]
  exact h

/-- `struct { uint8_t x[2]; }` -/
def byteArray : Fields := .int ⟨['x'], 8, [2], 0, by decide⟩ (-1) .nil

theorem struct_elem_iter_array : Complete 16 byteArray ∧ OwnWidths 16 byteArray :=
  (struct_elem_iter 16 byteArray ⟨ident_singleton rfl, List.cons_ne_nil _ _, List.not_mem_nil, trivial⟩).2
    ⟨trivial, ⟨by decide, trivial⟩, trivial⟩

/-- `struct { struct A a; uint8_t y; }` with a one-byte `A`: the width that `a` is said to have is that of the whole. -/
theorem width_of_whole :
    ¬∀ (typeWidth : ℕ) (fields : Fields), WellNamed fields → Complete typeWidth fields ∧ OwnWidths typeWidth fields := by
  intro hall
  obtain ⟨-, hown⟩ := hall 16
    (.record ⟨['a'], 8, [], 0, by decide⟩ (.int ⟨['x'], 8, [], 0, by decide⟩ (-1) .nil)
      (.int ⟨['y'], 8, [], 8, by decide⟩ (-1) .nil))
    ⟨ident_singleton rfl, ⟨ident_singleton rfl, List.cons_ne_nil _ _, List.not_mem_nil, trivial⟩, by simp [scope],
      ident_singleton rfl, List.cons_ne_nil _ _, List.not_mem_nil, trivial⟩
  have hwidth := hown _ _ rfl (.step rfl (.step rfl .done)) _ List.mem_cons_self _ _ _ rfl
  revert hwidth
  decide

end OpenHT.Htl.StructElem
