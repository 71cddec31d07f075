import OpenHT.Htl.StructElem

/-!
# A loop over the iterator

A level of the stack has the elements of its field from the current indices on, and those of the fields behind, still
to come.

* `elemsAt`, `behind`: the elements at some indices of a field, and those that come after.
* `Live`: the indices of a level and its position belong together.
* `Ahead`, `Behind`: what the records that are still to be entered need.
* `visits_of_enterable`, `enterable_of_visits`: when a loop comes to its end, and what it has seen then.
-/

namespace OpenHT.Htl.StructElem

open RowMajor

/-! ## Indices -/

/-- The texts of the indices fit in their buffers. -/
def Fits (idx : List ℕ) : Prop := ∀ i ∈ idx, i < 100000

attribute [local simp] enter

theorem index_length (i : ℕ) : ('[' :: Nat.toDigits 10 i ++ [']']).length < 8 ↔ i < 100000 := by
  have h : (Nat.toDigits 10 i).length ≤ 5 ↔ i < 10 ^ 5 := Nat.length_toDigits_le_iff (by decide) (by decide)
  simp only [List.cons_append, List.length_cons, List.length_append, List.length_nil]
  omega

theorem indexStr_of_fits {idx : List ℕ} (h : Fits idx) : indexStr idx = some (indexText idx) := by
  induction idx with
  | nil => rfl
  | cons i is ih =>
    have hi := (index_length i).2 (h i List.mem_cons_self)
    have his := ih fun j hj => h j (List.mem_cons_of_mem i hj)
    rw [indexStr]
    simp only [hi, if_true, his]
    rfl

theorem fits_of_indexStr {idx : List ℕ} {text : Str} (h : indexStr idx = some text) : Fits idx := by
  induction idx generalizing text with
  | nil => exact fun i hi => absurd hi List.not_mem_nil
  | cons i is ih =>
    rw [indexStr] at h
    split at h
    · rename_i hlen
      obtain ⟨rest, hrest, -⟩ := Option.map_eq_some_iff.1 h
      intro j hj
      rcases List.mem_cons.1 hj with rfl | hj
      · exact (index_length j).1 hlen
      · exact ih hrest j hj
    · cases h

theorem fits_indices {dims : List ℕ} (hd : ∀ d ∈ dims, 0 < d) :
    (∀ idx ∈ indices dims, Fits idx) ↔ ∀ d ∈ dims, d ≤ 100000 := by
  induction dims with
  | nil => simp [indices, Fits]
  | cons d ds ih =>
    have hds : ∀ e ∈ ds, 0 < e := fun e he => hd e (List.mem_cons_of_mem d he)
    have hpos := hd d List.mem_cons_self
    constructor
    · intro h e he
      rcases List.mem_cons.1 he with rfl | he
      · have hlast : (e - 1) :: zeros ds ∈ indices (e :: ds) := mem_indices.2 ⟨by omega, zeros_inRange hds⟩
        have := h _ hlast (e - 1) List.mem_cons_self
        omega
      · refine (ih hds).1 ?_ e he
        intro idx hidx i hi
        have hin : 0 :: idx ∈ indices (d :: ds) := mem_indices.2 ⟨hpos, mem_indices.1 hidx⟩
        exact h _ hin i (List.mem_cons_of_mem 0 hi)
    · intro h idx hidx i hi
      have hin := mem_indices.1 hidx
      cases idx with
      | nil => cases hin
      | cons j js =>
        rcases List.mem_cons.1 hi with rfl | hi
        · exact lt_of_lt_of_le hin.1 (h d List.mem_cons_self)
        · exact (ih hds).2 (fun e he => h e (List.mem_cons_of_mem d he)) js (mem_indices.2 hin.2) i hi

theorem dimenIter_eq {dims idx : List ℕ} (h : InRange dims idx) :
    dimenIter dims idx = match RowMajor.next dims idx with
      | some idx' => (true, idx')
      | none => (false, zeros dims) := by
  induction dims generalizing idx with
  | nil =>
    cases idx with
    | nil => rfl
    | cons i is => cases h
  | cons d ds ih =>
    cases idx with
    | nil => cases h
    | cons i is =>
      rw [dimenIter, RowMajor.next, ih h.2]
      cases RowMajor.next ds is with
      | some is' => rfl
      | none =>
        by_cases hlast : i + 1 < d
        · simp only [if_pos hlast]
        · simp only [if_neg hlast]
          rfl

/-! ## The elements to come -/

/-- The elements of the first field at some indices. -/
def elemsAt (m : Mode) (heirName : Str) (base : ℕ) : Fields → List ℕ → List Elem
  | .nil, _ => []
  | .int f fldWidth _, idx => [⟨heirName, f.name, idx, elemPos base f idx, intWidth f fldWidth, false⟩]
  | .record f fields _, idx =>
    if m.follows f then leaves m fields (heirText heirName f.name idx) (elemPos base f idx)
    else [⟨heirName, f.name, idx, elemPos base f idx, f.clangBitWidth, true⟩]

theorem leaves_eq (m : Mode) (heirName : Str) (base : ℕ) {fs : Fields} {f : CField} (h : fs.head? = some f) :
    leaves m fs heirName base =
      (indices f.dimenList).flatMap (elemsAt m heirName base fs) ++ leaves m fs.tail heirName base := by
  cases fs with
  | nil => cases h
  | int g fldWidth rest =>
    obtain rfl := Option.some.inj h
    have hat : elemsAt m heirName base (.int g fldWidth rest) =
        fun idx => [⟨heirName, g.name, idx, elemPos base g idx, intWidth g fldWidth, false⟩] := rfl
    rw [hat, leaves, List.map_eq_flatMap]
    rfl
  | record g fields rest =>
    obtain rfl := Option.some.inj h
    by_cases hf : m.follows g = true
    · have hat : elemsAt m heirName base (.record g fields rest) =
          fun idx => leaves m fields (heirText heirName g.name idx) (elemPos base g idx) := by
        funext idx
        exact if_pos hf
      rw [hat, leaves, if_pos hf]
      rfl
    · have hat : elemsAt m heirName base (.record g fields rest) =
          fun idx => [⟨heirName, g.name, idx, elemPos base g idx, g.clangBitWidth, true⟩] := by
        funext idx
        exact if_neg hf
      rw [hat, leaves, if_neg hf, List.map_eq_flatMap]
      rfl

namespace CStack

/-- The elements at the current indices. -/
def current (m : Mode) (s : CStack) : List Elem := elemsAt m s.heirName s.heirBitPos s.fields s.refList

/-- The elements that come after them in the record. -/
def behind (m : Mode) (s : CStack) : List Elem :=
  match s.fields.head? with
  | none => []
  | some f =>
    (after f.dimenList s.refList).flatMap (elemsAt m s.heirName s.heirBitPos s.fields) ++
      leaves m s.fields.tail s.heirName s.heirBitPos

/-- The level is at a field, with indices of its dimensions and the position of their element. -/
def Live (s : CStack) : Prop :=
  ∃ f, s.fields.head? = some f ∧ InRange f.dimenList s.refList ∧
    s.elemBitPos = offset f.dimenList s.refList * f.clangBitWidth

/-- A level before its first element. -/
structure Fresh (s : CStack) : Prop where
  elemBitPos : s.elemBitPos = 0
  refList : s.refList = s.fields.zeroRefs

variable {m : Mode} {s : CStack}

theorem nextField_fresh : s.nextField.Fresh := ⟨rfl, rfl⟩

theorem Fresh.live (h : s.Fresh) {f : CField} (hf : s.fields.head? = some f) : s.Live := by
  have hrefs : s.refList = zeros f.dimenList := by
    rw [h.refList, Fields.zeroRefs, hf]
  refine ⟨f, hf, ?_, ?_⟩
  · rw [hrefs]
    exact zeros_inRange f.dimen_pos
  · rw [hrefs, offset_zeros, h.elemBitPos, Nat.zero_mul]

/-- At first all elements of the record are to come. -/
theorem Fresh.leaves_eq (h : s.Fresh) {f : CField} (hf : s.fields.head? = some f) :
    leaves m s.fields s.heirName s.heirBitPos = s.current m ++ s.behind m := by
  have hrefs : s.refList = zeros f.dimenList := by
    rw [h.refList, Fields.zeroRefs, hf]
  rw [StructElem.leaves_eq m s.heirName s.heirBitPos hf, indices_eq f.dimen_pos, List.flatMap_cons]
  simp only [current, behind, hf, hrefs, List.append_assoc]

theorem Live.heirFieldPos (h : s.Live) {f : CField} (hf : s.fields.head? = some f) :
    s.heirFieldPos = elemPos s.heirBitPos f s.refList := by
  obtain ⟨g, hg, -, hpos⟩ := h
  obtain rfl := Option.some.inj (hf.symm.trans hg)
  simp only [CStack.heirFieldPos, hf, Option.elim, hpos, elemPos]

/-- **The array step.** -/
theorem Live.stepArray (hm : m.bDimenIter = true) (h : s.Live) {f : CField} (hf : s.fields.head? = some f) :
    (s.stepArray m = none ∧ after f.dimenList s.refList = []) ∨
      ∃ idx, s.stepArray m = some { s with refList := idx, elemBitPos := s.elemBitPos + f.clangBitWidth } ∧
        after f.dimenList s.refList = idx :: after f.dimenList idx ∧
        Live { s with refList := idx, elemBitPos := s.elemBitPos + f.clangBitWidth } := by
  obtain ⟨g, hg, hin, hpos⟩ := h
  obtain rfl := Option.some.inj (hf.symm.trans hg)
  have hiter := dimenIter_eq hin
  rcases next_spec f.dimen_pos hin with ⟨hnext, hafter, -⟩ | ⟨idx, hnext, hafter, hoff, hin'⟩
  · rw [hnext] at hiter
    refine .inl ⟨?_, hafter⟩
    simp only [CStack.stepArray, hf, hm, if_true, hiter]
  · rw [hnext] at hiter
    refine .inr ⟨idx, ?_, hafter, f, hf, hin', ?_⟩
    · simp only [CStack.stepArray, hf, hm, if_true, hiter]
    · simp only [hoff, hpos, Nat.add_mul, Nat.one_mul]

end CStack

/-! ## The records to come -/

/-- A record at `idx` can be entered, if it is to be. -/
def EntersAt (m : Mode) (idx : List ℕ) : Fields → Prop
  | .record f fields _ => m.follows f = true → fields ≠ .nil ∧ Enterable m fields ∧ Fits idx
  | _ => True

namespace CStack

/-- The records behind the current indices can be entered. -/
structure Behind (m : Mode) (s : CStack) : Prop where
  array : ∀ f, s.fields.head? = some f → ∀ idx ∈ after f.dimenList s.refList, EntersAt m idx s.fields
  rest : Enterable m s.fields.tail

/-- So can the one at the current indices. -/
structure Ahead (m : Mode) (s : CStack) : Prop where
  here : EntersAt m s.refList s.fields
  behind : s.Behind m

variable {m : Mode} {s : CStack}

/-- At the end of an array only the fields behind it are left. -/
theorem behind_of_last {f : CField} (hf : s.fields.head? = some f) (h : after f.dimenList s.refList = []) :
    s.behind m = leaves m s.fields.tail s.heirName s.heirBitPos ∧ (s.Behind m ↔ Enterable m s.fields.tail) := by
  refine ⟨?_, fun hb => hb.rest, fun hr => ⟨?_, hr⟩⟩
  · simp only [behind, hf, h, List.flatMap_nil, List.nil_append]
  · intro g hg idx hidx
    obtain rfl := Option.some.inj (hf.symm.trans hg)
    rw [h] at hidx
    exact absurd hidx List.not_mem_nil

/-- What is behind an element starts with the next one. -/
theorem behind_of_next {f : CField} (hf : s.fields.head? = some f) {idx : List ℕ} {n : ℕ}
    (h : after f.dimenList s.refList = idx :: after f.dimenList idx) :
    s.behind m = current m { s with refList := idx, elemBitPos := n } ++ behind m { s with refList := idx, elemBitPos := n } ∧
      (s.Behind m ↔ Ahead m { s with refList := idx, elemBitPos := n }) := by
  refine ⟨?_, ?_, ?_⟩
  · simp only [behind, current, hf, h, List.flatMap_cons, List.append_assoc]
  · intro hb
    refine ⟨hb.array f hf idx (by rw [h]; exact List.mem_cons_self), ?_, hb.rest⟩
    intro g hg j hj
    obtain rfl := Option.some.inj (hf.symm.trans hg)
    exact hb.array f hf j (by rw [h]; exact List.mem_cons_of_mem idx hj)
  · intro ha
    refine ⟨?_, ha.behind.rest⟩
    intro g hg j hj
    obtain rfl := Option.some.inj (hf.symm.trans hg)
    rw [h] at hj
    rcases List.mem_cons.1 hj with rfl | hj
    · exact ha.here
    · exact ha.behind.array f hf j hj

theorem Fresh.ahead_iff (h : s.Fresh) {f : CField} (hf : s.fields.head? = some f) :
    s.Ahead m ↔ Enterable m s.fields := by
  have hrefs : s.refList = zeros f.dimenList := by
    rw [h.refList, Fields.zeroRefs, hf]
  have hall : (EntersAt m s.refList s.fields ∧ ∀ idx ∈ after f.dimenList s.refList, EntersAt m idx s.fields) ↔
      ∀ idx ∈ indices f.dimenList, EntersAt m idx s.fields := by
    rw [indices_eq f.dimen_pos, hrefs, List.forall_mem_cons]
  have hsplit : s.Ahead m ↔ (∀ idx ∈ indices f.dimenList, EntersAt m idx s.fields) ∧ Enterable m s.fields.tail := by
    rw [← hall]
    constructor
    · intro ha
      exact ⟨⟨ha.here, ha.behind.array f hf⟩, ha.behind.rest⟩
    · rintro ⟨⟨hhere, harray⟩, hrest⟩
      refine ⟨hhere, ?_, hrest⟩
      intro g hg
      obtain rfl := Option.some.inj (hf.symm.trans hg)
      exact harray
  rw [hsplit]
  cases hfs : s.fields with
  | nil =>
    rw [hfs] at hf
    cases hf
  | int g fldWidth rest => exact ⟨fun hb => hb.2, fun hb => ⟨fun _ _ => trivial, hb⟩⟩
  | record g fields rest =>
    rw [hfs] at hf
    obtain rfl := Option.some.inj hf
    have hmem : zeros g.dimenList ∈ indices g.dimenList := mem_indices.2 (zeros_inRange g.dimen_pos)
    show (∀ idx ∈ indices g.dimenList, m.follows g = true → _) ∧ Enterable m rest ↔ (m.follows g = true → _) ∧ Enterable m rest
    refine and_congr_left' ⟨?_, ?_⟩
    · intro he hfol
      obtain ⟨hne, hent, -⟩ := he _ hmem hfol
      exact ⟨hne, hent, (fits_indices g.dimen_pos).1 fun idx hidx => (he idx hidx hfol).2.2⟩
    · intro he idx hidx hfol
      obtain ⟨hne, hent, hdims⟩ := he hfol
      exact ⟨hne, hent, (fits_indices g.dimen_pos).2 hdims idx hidx⟩

end CStack

/-! ## The loops of `operator++` -/

/-- The elements that a stack still has to come, with the current one. -/
def pending (m : Mode) : List CStack → List Elem
  | [] => []
  | s :: st => s.current m ++ s.behind m ++ st.flatMap (CStack.behind m)

/-- Everything that is still to be entered can be. -/
def Full (m : Mode) : List CStack → Prop
  | [] => True
  | s :: st => s.Ahead m ∧ ∀ p ∈ st, p.Behind m

def AllLive (st : List CStack) : Prop := ∀ p ∈ st, p.Live

section

variable {m : Mode}

theorem eq_nil_of_head {fs : Fields} (h : fs.head? = none) : fs = .nil := by
  cases fs with
  | nil => rfl
  | int f fldWidth rest => cases h
  | record f fields rest => cases h

theorem popEnds_of_field {s : CStack} {f : CField} (hf : s.fields.head? = some f) (st : List CStack) :
    popEnds m s st = s :: st := by
  cases hfs : s.fields with
  | nil =>
    rw [hfs] at hf
    cases hf
  | int g fldWidth rest => cases st <;> simp only [popEnds, hfs]
  | record g fields rest => cases st <;> simp only [popEnds, hfs]

theorem forall_mem_nil {P : CStack → Prop} : ∀ p ∈ ([] : List CStack), P p := fun _ h => absurd h List.not_mem_nil

/-- **Leaving records.** -/
theorem popEnds_spec (hm : m.bDimenIter = true) (st : List CStack) (hst : AllLive st) : ∀ s : CStack, s.Fresh →
    AllLive (popEnds m s st) ∧
      pending m (popEnds m s st) = leaves m s.fields s.heirName s.heirBitPos ++ st.flatMap (CStack.behind m) ∧
      (Full m (popEnds m s st) ↔ Enterable m s.fields ∧ ∀ p ∈ st, p.Behind m) := by
  -- a level with a field stays
  have hfield : ∀ (st : List CStack), AllLive st → ∀ (s : CStack) (f : CField), s.Fresh → s.fields.head? = some f →
      AllLive (popEnds m s st) ∧
        pending m (popEnds m s st) = leaves m s.fields s.heirName s.heirBitPos ++ st.flatMap (CStack.behind m) ∧
        (Full m (popEnds m s st) ↔ Enterable m s.fields ∧ ∀ p ∈ st, p.Behind m) := by
    intro st hst s f hs hf
    rw [popEnds_of_field hf, pending, hs.leaves_eq hf, Full, hs.ahead_iff hf]
    exact ⟨List.forall_mem_cons.2 ⟨hs.live hf, hst⟩, rfl, Iff.rfl⟩
  induction st with
  | nil =>
    intro s hs
    cases hf : s.fields.head? with
    | some f => exact hfield [] hst s f hs hf
    | none =>
      have hnil := eq_nil_of_head hf
      have hpop : popEnds m s [] = [] := by simp only [popEnds, hnil]
      rw [hpop, hnil]
      exact ⟨forall_mem_nil, rfl, fun _ => ⟨trivial, forall_mem_nil⟩, fun _ => trivial⟩
  | cons p st ih =>
    intro s hs
    cases hf : s.fields.head? with
    | some f => exact hfield (p :: st) hst s f hs hf
    | none =>
      have hnil := eq_nil_of_head hf
      have hp : p.Live := hst p List.mem_cons_self
      have hst' : AllLive st := fun q hq => hst q (List.mem_cons_of_mem p hq)
      obtain ⟨g, hg, -⟩ := hp
      rcases (hst p List.mem_cons_self).stepArray hm hg with ⟨hstep, hafter⟩ | ⟨idx, hstep, hafter, hlive⟩
      · -- the record was the last of its array
        have hpop : popEnds m s (p :: st) = popEnds m p.nextField st := by
          rw [popEnds, hnil]
          simp only [hstep]
        obtain ⟨hlive, hpend, hfull⟩ := ih hst' p.nextField CStack.nextField_fresh
        obtain ⟨hbehind, hBehind⟩ := CStack.behind_of_last (m := m) hg hafter
        rw [hpop, hnil, hpend, hfull, List.flatMap_cons, hbehind, List.forall_mem_cons, hBehind]
        exact ⟨hlive, rfl, fun h => ⟨trivial, h⟩, fun h => h.2⟩
      · have hpop : popEnds m s (p :: st) =
            { p with refList := idx, elemBitPos := p.elemBitPos + g.clangBitWidth } :: st := by
          rw [popEnds, hnil]
          simp only [hstep]
        obtain ⟨hbehind, hBehind⟩ := CStack.behind_of_next (m := m) (n := p.elemBitPos + g.clangBitWidth) hg hafter
        rw [hpop, hnil, pending, List.flatMap_cons, hbehind, Full, List.forall_mem_cons, hBehind]
        exact ⟨List.forall_mem_cons.2 ⟨hlive, hst'⟩, rfl, fun h => ⟨trivial, h⟩, fun h => h.2⟩

/-- The field is an element. -/
def Leaf (m : Mode) : Fields → Prop
  | .nil => False
  | .int _ _ _ => True
  | .record f _ _ => m.follows f = false

/-- The stack is empty, or its top is at an element. -/
def AtLeaf (m : Mode) : List CStack → Prop
  | [] => True
  | s :: st => Leaf m s.fields ∧ AllLive (s :: st)

theorem current_of_leaf {s : CStack} (hl : Leaf m s.fields) (h : s.Live) : s.current m = [s.view] := by
  unfold CStack.current CStack.view
  cases hfs : s.fields with
  | nil =>
    rw [hfs] at hl
    exact absurd hl id
  | int f fldWidth rest =>
    have hpos := h.heirFieldPos (f := f) (by rw [hfs]; rfl)
    simp only [elemsAt, hpos]
  | record f fields rest =>
    have hpos := h.heirFieldPos (f := f) (by rw [hfs]; rfl)
    rw [hfs] at hl
    have hno : m.follows f = false := hl
    simp only [elemsAt, hno, Bool.false_eq_true, if_false, hpos]

theorem entersAt_of_leaf {fs : Fields} (hl : Leaf m fs) (idx : List ℕ) : EntersAt m idx fs := by
  cases fs with
  | nil => exact absurd hl id
  | int f fldWidth rest => trivial
  | record f fields rest =>
    intro hfol
    have hno : m.follows f = false := hl
    rw [hno] at hfol
    cases hfol

theorem pushName_of_fits (hm : m.bDimenIter = true) {s : CStack} {f : CField} (h : Fits s.refList) :
    pushName m s f = some (heirText s.heirName f.name s.refList) := by
  unfold pushName heirText
  simp only [hm, if_true, indexStr_of_fits h]
  rfl

theorem fits_of_pushName (hm : m.bDimenIter = true) {s : CStack} {f : CField} {name : Str}
    (h : pushName m s f = some name) : Fits s.refList := by
  unfold pushName at h
  simp only [hm, if_true] at h
  obtain ⟨text, htext, -⟩ := Option.map_eq_some_iff.1 h
  exact fits_of_indexStr htext

/-- The level that is pushed for a record. -/
def pushed (s : CStack) (f : CField) (fields : Fields) : CStack :=
  ⟨fields, heirText s.heirName f.name s.refList, s.heirFieldPos, 0, fields.zeroRefs⟩

theorem pushed_fresh (s : CStack) (f : CField) (fields : Fields) : (pushed s f fields).Fresh := ⟨rfl, rfl⟩

theorem enter_of_follows (hm : m.bDimenIter = true) {s : CStack} {f : CField} (hfol : m.follows f = true)
    (hfits : Fits s.refList) (fields rest : Fields) (st : List CStack) :
    enter m (.record f fields rest) s st = enter m fields (pushed s f fields) (s :: st) := by
  rw [enter, if_pos hfol, pushName_of_fits hm hfits]
  rfl

/-- **Entering records.** -/
theorem enter_spec (hm : m.bDimenIter = true) : ∀ (fs : Fields) (s : CStack) (st r : List CStack), s.fields = fs →
    AllLive (s :: st) → enter m fs s st = some r →
      AtLeaf m r ∧ pending m r = pending m (s :: st) ∧ (Full m r ↔ Full m (s :: st)) := by
  intro fs
  induction fs with
  | nil =>
    intro s st r _ _ hr
    cases hr
  | int f fldWidth rest _ =>
    intro s st r hfs hlive hr
    obtain rfl := Option.some.inj hr
    refine ⟨⟨?_, hlive⟩, rfl, Iff.rfl⟩
    rw [hfs]
    trivial
  | record f fields rest ih _ =>
    intro s st r hfs hlive hr
    by_cases hfol : m.follows f = true
    · cases hname : pushName m s f with
      | none =>
        rw [enter, if_pos hfol, hname] at hr
        cases hr
      | some heirName =>
        have hfits := fits_of_pushName hm hname
        have hpos := (hlive s List.mem_cons_self).heirFieldPos (f := f) (by rw [hfs]; rfl)
        have hfresh := pushed_fresh s f fields
        rw [enter_of_follows hm hfol hfits] at hr
        cases hhead : fields.head? with
        | none =>
          rw [eq_nil_of_head hhead] at hr
          cases hr
        | some g =>
          have hne : fields ≠ .nil := by
            intro h
            rw [h] at hhead
            cases hhead
          have hg : (pushed s f fields).fields.head? = some g := hhead
          obtain ⟨hleaf, hpend, hfull⟩ := ih (pushed s f fields) (s :: st) r rfl
            (List.forall_mem_cons.2 ⟨hfresh.live hg, hlive⟩) hr
          refine ⟨hleaf, ?_, ?_⟩
          · have hleaves : (pushed s f fields).current m ++ (pushed s f fields).behind m = s.current m := by
              rw [← hfresh.leaves_eq hg]
              simp only [CStack.current, hfs, elemsAt, hfol, if_true, pushed, hpos]
            rw [hpend, pending, pending, hleaves, List.flatMap_cons, List.append_assoc]
          · rw [hfull, Full, Full, hfresh.ahead_iff hg, List.forall_mem_cons]
            constructor
            · rintro ⟨hent, hbehind, hall⟩
              refine ⟨⟨?_, hbehind⟩, hall⟩
              rw [hfs]
              exact fun _ => ⟨hne, hent, hfits⟩
            · rintro ⟨hahead, hall⟩
              have hhere := hahead.here
              rw [hfs] at hhere
              exact ⟨(hhere hfol).2.1, hahead.behind, hall⟩
    · rw [enter, if_neg hfol] at hr
      obtain rfl := Option.some.inj hr
      refine ⟨⟨?_, hlive⟩, rfl, Iff.rfl⟩
      rw [hfs]
      exact Bool.eq_false_iff.2 hfol

theorem enter_ok (hm : m.bDimenIter = true) : ∀ (fs : Fields) (s : CStack) (st : List CStack), s.fields = fs →
    fs ≠ .nil → s.Ahead m → ∃ r, enter m fs s st = some r := by
  intro fs
  induction fs with
  | nil =>
    intro s st _ hne
    exact absurd rfl hne
  | int f fldWidth rest _ =>
    intro s st _ _ _
    exact ⟨_, rfl⟩
  | record f fields rest ih _ =>
    intro s st hfs _ hahead
    by_cases hfol : m.follows f = true
    · have hhere := hahead.here
      rw [hfs] at hhere
      obtain ⟨hne, hent, hfits⟩ := hhere hfol
      rw [enter_of_follows hm hfol hfits]
      cases hhead : fields.head? with
      | none => exact absurd (eq_nil_of_head hhead) hne
      | some g =>
        exact ih (pushed s f fields) (s :: st) rfl hne (((pushed_fresh s f fields).ahead_iff hhead).2 hent)
    · exact ⟨s :: st, by rw [enter, if_neg hfol]⟩

/-! ## The run -/

theorem settle_spec (hm : m.bDimenIter = true) {s : CStack} {st r : List CStack} (hs : s.Fresh) (hst : AllLive st)
    (hr : settle m s st = some r) :
    AtLeaf m r ∧ pending m r = leaves m s.fields s.heirName s.heirBitPos ++ st.flatMap (CStack.behind m) ∧
      (Full m r ↔ Enterable m s.fields ∧ ∀ p ∈ st, p.Behind m) := by
  obtain ⟨hlive, hpend, hfull⟩ := popEnds_spec hm st hst s hs
  unfold settle at hr
  cases hpop : popEnds m s st with
  | nil =>
    rw [hpop] at hr hpend hfull
    obtain rfl := Option.some.inj hr
    exact ⟨trivial, hpend, hfull⟩
  | cons s' st' =>
    rw [hpop] at hr hlive hpend hfull
    obtain ⟨hleaf, hpend', hfull'⟩ := enter_spec hm s'.fields s' st' r rfl hlive hr
    exact ⟨hleaf, hpend'.trans hpend, hfull'.trans hfull⟩

theorem settle_ok (hm : m.bDimenIter = true) {s : CStack} {st : List CStack} (hs : s.Fresh) (hst : AllLive st)
    (hent : Enterable m s.fields) (hbehind : ∀ p ∈ st, p.Behind m) : ∃ r, settle m s st = some r := by
  obtain ⟨hlive, -, hfull⟩ := popEnds_spec hm st hst s hs
  unfold settle
  cases hpop : popEnds m s st with
  | nil => exact ⟨[], rfl⟩
  | cons s' st' =>
    rw [hpop] at hlive hfull
    obtain ⟨f, hf, -⟩ := hlive s' List.mem_cons_self
    apply enter_ok hm s'.fields s' st' rfl
    · intro h
      rw [h] at hf
      cases hf
    · exact (hfull.2 ⟨hent, hbehind⟩).1

/-- **One step.** It comes to the next element. -/
theorem next_spec (hm : m.bDimenIter = true) {s : CStack} {st r : List CStack} (h : AtLeaf m (s :: st))
    (hr : next m (s :: st) = some r) :
    AtLeaf m r ∧ pending m (s :: st) = s.view :: pending m r ∧ (Full m r ↔ Full m (s :: st)) := by
  obtain ⟨hleaf, hlive⟩ := h
  obtain ⟨hs, hst⟩ := List.forall_mem_cons.1 hlive
  obtain ⟨f, hf, -⟩ := id hs
  have hahead : s.Ahead m ↔ s.Behind m := ⟨fun h => h.behind, fun h => ⟨entersAt_of_leaf hleaf _, h⟩⟩
  have hcur := current_of_leaf hleaf hs
  rcases hs.stepArray hm hf with ⟨hstep, hafter⟩ | ⟨idx, hstep, hafter, hlive'⟩
  · -- the next field
    obtain ⟨hbehind, hBehind⟩ := CStack.behind_of_last (m := m) hf hafter
    rw [next, hstep] at hr
    obtain ⟨hleaf', hpend, hfull⟩ := settle_spec hm CStack.nextField_fresh hst hr
    refine ⟨hleaf', ?_, ?_⟩
    · rw [hpend, pending, hcur, hbehind]
      rfl
    · rw [hfull, Full, hahead, hBehind]
      rfl
  · -- the next element of the array
    obtain ⟨hbehind, hBehind⟩ := CStack.behind_of_next (m := m) (n := s.elemBitPos + f.clangBitWidth) hf hafter
    rw [next, hstep] at hr
    obtain rfl := Option.some.inj hr
    refine ⟨⟨hleaf, List.forall_mem_cons.2 ⟨hlive', hst⟩⟩, ?_, ?_⟩
    · rw [pending, pending, hcur, hbehind]
      rfl
    · rw [Full, Full, hahead, hBehind]

theorem next_ok (hm : m.bDimenIter = true) {s : CStack} {st : List CStack} (h : AtLeaf m (s :: st))
    (hfull : Full m (s :: st)) : ∃ r, next m (s :: st) = some r := by
  obtain ⟨-, hlive⟩ := h
  obtain ⟨hs, hst⟩ := List.forall_mem_cons.1 hlive
  obtain ⟨f, hf, -⟩ := id hs
  rcases hs.stepArray hm hf with ⟨hstep, -⟩ | ⟨idx, hstep, -⟩
  · rw [next, hstep]
    exact settle_ok hm CStack.nextField_fresh hst hfull.1.behind.rest hfull.2
  · exact ⟨_, by rw [next, hstep]⟩

/-- What a loop sees is what was pending. -/
theorem visits_spec (hm : m.bDimenIter = true) {r l : List CStack} (h : Visits m r l) :
    AtLeaf m r → l.map CStack.view = pending m r ∧ Full m r := by
  induction h with
  | done => exact fun _ => ⟨rfl, trivial⟩
  | step hnext _ ih =>
    intro hleaf
    obtain ⟨hleaf', hpend, hfull⟩ := next_spec hm hleaf hnext
    obtain ⟨hmap, hfull'⟩ := ih hleaf'
    rw [List.map_cons, hmap, hpend]
    exact ⟨rfl, hfull.1 hfull'⟩

/-- The loop ends, as each step leaves one element less. -/
theorem visits_of_full (hm : m.bDimenIter = true) : ∀ (n : ℕ) (r : List CStack), (pending m r).length = n →
    AtLeaf m r → Full m r → ∃ l, Visits m r l := by
  intro n
  induction n with
  | zero =>
    intro r hn hleaf hfull
    cases r with
    | nil => exact ⟨[], .done⟩
    | cons s st =>
      obtain ⟨r, hr⟩ := next_ok hm hleaf hfull
      rw [(next_spec hm hleaf hr).2.1] at hn
      cases hn
  | succ n ih =>
    intro r hn hleaf hfull
    cases r with
    | nil => cases hn
    | cons s st =>
      obtain ⟨r, hr⟩ := next_ok hm hleaf hfull
      obtain ⟨hleaf', hpend, hfull'⟩ := next_spec hm hleaf hr
      rw [hpend] at hn
      obtain ⟨l, hl⟩ := ih r (Nat.succ.inj hn) hleaf' (hfull'.2 hfull)
      exact ⟨s :: l, .step hr hl⟩

/-- **A loop over a record.** It ends if and only if every record on the way can be entered. -/
theorem visits_iff (hm : m.bDimenIter = true) (fields : Fields) :
    (∃ r l, start m fields = some r ∧ Visits m r l) ↔ Enterable m fields := by
  have hfresh : CStack.Fresh ⟨fields, [], 0, 0, fields.zeroRefs⟩ := ⟨rfl, rfl⟩
  constructor
  · rintro ⟨r, l, hr, hl⟩
    obtain ⟨hleaf, -, hfull⟩ := settle_spec hm hfresh forall_mem_nil hr
    exact (hfull.1 (visits_spec hm hl hleaf).2).1
  · intro hent
    obtain ⟨r, hr⟩ := settle_ok hm hfresh forall_mem_nil hent forall_mem_nil
    obtain ⟨hleaf, -, hfull⟩ := settle_spec hm hfresh forall_mem_nil hr
    obtain ⟨l, hl⟩ := visits_of_full hm _ r rfl hleaf (hfull.2 ⟨hent, forall_mem_nil⟩)
    exact ⟨r, l, hr, hl⟩

/-- **What it sees.** The elements of the layout, in its order. -/
theorem visits_leaves (hm : m.bDimenIter = true) {fields : Fields} {r l : List CStack} (hr : start m fields = some r)
    (hl : Visits m r l) : l.map CStack.view = leaves m fields [] 0 := by
  obtain ⟨hleaf, hpend, -⟩ := settle_spec hm (s := ⟨fields, [], 0, 0, fields.zeroRefs⟩) ⟨rfl, rfl⟩ forall_mem_nil hr
  rw [(visits_spec hm hl hleaf).1, hpend]
  exact List.append_nil _

end

end OpenHT.Htl.StructElem
