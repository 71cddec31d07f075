import Mathlib.Data.Nat.Notation
import Mathlib.Data.List.FinRange
import Mathlib.Logic.Function.Basic

/-!
# The spanning write fields of a global variable

`FindSpanningWriteFields` picks the fields of a record that are written on their own. A field that overlaps a forced one
is ignored. Of the others a field is spanning if it holds every one that it overlaps. Of fields with one range all but
one are to be marked as duplicates; the flag is set to the opposite of the other field's, from either end.

* `Field`, `Mark`: a field of the record, and its flags.
* `forcedLoop`, `spanLoop`, `rangeList`, `arrayLoop`: the loops.
* `Top`: the spanning fields, without the loops.
* `partitions_iff`: what is marked is a partition just if no range has four, six, eight ... spanning fields.
-/

namespace OpenHT.Htl.Spanning

/-- What is read of a field: which `CField` it is an element of, its name, its position and its width. -/
structure Field where
  pField : ℕ
  heirName : String
  pos : ℕ
  width : ℕ
  bForced : Bool
  /-- A type has a bit. -/
  width_pos : 0 < width
deriving DecidableEq, Repr

namespace Field

def overlaps (f g : Field) : Prop := ¬ (f.pos + f.width ≤ g.pos ∨ g.pos + g.width ≤ f.pos)

instance (f g : Field) : Decidable (f.overlaps g) := inferInstanceAs (Decidable (¬ _))

/-- The bits of `g` are bits of `f`. -/
def holds (f g : Field) : Prop := f.pos ≤ g.pos ∧ f.pos + f.width ≥ g.pos + g.width

instance (f g : Field) : Decidable (f.holds g) := inferInstanceAs (Decidable (_ ∧ _))

def sameRange (f g : Field) : Prop := f.pos = g.pos ∧ f.width = g.width

instance (f g : Field) : Decidable (f.sameRange g) := inferInstanceAs (Decidable (_ ∧ _))

/-- The bit is one of the field's. -/
def Has (f : Field) (b : ℕ) : Prop := f.pos ≤ b ∧ b < f.pos + f.width

end Field

/-- The flags of a field. -/
structure Mark where
  bIgnore : Bool
  bSpanning : Bool
  bDupRange : Bool
  /-- Which field. -/
  pDupField : Option ℕ
deriving DecidableEq, Repr

def Mark.init : Mark := ⟨false, false, false, none⟩

/-- `ParseMsg`, without the line. -/
inductive Msg
  | error (text : String)
  | info (text : String)
deriving DecidableEq, Repr

/-- What the function leaves. -/
structure Outcome (n : ℕ) where
  marks : Fin n → Mark
  msgs : List Msg
  /-- One of the returns before the end. -/
  bReturned : Bool
  bAutoSpanningWrite : Bool

variable {n : ℕ}

/-! ## The loops -/

/-- The first step for one forced field. An error is another forced field that it overlaps. -/
def forcedInner (fs : Fin n → Field) (i : Fin n) :
    List (Fin n) → (Fin n → Mark) → Except (Fin n × (Fin n → Mark)) (Fin n → Mark)
  | [], m => .ok m
  | j :: js, m =>
    if i = j then forcedInner fs i js m
    else if ¬ (fs i).overlaps (fs j) then forcedInner fs i js m
    else if (fs j).bForced then .error (j, m)
    else forcedInner fs i js (Function.update m j { m j with bIgnore := true })

/-- The first step: mark all fields where a forced field overlaps. -/
def forcedLoop (fs : Fin n → Field) :
    List (Fin n) → (Fin n → Mark) → Except (Fin n × Fin n × (Fin n → Mark)) (Fin n → Mark)
  | [], m => .ok m
  | i :: is, m =>
    if (fs i).bForced then
      match forcedInner fs i (List.finRange n) m with
      | .error (j, m) => .error (i, j, m)
      | .ok m => forcedLoop fs is m
    else forcedLoop fs is m

/-- The second step for one field that is neither forced nor ignored. -/
def spanInner (fs : Fin n → Field) (i : Fin n) : List (Fin n) → (Fin n → Mark) → (Fin n → Mark)
  | [], m => m
  | j :: js, m =>
    if i = j then spanInner fs i js m
    else if (m j).bIgnore then spanInner fs i js m
    else if ¬ (fs i).overlaps (fs j) then spanInner fs i js m
    else if (fs j).bForced then Function.update m i { m i with bSpanning := false }
    else if (fs i).sameRange (fs j) then
      spanInner fs i js
        (Function.update m j { m j with bDupRange := !(m i).bDupRange, pDupField := some i.val })
    else if (fs i).holds (fs j) then spanInner fs i js m
    -- the other one holds this one, or neither does
    else spanInner fs i js (Function.update m i { m i with bSpanning := false })

/-- The second step: mark spanning fields. -/
def spanLoop (fs : Fin n → Field) : List (Fin n) → (Fin n → Mark) → (Fin n → Mark)
  | [], m => m
  | i :: is, m =>
    let m := Function.update m i { m i with bSpanning := !(m i).bIgnore }
    if (fs i).bForced || (m i).bIgnore then spanLoop fs is m
    else spanLoop fs is (spanInner fs i (List.finRange n) m)

/-- A range of bits, `m_start` and `m_end`. -/
abbrev CRange := ℕ × ℕ

/-- A range that ends at `e`, together with the next one if that starts there. -/
def mergeNext (s e : ℕ) : List CRange → List CRange
  | [] => [(s, e)]
  | (rs, re) :: r => if rs = e then (s, re) :: r else (s, e) :: (rs, re) :: r

/-- One spanning field goes into the list of ranges. -/
def insertRange (fs fe : ℕ) : List CRange → List CRange
  | [] => [(fs, fe)]
  | (rs, re) :: r =>
    if rs ≤ fs ∧ fe ≤ re then (rs, re) :: r
    else if fs < rs then mergeNext fs fe ((rs, re) :: r)
    else if re = fs then mergeNext rs fe r
    else (rs, re) :: insertRange fs fe r

def rangeList (fs : Fin n → Field) (m : Fin n → Mark) : List CRange :=
  (List.finRange n).foldl (fun ranges i =>
    if (m i).bSpanning then insertRange (fs i).pos ((fs i).pos + (fs i).width) ranges else ranges) []

/-- A range has all of the field. -/
def covered (ranges : List CRange) (f : Field) : Bool := ranges.any fun r => r.1 ≤ f.pos && f.pos + f.width ≤ r.2

/-- What is printed for one field; `bErrorPrinted` is never set. -/
def uncoveredMsgs (fs : Fin n → Field) (m : Fin n → Mark) (f : Field) : List Msg :=
  [.error "One or more fields within global variable were not covered by identified spanning fields",
    .info "  List of spanning fields:"] ++
  ((List.finRange n).filter fun i => (m i).bSpanning).map (fun i => .info ("    " ++ (fs i).heirName)) ++
  [.info "  List of fields not covered:", .info ("    " ++ f.heirName)]

/-- An entry of `fieldList` and `errorList`. -/
structure Seen where
  pField : ℕ
  bSpanning : Bool
  bError : Bool

/-- Elements of an array are to have one flag; there is no result where the function returns. -/
def arrayLoop (fs : Fin n → Field) (m : Fin n → Mark) (bUser : Bool) : List (Fin n) → List Seen → Option (List Msg)
  | [], _ => some []
  | i :: is, seen =>
    match seen.find? fun s => s.pField = (fs i).pField with
    | none => arrayLoop fs m bUser is (seen ++ [⟨(fs i).pField, (m i).bSpanning, false⟩])
    | some s =>
      if (m i).bSpanning ≠ s.bSpanning ∧ s.bError = false then
        if bUser then
          (arrayLoop fs m bUser is (seen.map fun t => if t.pField = s.pField then { t with bError := true } else t)).map
            (Msg.error "array elements have inconsistent write spanning" :: ·)
        else none
      else arrayLoop fs m bUser is seen

/-- Two fields overlap, and their ranges differ. -/
def overlapping (fs : Fin n → Field) : Bool :=
  (List.finRange n).any fun i => (List.finRange n).any fun j =>
    i ≠ j && !decide ((fs i).sameRange (fs j)) && decide ((fs i).overlaps (fs j))

/-- `FindSpanningWriteFields` for a record, from the list of its fields on. -/
def findSpanningWriteFields (fs : Fin n → Field) (bUserSpanningWrite : Bool) (rdModCnt : ℕ) : Outcome n :=
  match forcedLoop fs (List.finRange n) (fun _ => .init) with
  | .error (i, j, m) =>
    ⟨m, if bUserSpanningWrite then [.error "Overlapping forced spanning fields",
      .info ("  " ++ (fs i).heirName), .info ("  " ++ (fs j).heirName)] else [], true, false⟩
  | .ok m =>
    let m := spanLoop fs (List.finRange n) m
    let uncovered := (List.finRange n).filter fun i => !covered (rangeList fs m) (fs i)
    if bUserSpanningWrite = false ∧ uncovered ≠ [] then ⟨m, [], true, false⟩
    else
      match arrayLoop fs m bUserSpanningWrite (List.finRange n) [] with
      | none => ⟨m, [], true, false⟩
      | some msgs =>
        ⟨m, uncovered.flatMap (fun i => uncoveredMsgs fs m (fs i)) ++ msgs, false,
          bUserSpanningWrite = false && rdModCnt == 1 && !overlapping fs⟩

/-- **The marking is accepted**: the function comes to its end without an error. -/
def Outcome.Accepted (o : Outcome n) : Prop := o.bReturned = false ∧ o.msgs = []

/-! ## What is asked of the marks -/

/-- The fields that get a memory of their own. -/
def Outcome.Picked (o : Outcome n) (i : Fin n) : Prop := (o.marks i).bSpanning = true ∧ (o.marks i).bDupRange = false

/-- **They are a partition of the variable**: they share no bit, and every bit of a field is in one of them. -/
def Outcome.Partitions (o : Outcome n) (fs : Fin n → Field) : Prop :=
  (∀ i j, o.Picked i → o.Picked j → i ≠ j → ∀ b, ¬ ((fs i).Has b ∧ (fs j).Has b)) ∧
  ∀ i b, (fs i).Has b → ∃ j, o.Picked j ∧ (fs j).Has b

/-- A forced field overlaps the field. -/
def Ignored (fs : Fin n → Field) (j : Fin n) : Prop := ∃ i, (fs i).bForced = true ∧ i ≠ j ∧ (fs i).overlaps (fs j)

/-- **A spanning field**: no forced one overlaps it, and it holds each of the others that it overlaps. -/
def Top (fs : Fin n → Field) (i : Fin n) : Prop :=
  ¬ Ignored fs i ∧ ∀ j, ¬ Ignored fs j → (fs i).overlaps (fs j) → (fs i).holds (fs j)

/-- The fields with one range. -/
def group (fs : Fin n → Field) (i : Fin n) : List (Fin n) :=
  (List.finRange n).filter fun j => (fs i).sameRange (fs j)

/-- A spanning field that is not forced, one of an even number of four or more with its range. -/
def Crowded (fs : Fin n → Field) (i : Fin n) : Prop :=
  (fs i).bForced = false ∧ Top fs i ∧ 4 ≤ (group fs i).length ∧ (group fs i).length % 2 = 0

/-! ## Ranges -/

namespace Field

theorem overlaps_iff {f g : Field} : f.overlaps g ↔ ∃ b, f.Has b ∧ g.Has b := by
  have hf := f.width_pos
  have hg := g.width_pos
  unfold overlaps Has
  constructor
  · intro h
    rcases Nat.le_total f.pos g.pos with hle | hle
    · exact ⟨g.pos, by omega, by omega⟩
    · exact ⟨f.pos, by omega, by omega⟩
  · rintro ⟨b, h1, h2⟩
    omega

theorem overlaps_comm {f g : Field} : f.overlaps g ↔ g.overlaps f := by
  unfold overlaps
  omega

theorem sameRange.overlaps {f g : Field} (h : f.sameRange g) : f.overlaps g := by
  have hf := f.width_pos
  unfold sameRange at h
  unfold Field.overlaps
  omega

theorem sameRange.symm {f g : Field} (h : f.sameRange g) : g.sameRange f := ⟨h.1.symm, h.2.symm⟩

theorem sameRange.holds {f g : Field} (h : f.sameRange g) : f.holds g := by
  unfold sameRange at h
  unfold Field.holds
  omega

theorem sameRange.trans {f g k : Field} (h : f.sameRange g) (h' : g.sameRange k) : f.sameRange k :=
  ⟨h.1.trans h'.1, h.2.trans h'.2⟩

theorem sameRange.congr {f g k : Field} (h : f.sameRange g) :
    (f.overlaps k ↔ g.overlaps k) ∧ (f.holds k ↔ g.holds k) ∧ (f.sameRange k ↔ g.sameRange k) := by
  unfold sameRange at h ⊢
  unfold Field.overlaps Field.holds
  rw [h.1, h.2]
  exact ⟨Iff.rfl, Iff.rfl, Iff.rfl⟩

theorem sameRange.has {f g : Field} (h : f.sameRange g) {b : ℕ} : f.Has b ↔ g.Has b := by
  unfold Has
  rw [h.1, h.2]

theorem sameRange_of_holds {f g : Field} (h : f.holds g) (h' : g.holds f) : f.sameRange g := by
  unfold holds at h h'
  unfold sameRange
  omega

end Field

/-! ## The first step -/

theorem forcedInner_ok {fs : Fin n → Field} {i : Fin n} {js : List (Fin n)} {m m' : Fin n → Mark}
    (h : forcedInner fs i js m = .ok m') :
    (∀ j ∈ js, i ≠ j → (fs i).overlaps (fs j) → (fs j).bForced = false) ∧
    ∀ k, (m' k).bDupRange = (m k).bDupRange ∧
      ((m' k).bIgnore = true ↔ (m k).bIgnore = true ∨ (k ∈ js ∧ i ≠ k ∧ (fs i).overlaps (fs k))) := by
  induction js generalizing m with
  | nil =>
    obtain rfl := Except.ok.inj h
    refine ⟨fun j hj => absurd hj List.not_mem_nil, fun k => ⟨rfl, ?_⟩⟩
    exact ⟨.inl, fun h => h.elim id fun h => absurd h.1 List.not_mem_nil⟩
  | cons j js ih =>
    -- a field that is passed over
    have hskip : ¬ (i ≠ j ∧ (fs i).overlaps (fs j)) → forcedInner fs i js m = .ok m' →
        (∀ k ∈ j :: js, i ≠ k → (fs i).overlaps (fs k) → (fs k).bForced = false) ∧
        ∀ k, (m' k).bDupRange = (m k).bDupRange ∧
          ((m' k).bIgnore = true ↔ (m k).bIgnore = true ∨ (k ∈ j :: js ∧ i ≠ k ∧ (fs i).overlaps (fs k))) := by
      intro hno h
      obtain ⟨hforced, hmarks⟩ := ih h
      refine ⟨fun k hk hne hov => ?_, fun k => ⟨(hmarks k).1, (hmarks k).2.trans (or_congr_right ?_)⟩⟩
      · rcases List.mem_cons.1 hk with rfl | hk
        · exact absurd ⟨hne, hov⟩ hno
        · exact hforced k hk hne hov
      · constructor
        · exact fun h => ⟨List.mem_cons_of_mem _ h.1, h.2⟩
        · rintro ⟨hk, hc⟩
          rcases List.mem_cons.1 hk with rfl | hk
          · exact absurd hc hno
          · exact ⟨hk, hc⟩
    rw [forcedInner] at h
    by_cases hij : i = j
    · rw [if_pos hij] at h
      exact hskip (fun hc => hc.1 hij) h
    · rw [if_neg hij] at h
      by_cases hov : (fs i).overlaps (fs j)
      · rw [if_neg (not_not_intro hov)] at h
        cases hf : (fs j).bForced with
        | true =>
          rw [hf, if_pos rfl] at h
          cases h
        | false =>
          rw [hf, if_neg Bool.false_ne_true] at h
          obtain ⟨hforced, hmarks⟩ := ih h
          refine ⟨fun k hk hne hov' => ?_, fun k => ?_⟩
          · rcases List.mem_cons.1 hk with rfl | hk
            · exact hf
            · exact hforced k hk hne hov'
          · obtain ⟨hdup, hign⟩ := hmarks k
            by_cases hkj : k = j
            · subst hkj
              rw [Function.update_self] at hdup hign
              exact ⟨hdup, iff_of_true (hign.2 (.inl rfl)) (.inr ⟨List.mem_cons_self, hij, hov⟩)⟩
            · rw [Function.update_of_ne hkj] at hdup hign
              refine ⟨hdup, hign.trans (or_congr_right ?_)⟩
              rw [List.mem_cons]
              exact and_congr_left' ⟨.inr, fun h => h.resolve_left hkj⟩
      · rw [if_pos hov] at h
        exact hskip (fun hc => hov hc.2) h

theorem forcedLoop_ok {fs : Fin n → Field} {is : List (Fin n)} {m m' : Fin n → Mark} (h : forcedLoop fs is m = .ok m') :
    (∀ i ∈ is, (fs i).bForced = true → ∀ j, i ≠ j → (fs i).overlaps (fs j) → (fs j).bForced = false) ∧
    ∀ k, (m' k).bDupRange = (m k).bDupRange ∧
      ((m' k).bIgnore = true ↔
        (m k).bIgnore = true ∨ ∃ i ∈ is, (fs i).bForced = true ∧ i ≠ k ∧ (fs i).overlaps (fs k)) := by
  induction is generalizing m with
  | nil =>
    obtain rfl := Except.ok.inj h
    refine ⟨fun j hj => absurd hj List.not_mem_nil, fun k => ⟨rfl, .inl, ?_⟩⟩
    rintro (h | ⟨i, hi, -⟩)
    · exact h
    · exact absurd hi List.not_mem_nil
  | cons i is ih =>
    rw [forcedLoop] at h
    cases hf : (fs i).bForced with
    | false =>
      rw [hf, if_neg Bool.false_ne_true] at h
      obtain ⟨hforced, hmarks⟩ := ih h
      refine ⟨fun k hk hkf => ?_, fun k => ⟨(hmarks k).1, (hmarks k).2.trans (or_congr_right ?_)⟩⟩
      · rcases List.mem_cons.1 hk with rfl | hk
        · exact absurd (hf.symm.trans hkf) Bool.false_ne_true
        · exact hforced k hk hkf
      · rw [List.exists_mem_cons_iff, hf]
        exact ⟨.inr, fun h => h.resolve_left fun h => absurd h.1 Bool.false_ne_true⟩
    | true =>
      rw [hf, if_pos rfl] at h
      cases hin : forcedInner fs i (List.finRange n) m with
      | error e =>
        rw [hin] at h
        cases h
      | ok m1 =>
        rw [hin] at h
        obtain ⟨hforced1, hmarks1⟩ := forcedInner_ok hin
        obtain ⟨hforced, hmarks⟩ := ih h
        refine ⟨fun k hk hkf => ?_, fun k => ⟨(hmarks k).1.trans (hmarks1 k).1, ?_⟩⟩
        · rcases List.mem_cons.1 hk with rfl | hk
          · exact fun j => hforced1 j (List.mem_finRange j)
          · exact hforced k hk hkf
        · rw [(hmarks k).2, (hmarks1 k).2, List.exists_mem_cons_iff, or_assoc]
          refine or_congr_right (or_congr_left ?_)
          exact ⟨fun h => ⟨hf, h.2⟩, fun h => ⟨List.mem_finRange k, h.2⟩⟩

/-- **The first step** ignores what a forced field overlaps, and forced fields do not overlap. -/
theorem forcedLoop_spec {fs : Fin n → Field} {m : Fin n → Mark}
    (h : forcedLoop fs (List.finRange n) (fun _ => .init) = .ok m) :
    (∀ i, (fs i).bForced = true → ¬ Ignored fs i) ∧
    ∀ k, (m k).bDupRange = false ∧ ((m k).bIgnore = true ↔ Ignored fs k) := by
  obtain ⟨hforced, hmarks⟩ := forcedLoop_ok h
  constructor
  · rintro j hj ⟨i, hi, hne, hov⟩
    exact absurd (hj.symm.trans (hforced i (List.mem_finRange i) hi j hne hov)) Bool.noConfusion
  · intro k
    refine ⟨(hmarks k).1, (hmarks k).2.trans ?_⟩
    constructor
    · rintro (h | ⟨i, -, h⟩)
      · exact absurd h Bool.false_ne_true
      · exact ⟨i, h⟩
    · rintro ⟨i, h⟩
      exact .inr ⟨i, List.mem_finRange i, h⟩

/-! ## The second step -/

/-- What the inner loop of the second step has done once it has been through `js`. -/
structure Inner (fs : Fin n → Field) (i : Fin n) (js : List (Fin n)) (m m' : Fin n → Mark) : Prop where
  ignore : ∀ k, (m' k).bIgnore = (m k).bIgnore
  self : (m' i).bDupRange = (m i).bDupRange
  others : ∀ k, k ≠ i → (m' k).bSpanning = (m k).bSpanning
  spanning : (m' i).bSpanning = true ↔ (m i).bSpanning = true ∧
    ∀ j ∈ js, i ≠ j → (m j).bIgnore = false → (fs i).overlaps (fs j) → (fs i).holds (fs j)
  toggled : ∀ k ∈ js, k ≠ i → (m k).bIgnore = false → (fs i).sameRange (fs k) → (m' k).bDupRange = !(m i).bDupRange
  kept : ∀ k, k ≠ i → ¬ (k ∈ js ∧ (m k).bIgnore = false ∧ (fs i).sameRange (fs k)) →
    (m' k).bDupRange = (m k).bDupRange

/-- A field that is passed over. -/
theorem Inner.skip {fs : Fin n → Field} {i j : Fin n} {js : List (Fin n)} {m m' : Fin n → Mark}
    (hj : i ≠ j → (m j).bIgnore = false → (fs i).overlaps (fs j) →
      (fs i).holds (fs j) ∧ ¬ (fs i).sameRange (fs j)) (h : Inner fs i js m m') : Inner fs i (j :: js) m m' where
  ignore := h.ignore
  self := h.self
  others := h.others
  spanning := by
    rw [h.spanning, List.forall_mem_cons]
    exact and_congr_right' ⟨fun hjs => ⟨fun h1 h2 h3 => (hj h1 h2 h3).1, hjs⟩, fun h => h.2⟩
  toggled k hk hne hign hsame := by
    rcases List.mem_cons.1 hk with rfl | hk
    · exact absurd hsame (hj hne.symm hign hsame.overlaps).2
    · exact h.toggled k hk hne hign hsame
  kept k hne hno := h.kept k hne fun hc => hno ⟨List.mem_cons_of_mem _ hc.1, hc.2⟩

/-- A field with the same range. -/
theorem Inner.same {fs : Fin n → Field} {i j : Fin n} {js : List (Fin n)} {m m' : Fin n → Mark} {d : Option ℕ}
    (hij : i ≠ j) (hign : (m j).bIgnore = false) (hsame : (fs i).sameRange (fs j))
    (h : Inner fs i js (Function.update m j { m j with bDupRange := !(m i).bDupRange, pDupField := d }) m') :
    Inner fs i (j :: js) m m' := by
  have hi : Function.update m j { m j with bDupRange := !(m i).bDupRange, pDupField := d } i = m i :=
    Function.update_of_ne hij _ _
  have hflags : ∀ k, (Function.update m j { m j with bDupRange := !(m i).bDupRange, pDupField := d } k).bIgnore =
        (m k).bIgnore ∧
      (Function.update m j { m j with bDupRange := !(m i).bDupRange, pDupField := d } k).bSpanning =
        (m k).bSpanning := by
    intro k
    by_cases hk : k = j
    · subst hk
      rw [Function.update_self]
      exact ⟨rfl, rfl⟩
    · rw [Function.update_of_ne hk]
      exact ⟨rfl, rfl⟩
  refine ⟨fun k => (h.ignore k).trans (hflags k).1, h.self.trans (by rw [hi]),
    fun k hk => (h.others k hk).trans (hflags k).2, ?_, fun k hk hne hk' hs => ?_, fun k hne hno => ?_⟩
  · rw [h.spanning, hi, List.forall_mem_cons]
    refine and_congr_right' ⟨fun hjs => ⟨fun _ _ _ => hsame.holds, fun k hk h1 h2 => ?_⟩, fun hjs k hk h1 h2 => ?_⟩
    · exact hjs k hk h1 ((hflags k).1.trans h2)
    · exact hjs.2 k hk h1 ((hflags k).1.symm.trans h2)
  · by_cases hjs : k ∈ js
    · rw [h.toggled k hjs hne ((hflags k).1.trans hk') hs, hi]
    · obtain rfl : k = j := (List.mem_cons.1 hk).resolve_right hjs
      rw [h.kept k hne fun hc => hjs hc.1, Function.update_self]
  · have hkj : k ≠ j := by
      rintro rfl
      exact hno ⟨List.mem_cons_self, hign, hsame⟩
    rw [h.kept k hne fun hc => hno ⟨List.mem_cons_of_mem _ hc.1, (hflags k).1.symm.trans hc.2.1, hc.2.2⟩,
      Function.update_of_ne hkj]

/-- A field that this one does not hold. -/
theorem Inner.clear {fs : Fin n → Field} {i j : Fin n} {js : List (Fin n)} {m m' : Fin n → Mark} (hij : i ≠ j)
    (hign : (m j).bIgnore = false) (hov : (fs i).overlaps (fs j)) (hno : ¬ (fs i).holds (fs j))
    (h : Inner fs i js (Function.update m i { m i with bSpanning := false }) m') : Inner fs i (j :: js) m m' := by
  have hflags : ∀ k, (Function.update m i { m i with bSpanning := false } k).bIgnore = (m k).bIgnore ∧
      (Function.update m i { m i with bSpanning := false } k).bDupRange = (m k).bDupRange := by
    intro k
    by_cases hk : k = i
    · subst hk
      rw [Function.update_self]
      exact ⟨rfl, rfl⟩
    · rw [Function.update_of_ne hk]
      exact ⟨rfl, rfl⟩
  refine ⟨fun k => (h.ignore k).trans (hflags k).1, h.self.trans (hflags i).2,
    fun k hk => (h.others k hk).trans (by rw [Function.update_of_ne hk]), ?_, fun k hk hne hk' hs => ?_,
    fun k hne hc => ?_⟩
  · rw [h.spanning, Function.update_self, List.forall_mem_cons]
    exact iff_of_false (fun hc => Bool.false_ne_true hc.1) fun hc => hno (hc.2.1 hij hign hov)
  · have hjs : k ∈ js := by
      refine (List.mem_cons.1 hk).resolve_left ?_
      rintro rfl
      exact hno hs.holds
    rw [h.toggled k hjs hne ((hflags k).1.trans hk') hs, (hflags i).2]
  · refine (h.kept k hne fun hk => hc ⟨List.mem_cons_of_mem _ hk.1, ?_, hk.2.2⟩).trans (hflags k).2
    exact (hflags k).1.symm.trans hk.2.1

theorem spanInner_spec {fs : Fin n → Field} {i : Fin n} {js : List (Fin n)} {m : Fin n → Mark}
    (hforced : ∀ j ∈ js, i ≠ j → (m j).bIgnore = false → (fs i).overlaps (fs j) → (fs j).bForced = false) :
    Inner fs i js m (spanInner fs i js m) := by
  induction js generalizing m with
  | nil =>
    exact ⟨fun _ => rfl, rfl, fun _ _ => rfl, ⟨fun h => ⟨h, fun _ hj => absurd hj List.not_mem_nil⟩, fun h => h.1⟩,
      fun _ hk => absurd hk List.not_mem_nil, fun _ _ _ => rfl⟩
  | cons j js ih =>
    have hrest := fun k hk => hforced k (List.mem_cons_of_mem j hk)
    rw [spanInner]
    by_cases hij : i = j
    · rw [if_pos hij]
      exact (ih hrest).skip fun hne => absurd hij hne
    rw [if_neg hij]
    cases hign : (m j).bIgnore with
    | true =>
      rw [if_pos rfl]
      exact (ih hrest).skip fun _ hc => absurd (hign.symm.trans hc) Bool.noConfusion
    | false =>
      rw [if_neg Bool.false_ne_true]
      by_cases hov : (fs i).overlaps (fs j)
      · rw [if_neg (not_not_intro hov), hforced j List.mem_cons_self hij hign hov, if_neg Bool.false_ne_true]
        by_cases hsame : (fs i).sameRange (fs j)
        · rw [if_pos hsame]
          refine (ih fun k hk h1 h2 => hrest k hk h1 ?_).same hij hign hsame
          by_cases hk : k = j
          · exact hk ▸ hign
          · rw [Function.update_of_ne hk] at h2
            exact h2
        · rw [if_neg hsame]
          by_cases hhold : (fs i).holds (fs j)
          · rw [if_pos hhold]
            exact (ih hrest).skip fun _ _ _ => ⟨hhold, hsame⟩
          · rw [if_neg hhold]
            refine (ih fun k hk h1 h2 => hrest k hk h1 ?_).clear hij hign hov hhold
            rw [Function.update_of_ne (Ne.symm h1)] at h2
            exact h2
      · rw [if_pos hov]
        exact (ih hrest).skip fun _ _ hc => absurd hc hov

/-- The flag of a field once those of its range in the list have been through the loop: each sets the others' to the
opposite of its own. -/
def toggles (same : List (Fin n)) (k : Fin n) : Bool :=
  (same.length + if same.getLast? = some k then 1 else 0) % 2 == 1

theorem toggles_concat {same : List (Fin n)} {i k : Fin n} (hi : i ∉ same) :
    toggles (same ++ [i]) k = if k = i then toggles same i else !toggles same i := by
  have hlast : same.getLast? ≠ some i := fun h => hi (List.mem_of_getLast? h)
  unfold toggles
  rw [if_neg hlast, List.getLast?_concat, List.length_append, List.length_singleton]
  by_cases hk : k = i
  · rw [if_pos hk, hk, if_pos rfl, Nat.add_assoc, Nat.add_mod_right]
    rfl
  · rw [if_neg hk, if_neg fun h => hk (Option.some.inj h).symm]
    simp only [Nat.add_zero]
    rcases Nat.mod_two_eq_zero_or_one same.length with h | h
    · have h' : (same.length + 1) % 2 = 1 := by omega
      rw [h, h']
      rfl
    · have h' : (same.length + 1) % 2 = 0 := by omega
      rw [h, h']
      rfl

/-- What the second step has done with the fields of `pre`. -/
structure Marked (fs : Fin n → Field) (pre : List (Fin n)) (m : Fin n → Mark) : Prop where
  ignore : ∀ k, (m k).bIgnore = true ↔ Ignored fs k
  spanning : ∀ k ∈ pre, (m k).bSpanning = true ↔ Top fs k
  dup : ∀ k, ¬ Ignored fs k → (fs k).bForced = false →
    (m k).bDupRange = toggles (pre.filter fun j => (fs k).sameRange (fs j)) k
  forced : ∀ k, (fs k).bForced = true → (m k).bDupRange = false

theorem ignored_congr {fs : Fin n → Field} {i k : Fin n} (hsame : (fs i).sameRange (fs k)) (hk : (fs k).bForced = false)
    (h : Ignored fs i) : Ignored fs k := by
  obtain ⟨x, hx, -, hov⟩ := h
  refine ⟨x, hx, ?_, ?_⟩
  · rintro rfl
    exact Bool.false_ne_true (hk.symm.trans hx)
  · exact Field.overlaps_comm.1 (hsame.congr.1.1 (Field.overlaps_comm.1 hov))

/-- A forced field that no other one overlaps is spanning. -/
theorem top_of_forced {fs : Fin n → Field} {i : Fin n} (hi : (fs i).bForced = true) (hign : ¬ Ignored fs i) :
    Top fs i := by
  refine ⟨hign, fun j hj hov => ?_⟩
  by_cases hij : i = j
  · subst hij
    exact ⟨Nat.le_refl _, Nat.le_refl _⟩
  · exact absurd ⟨i, hi, hij, hov⟩ hj

/-- A field that is forced or ignored: its flag says so, and no duplicate is marked. -/
theorem Marked.pass {fs : Fin n → Field} {pre : List (Fin n)} {m : Fin n → Mark} {i : Fin n} (h : Marked fs pre m)
    (hforced : ∀ i, (fs i).bForced = true → ¬ Ignored fs i) (hi : (fs i).bForced = true ∨ Ignored fs i) :
    Marked fs (pre ++ [i]) (Function.update m i { m i with bSpanning := !(m i).bIgnore }) := by
  have hflags : ∀ k, (Function.update m i { m i with bSpanning := !(m i).bIgnore } k).bIgnore = (m k).bIgnore ∧
      (Function.update m i { m i with bSpanning := !(m i).bIgnore } k).bDupRange = (m k).bDupRange := by
    intro k
    by_cases hk : k = i
    · subst hk
      rw [Function.update_self]
      exact ⟨rfl, rfl⟩
    · rw [Function.update_of_ne hk]
      exact ⟨rfl, rfl⟩
  refine ⟨fun k => (hflags k).1 ▸ h.ignore k, fun k hk => ?_, fun k hk hkf => ?_,
    fun k hk => (hflags k).2.trans (h.forced k hk)⟩
  · by_cases hki : k = i
    · subst hki
      rw [Function.update_self, Bool.not_eq_true', ← Bool.not_eq_true, h.ignore k]
      rcases hi with hi | hi
      · exact iff_of_true (hforced k hi) (top_of_forced hi (hforced k hi))
      · exact iff_of_false (fun hc => hc hi) fun hc => hc.1 hi
    · rw [Function.update_of_ne hki]
      exact h.spanning k ((List.mem_append.1 hk).resolve_right fun hc => hki (List.mem_singleton.1 hc))
  · -- nothing with this range would be left
    have hno : ¬ (fs k).sameRange (fs i) := by
      intro hsame
      refine hk (ignored_congr hsame.symm hkf ?_)
      rcases hi with hi | hi
      · refine absurd ⟨i, hi, ?_, hsame.symm.overlaps⟩ hk
        rintro rfl
        exact Bool.false_ne_true (hkf.symm.trans hi)
      · exact hi
    rw [(hflags k).2, h.dup k hk hkf, List.filter_append,
      List.filter_cons_of_neg (by rw [decide_eq_true_iff]; exact hno), List.filter_nil, List.append_nil]

/-- A field that goes through the inner loop. -/
theorem Marked.inner {fs : Fin n → Field} {pre : List (Fin n)} {m m' : Fin n → Mark} {i : Fin n} (h : Marked fs pre m)
    (hpre : i ∉ pre) (hign : ¬ Ignored fs i) (hi : (fs i).bForced = false)
    (hm' : Inner fs i (List.finRange n) (Function.update m i { m i with bSpanning := true }) m') :
    Marked fs (pre ++ [i]) m' := by
  have hflags : ∀ k, (Function.update m i { m i with bSpanning := true } k).bIgnore = (m k).bIgnore ∧
      (Function.update m i { m i with bSpanning := true } k).bDupRange = (m k).bDupRange := by
    intro k
    by_cases hk : k = i
    · subst hk
      rw [Function.update_self]
      exact ⟨rfl, rfl⟩
    · rw [Function.update_of_ne hk]
      exact ⟨rfl, rfl⟩
  have hignore : ∀ k, (m k).bIgnore = false ↔ ¬ Ignored fs k := fun k => by rw [← h.ignore k, Bool.not_eq_true]
  refine ⟨fun k => ?_, fun k hk => ?_, fun k hk hkf => ?_, fun k hk => ?_⟩
  · rw [hm'.ignore k, (hflags k).1]
    exact h.ignore k
  · by_cases hki : k = i
    · subst hki
      rw [hm'.spanning, Function.update_self]
      constructor
      · rintro ⟨-, hall⟩
        refine ⟨hign, fun j hj hov => ?_⟩
        by_cases hkj : k = j
        · subst hkj
          exact ⟨Nat.le_refl _, Nat.le_refl _⟩
        · exact hall j (List.mem_finRange j) hkj ((hflags j).1.trans ((hignore j).2 hj)) hov
      · intro htop
        refine ⟨rfl, fun j _ _ hj hov => htop.2 j ((hignore j).1 ((hflags j).1.symm.trans hj)) hov⟩
    · rw [hm'.others k hki, Function.update_of_ne hki]
      exact h.spanning k ((List.mem_append.1 hk).resolve_right fun hc => hki (List.mem_singleton.1 hc))
  · have hnotin : i ∉ pre.filter fun j => (fs k).sameRange (fs j) := fun hc => hpre (List.mem_filter.1 hc).1
    by_cases hsame : (fs k).sameRange (fs i)
    · rw [List.filter_append, List.filter_cons_of_pos (by rw [decide_eq_true_iff]; exact hsame), List.filter_nil,
        toggles_concat hnotin]
      have hclass : (pre.filter fun j => (fs k).sameRange (fs j)) = pre.filter fun j => (fs i).sameRange (fs j) :=
        List.filter_congr fun j _ => decide_eq_decide.2 hsame.congr.2.2
      rw [hclass, ← h.dup i hign hi]
      by_cases hki : k = i
      · subst hki
        rw [if_pos rfl, hm'.self, (hflags k).2]
      · rw [if_neg hki, hm'.toggled k (List.mem_finRange k) hki ((hflags k).1.trans ((hignore k).2 hk)) hsame.symm,
          (hflags i).2]
    · have hki : k ≠ i := by
        rintro rfl
        exact hsame ⟨rfl, rfl⟩
      rw [hm'.kept k hki fun hc => hsame hc.2.2.symm, (hflags k).2, h.dup k hk hkf, List.filter_append,
        List.filter_cons_of_neg (by rw [decide_eq_true_iff]; exact hsame), List.filter_nil, List.append_nil]
  · have hki : k ≠ i := by
      rintro rfl
      exact Bool.false_ne_true (hi.symm.trans hk)
    refine (hm'.kept k hki fun hc => hign ⟨k, hk, hki, hc.2.2.symm.overlaps⟩).trans ?_
    exact (hflags k).2.trans (h.forced k hk)

theorem spanLoop_marked {fs : Fin n → Field} (hforced : ∀ i, (fs i).bForced = true → ¬ Ignored fs i)
    {is pre : List (Fin n)} {m : Fin n → Mark} (hnodup : (pre ++ is).Nodup) (h : Marked fs pre m) :
    Marked fs (pre ++ is) (spanLoop fs is m) := by
  induction is generalizing pre m with
  | nil => exact (List.append_nil pre).symm ▸ h
  | cons i is ih =>
    have happend : pre ++ i :: is = (pre ++ [i]) ++ is := by rw [List.append_assoc, List.singleton_append]
    rw [happend] at hnodup ⊢
    rw [spanLoop]
    dsimp only
    cases hcond : (fs i).bForced || (Function.update m i { m i with bSpanning := !(m i).bIgnore } i).bIgnore with
    | true =>
      rw [if_pos rfl]
      refine ih hnodup (h.pass hforced ?_)
      rw [Bool.or_eq_true, Function.update_self] at hcond
      exact hcond.imp_right (h.ignore i).1
    | false =>
      rw [if_neg Bool.false_ne_true]
      rw [Bool.or_eq_false_iff, Function.update_self] at hcond
      have hign : ¬ Ignored fs i := fun hc => Bool.false_ne_true (hcond.2.symm.trans ((h.ignore i).2 hc))
      have hpre : i ∉ pre := fun hc =>
        (List.nodup_append.1 (List.nodup_append.1 hnodup).1).2.2 i hc i (List.mem_singleton.2 rfl) rfl
      have hspan : (!(m i).bIgnore) = true := by
        rw [show (m i).bIgnore = false from hcond.2]
        rfl
      rw [hspan]
      refine ih hnodup (h.inner hpre hign hcond.1 (spanInner_spec fun j _ hij hj hov => ?_))
      -- no forced field is left that overlaps one that is not ignored
      cases hf : (fs j).bForced with
      | false => rfl
      | true => exact absurd ⟨j, hf, hij.symm, Field.overlaps_comm.1 hov⟩ hign

/-- **The second step**: the flags of all fields. -/
theorem spanLoop_spec {fs : Fin n → Field} {m : Fin n → Mark}
    (h : forcedLoop fs (List.finRange n) (fun _ => .init) = .ok m) :
    Marked fs (List.finRange n) (spanLoop fs (List.finRange n) m) := by
  obtain ⟨hforced, hmarks⟩ := forcedLoop_spec h
  have hstart : Marked fs [] m :=
    ⟨fun k => (hmarks k).2, fun k hk => absurd hk List.not_mem_nil, fun k _ _ => (hmarks k).1,
      fun k _ => (hmarks k).1⟩
  have hnodup : ([] ++ List.finRange n).Nodup := List.nodup_finRange n
  exact spanLoop_marked hforced hnodup hstart

/-! ## Duplicates -/

theorem toggles_eq_false_iff {same : List (Fin n)} {k : Fin n} :
    toggles same k = false ↔
      (same.getLast? = some k ∧ same.length % 2 = 1) ∨ (same.getLast? ≠ some k ∧ same.length % 2 = 0) := by
  unfold toggles
  by_cases hlast : same.getLast? = some k
  · rw [if_pos hlast, beq_eq_false_iff_ne]
    constructor
    · intro h
      exact .inl ⟨hlast, by omega⟩
    · rintro (⟨-, h⟩ | ⟨h, -⟩)
      · omega
      · exact absurd hlast h
  · rw [if_neg hlast, beq_eq_false_iff_ne]
    constructor
    · intro h
      exact .inr ⟨hlast, by omega⟩
    · rintro (⟨h, -⟩ | ⟨-, h⟩)
      · exact absurd h hlast
      · omega

theorem ne_last_of_cons {a : Fin n} {l : List (Fin n)} (hl : l ≠ []) (hnodup : (a :: l).Nodup) :
    (a :: l).getLast? ≠ some a := by
  intro h
  rw [List.getLast?_cons_of_ne_nil hl] at h
  exact (List.nodup_cons.1 hnodup).1 (List.mem_of_getLast? h)

/-- One of the fields with a range is not marked. -/
theorem exists_clear {same : List (Fin n)} (hnodup : same.Nodup) (hne : same ≠ []) :
    ∃ k ∈ same, toggles same k = false := by
  rcases Nat.mod_two_eq_zero_or_one same.length with heven | hodd
  · cases same with
    | nil => exact absurd rfl hne
    | cons a l =>
      have hl : l ≠ [] := by
        rintro rfl
        exact absurd heven Nat.one_ne_zero
      exact ⟨a, List.mem_cons_self, toggles_eq_false_iff.2 (.inr ⟨ne_last_of_cons hl hnodup, heven⟩)⟩
  · have hlast := List.getLast?_eq_getLast_of_ne_nil hne
    exact ⟨same.getLast hne, List.getLast_mem hne, toggles_eq_false_iff.2 (.inl ⟨hlast, hodd⟩)⟩

/-- **Two of them are not marked** just if there is an even number of four or more. -/
theorem two_clear_iff {same : List (Fin n)} (hnodup : same.Nodup) :
    (∃ j ∈ same, ∃ k ∈ same, j ≠ k ∧ toggles same j = false ∧ toggles same k = false) ↔
      4 ≤ same.length ∧ same.length % 2 = 0 := by
  constructor
  · rintro ⟨j, hj, k, hk, hjk, hcj, hck⟩
    rw [toggles_eq_false_iff] at hcj hck
    have hne : same ≠ [] := List.ne_nil_of_mem hj
    have hlast := List.getLast?_eq_getLast_of_ne_nil hne
    rcases hcj with ⟨hj', hodd⟩ | ⟨hj', heven⟩
    · rcases hck with ⟨hk', -⟩ | ⟨-, heven⟩
      · exact absurd (Option.some.inj (hj'.symm.trans hk')) hjk
      · omega
    · rcases hck with ⟨-, hodd⟩ | ⟨hk', -⟩
      · omega
      · -- the two, and the last one
        have hsub : [j, k, same.getLast hne].Subperm same := by
          refine List.subperm_of_subset ?_ ?_
          · rw [hlast] at hj' hk'
            have h1 : j ≠ same.getLast hne := fun h => hj' (congrArg some h.symm)
            have h2 : k ≠ same.getLast hne := fun h => hk' (congrArg some h.symm)
            simp only [List.nodup_cons, List.mem_cons, List.not_mem_nil, or_false, not_or, not_false_eq_true,
              List.nodup_nil, and_true]
            exact ⟨⟨hjk, h1⟩, h2⟩
          · intro x hx
            simp only [List.mem_cons, List.not_mem_nil, or_false] at hx
            rcases hx with rfl | rfl | rfl
            · exact hj
            · exact hk
            · exact List.getLast_mem hne
        have hlen : 3 ≤ same.length := hsub.length_le
        exact ⟨by omega, heven⟩
  · rintro ⟨hlen, heven⟩
    cases same with
    | nil => exact absurd hlen (Nat.not_succ_le_zero 3)
    | cons a l =>
      cases l with
      | nil => exact absurd heven Nat.one_ne_zero
      | cons b l =>
        have hl : l ≠ [] := by
          rintro rfl
          have htwo : 4 ≤ 2 := hlen
          omega
        obtain ⟨hab, hnodup'⟩ := List.nodup_cons.1 hnodup
        refine ⟨a, List.mem_cons_self, b, List.mem_cons_of_mem _ List.mem_cons_self, ?_, ?_, ?_⟩
        · rintro rfl
          exact hab List.mem_cons_self
        · exact toggles_eq_false_iff.2 (.inr ⟨ne_last_of_cons (List.cons_ne_nil b l) hnodup, heven⟩)
        · refine toggles_eq_false_iff.2 (.inr ⟨?_, heven⟩)
          rw [List.getLast?_cons_of_ne_nil (List.cons_ne_nil b l)]
          exact ne_last_of_cons hl hnodup'

/-! ## Coverage -/

/-- A bit is in one of the ranges. -/
def InRanges (ranges : List CRange) (b : ℕ) : Prop := ∃ r ∈ ranges, r.1 ≤ b ∧ b < r.2

theorem inRanges_cons {r : CRange} {ranges : List CRange} {b : ℕ} :
    InRanges (r :: ranges) b ↔ (r.1 ≤ b ∧ b < r.2) ∨ InRanges ranges b := List.exists_mem_cons_iff ..

theorem inRanges_of_mergeNext {s e b : ℕ} {ranges : List CRange} (h : InRanges (mergeNext s e ranges) b) :
    (s ≤ b ∧ b < e) ∨ InRanges ranges b := by
  cases ranges with
  | nil =>
    rw [mergeNext, inRanges_cons] at h
    exact h
  | cons r ranges =>
    rw [mergeNext] at h
    rw [inRanges_cons]
    by_cases hnext : r.1 = e
    · rw [if_pos hnext, inRanges_cons] at h
      rcases h with h | h
      · by_cases hb : b < e
        · exact .inl ⟨h.1, hb⟩
        · exact .inr (.inl ⟨by omega, h.2⟩)
      · exact .inr (.inr h)
    · rw [if_neg hnext, inRanges_cons, inRanges_cons] at h
      exact h

/-- **The list has no more bits** than before and those of the field. -/
theorem inRanges_of_insert {fs fe b : ℕ} {ranges : List CRange} (h : InRanges (insertRange fs fe ranges) b) :
    InRanges ranges b ∨ (fs ≤ b ∧ b < fe) := by
  induction ranges with
  | nil =>
    rw [insertRange, inRanges_cons] at h
    exact h.symm
  | cons r ranges ih =>
    rw [insertRange] at h
    by_cases hin : r.1 ≤ fs ∧ fe ≤ r.2
    · rw [if_pos hin] at h
      exact .inl h
    rw [if_neg hin] at h
    by_cases hlt : fs < r.1
    · rw [if_pos hlt] at h
      exact (inRanges_of_mergeNext h).symm
    rw [if_neg hlt] at h
    rw [inRanges_cons]
    by_cases hmeet : r.2 = fs
    · -- the range before the field gets longer
      rw [if_pos hmeet] at h
      rcases inRanges_of_mergeNext h with h | h
      · by_cases hb : b < r.2
        · exact .inl (.inl ⟨h.1, hb⟩)
        · exact .inr ⟨by omega, h.2⟩
      · exact .inl (.inr h)
    · rw [if_neg hmeet, inRanges_cons] at h
      rcases h with h | h
      · exact .inl (.inl h)
      · exact (ih h).imp_left .inr

theorem exists_spanning_of_inRanges {fs : Fin n → Field} {m : Fin n → Mark} {b : ℕ} (h : InRanges (rangeList fs m) b) :
    ∃ i, (m i).bSpanning = true ∧ (fs i).Has b := by
  have hfold : ∀ (is : List (Fin n)) (ranges : List CRange), InRanges (is.foldl (fun ranges i =>
      if (m i).bSpanning then insertRange (fs i).pos ((fs i).pos + (fs i).width) ranges else ranges) ranges) b →
      InRanges ranges b ∨ ∃ i, (m i).bSpanning = true ∧ (fs i).Has b := by
    intro is
    induction is with
    | nil => exact fun _ h => .inl h
    | cons i is ih =>
      intro ranges h
      rw [List.foldl_cons] at h
      rcases ih _ h with h | h
      · cases hs : (m i).bSpanning with
        | false =>
          rw [hs, if_neg Bool.false_ne_true] at h
          exact .inl h
        | true =>
          rw [hs, if_pos rfl] at h
          exact (inRanges_of_insert h).imp_right fun h => ⟨i, hs, h⟩
      · exact .inr h
  rcases hfold (List.finRange n) [] h with ⟨r, hr, -⟩ | h
  · exact absurd hr List.not_mem_nil
  · exact h

/-! ## The result -/

/-- **What acceptance means**: the first step found no two forced fields that overlap, and each field is covered. -/
theorem accepted_cases {fs : Fin n → Field} {bUser : Bool} {rdModCnt : ℕ}
    (h : (findSpanningWriteFields fs bUser rdModCnt).Accepted) :
    ∃ m, forcedLoop fs (List.finRange n) (fun _ => .init) = .ok m ∧
      (findSpanningWriteFields fs bUser rdModCnt).marks = spanLoop fs (List.finRange n) m ∧
      ∀ i, covered (rangeList fs (spanLoop fs (List.finRange n) m)) (fs i) = true := by
  unfold findSpanningWriteFields at h ⊢
  cases hfirst : forcedLoop fs (List.finRange n) (fun _ => .init) with
  | error e =>
    rw [hfirst] at h
    exact absurd h.1 Bool.noConfusion
  | ok m =>
    rw [hfirst] at h
    refine ⟨m, rfl, ?_⟩
    dsimp only at h ⊢
    by_cases hun : bUser = false ∧
        ((List.finRange n).filter fun i => !covered (rangeList fs (spanLoop fs (List.finRange n) m)) (fs i)) ≠ []
    · rw [if_pos hun] at h
      exact absurd h.1 Bool.noConfusion
    · rw [if_neg hun] at h ⊢
      cases harray : arrayLoop fs (spanLoop fs (List.finRange n) m) bUser (List.finRange n) [] with
      | none =>
        rw [harray] at h
        exact absurd h.1 Bool.noConfusion
      | some msgs =>
        rw [harray] at h
        refine ⟨rfl, fun i => ?_⟩
        have hnone := (List.append_eq_nil_iff.1 h.2).1
        cases hc : covered (rangeList fs (spanLoop fs (List.finRange n) m)) (fs i) with
        | true => rfl
        | false =>
          -- a field that is not covered would be printed
          have hmem : i ∈ (List.finRange n).filter fun i =>
              !covered (rangeList fs (spanLoop fs (List.finRange n) m)) (fs i) :=
            List.mem_filter.2 ⟨List.mem_finRange i, by rw [hc]; rfl⟩
          exact absurd (List.flatMap_eq_nil_iff.1 hnone i hmem) (List.cons_ne_nil _ _)

/-- Fields with the range of a spanning field that is not forced: none is ignored or forced, and all are spanning. -/
theorem top_of_sameRange {fs : Fin n → Field} {i j : Fin n} (hi : (fs i).bForced = false) (htop : Top fs i)
    (hsame : (fs i).sameRange (fs j)) : (fs j).bForced = false ∧ Top fs j := by
  have hj : (fs j).bForced = false := by
    cases hf : (fs j).bForced with
    | false => rfl
    | true =>
      refine absurd ⟨j, hf, ?_, hsame.symm.overlaps⟩ htop.1
      rintro rfl
      exact Bool.false_ne_true (hi.symm.trans hf)
  refine ⟨hj, fun hc => htop.1 (ignored_congr hsame.symm hi hc), fun k hk hov => ?_⟩
  exact hsame.congr.2.1.1 (htop.2 k hk (hsame.congr.1.2 hov))

theorem mem_group {fs : Fin n → Field} {i j : Fin n} : j ∈ group fs i ↔ (fs i).sameRange (fs j) := by
  rw [group, List.mem_filter, decide_eq_true_iff]
  exact ⟨fun h => h.2, fun h => ⟨List.mem_finRange j, h⟩⟩

theorem group_congr {fs : Fin n → Field} {i j : Fin n} (hsame : (fs i).sameRange (fs j)) : group fs i = group fs j :=
  List.filter_congr fun _ _ => decide_eq_decide.2 hsame.congr.2.2

theorem group_nodup (fs : Fin n → Field) (i : Fin n) : (group fs i).Nodup := (List.nodup_finRange n).filter _

/-- **Exactly when two picked fields share a bit**: their range has an even number of four or more. -/
theorem exists_shared_iff {fs : Fin n → Field} {o : Outcome n} (h : Marked fs (List.finRange n) o.marks) :
    (∃ i j, o.Picked i ∧ o.Picked j ∧ i ≠ j ∧ ∃ b, (fs i).Has b ∧ (fs j).Has b) ↔ ∃ i, Crowded fs i := by
  have hdup : ∀ {i k}, (fs i).bForced = false → Top fs i → (fs i).sameRange (fs k) →
      (o.marks k).bDupRange = toggles (group fs i) k := by
    intro i k hi htop hsame
    obtain ⟨hk, htopk⟩ := top_of_sameRange hi htop hsame
    rw [group_congr hsame]
    exact h.dup k htopk.1 hk
  constructor
  · rintro ⟨i, j, ⟨hsi, hdi⟩, ⟨hsj, hdj⟩, hij, hshare⟩
    have htopi := (h.spanning i (List.mem_finRange i)).1 hsi
    have htopj := (h.spanning j (List.mem_finRange j)).1 hsj
    have hov : (fs i).overlaps (fs j) := Field.overlaps_iff.2 hshare
    -- each holds the other
    have hsame : (fs i).sameRange (fs j) :=
      Field.sameRange_of_holds (htopi.2 j htopj.1 hov) (htopj.2 i htopi.1 (Field.overlaps_comm.1 hov))
    have hi : (fs i).bForced = false := by
      cases hf : (fs i).bForced with
      | false => rfl
      | true => exact absurd ⟨i, hf, hij, hov⟩ htopj.1
    have hself : (fs i).sameRange (fs i) := ⟨rfl, rfl⟩
    rw [hdup hi htopi hself] at hdi
    rw [hdup hi htopi hsame] at hdj
    have htwo := (two_clear_iff (group_nodup fs i)).1 ⟨i, mem_group.2 hself, j, mem_group.2 hsame, hij, hdi, hdj⟩
    exact ⟨i, hi, htopi, htwo⟩
  · rintro ⟨i, hi, htop, hcount⟩
    obtain ⟨j, hj, k, hk, hjk, hdj, hdk⟩ := (two_clear_iff (group_nodup fs i)).2 hcount
    have hsj := mem_group.1 hj
    have hsk := mem_group.1 hk
    rw [← hdup hi htop hsj] at hdj
    rw [← hdup hi htop hsk] at hdk
    have htopj := (top_of_sameRange hi htop hsj).2
    have htopk := (top_of_sameRange hi htop hsk).2
    exact ⟨j, k, ⟨(h.spanning j (List.mem_finRange j)).2 htopj, hdj⟩,
      ⟨(h.spanning k (List.mem_finRange k)).2 htopk, hdk⟩, hjk,
      Field.overlaps_iff.1 (hsj.symm.trans hsk).overlaps⟩

/-- One field with the range of a spanning field is picked. -/
theorem exists_picked {fs : Fin n → Field} {o : Outcome n} (h : Marked fs (List.finRange n) o.marks) {i : Fin n}
    (hs : (o.marks i).bSpanning = true) : ∃ j, o.Picked j ∧ (fs i).sameRange (fs j) := by
  have htop := (h.spanning i (List.mem_finRange i)).1 hs
  cases hf : (fs i).bForced with
  | true => exact ⟨i, ⟨hs, h.forced i hf⟩, rfl, rfl⟩
  | false =>
    have hmem : i ∈ group fs i := mem_group.2 ⟨rfl, rfl⟩
    obtain ⟨j, hj, hclear⟩ := exists_clear (group_nodup fs i) (List.ne_nil_of_mem hmem)
    have hsame := mem_group.1 hj
    obtain ⟨hjf, htopj⟩ := top_of_sameRange hf htop hsame
    refine ⟨j, ⟨(h.spanning j (List.mem_finRange j)).2 htopj, ?_⟩, hsame⟩
    rw [h.dup j htopj.1 hjf]
    rw [group_congr hsame] at hclear
    exact hclear

/-- **When the picked fields are a partition**: just if no range has an even number of four or more spanning fields that
are not forced. -/
theorem partitions_iff (fs : Fin n → Field) (bUserSpanningWrite : Bool) (rdModCnt : ℕ)
    (h : (findSpanningWriteFields fs bUserSpanningWrite rdModCnt).Accepted) :
    (findSpanningWriteFields fs bUserSpanningWrite rdModCnt).Partitions fs ↔ ∀ i, ¬ Crowded fs i := by
  obtain ⟨m, hfirst, hmarks, hcovered⟩ := accepted_cases h
  have hmarked := spanLoop_spec hfirst
  rw [← hmarks] at hmarked hcovered
  have hshared := exists_shared_iff hmarked
  constructor
  · intro hpart i hi
    obtain ⟨j, k, hj, hk, hjk, b, hb⟩ := hshared.2 ⟨i, hi⟩
    exact hpart.1 j k hj hk hjk b hb
  · intro hno
    constructor
    · intro j k hj hk hjk b hb
      obtain ⟨i, hi⟩ := hshared.1 ⟨j, k, hj, hk, hjk, b, hb⟩
      exact hno i hi
    · intro i b hb
      obtain ⟨r, hr, hin⟩ := List.any_eq_true.1 (hcovered i)
      rw [Bool.and_eq_true, decide_eq_true_iff, decide_eq_true_iff] at hin
      have hb' : r.1 ≤ b ∧ b < r.2 := ⟨Nat.le_trans hin.1 hb.1, Nat.lt_of_lt_of_le hb.2 hin.2⟩
      obtain ⟨j, hj, hjb⟩ := exists_spanning_of_inRanges ⟨r, hr, hb'⟩
      obtain ⟨k, hk, hsame⟩ := exists_picked hmarked hj
      exact ⟨k, hk, hsame.has.1 hjb⟩

theorem int_width_pos : 0 < 32 := Nat.succ_pos 31

/-- The members of a `union` of as many integers of 32 bits. -/
def unionOf (n : ℕ) (i : Fin n) : Field := ⟨i.val, [".a", ".b", ".c", ".d"].getD i.val "", 0, 32, false, int_width_pos⟩

/-- A union of three integers. -/
theorem partitions_iff_three : (findSpanningWriteFields (unionOf 3) true 1).Accepted ∧
    ((findSpanningWriteFields (unionOf 3) true 1).Partitions (unionOf 3) ↔ ∀ i, ¬ Crowded (unionOf 3) i) :=
  have h : (findSpanningWriteFields (unionOf 3) true 1).Accepted := ⟨rfl, rfl⟩
  ⟨h, partitions_iff (unionOf 3) true 1 h⟩

/-- A union of four integers is accepted, and three of them are picked, with all bits in common. -/
theorem union_of_four_shared : (findSpanningWriteFields (unionOf 4) true 1).Accepted ∧
    (findSpanningWriteFields (unionOf 4) true 1).Picked 0 ∧ (findSpanningWriteFields (unionOf 4) true 1).Picked 1 ∧
    (findSpanningWriteFields (unionOf 4) true 1).Picked 2 ∧
    ¬ (findSpanningWriteFields (unionOf 4) true 1).Partitions (unionOf 4) := by
  have h0 : (findSpanningWriteFields (unionOf 4) true 1).Picked 0 := ⟨rfl, rfl⟩
  have h1 : (findSpanningWriteFields (unionOf 4) true 1).Picked 1 := ⟨rfl, rfl⟩
  refine ⟨⟨rfl, rfl⟩, h0, h1, ⟨rfl, rfl⟩, fun hpart => ?_⟩
  have hbit : ∀ i, (unionOf 4 i).Has 0 := fun i => ⟨Nat.le_refl 0, Nat.succ_pos 31⟩
  exact hpart.1 0 1 h0 h1 (by decide) 0 ⟨hbit 0, hbit 1⟩

end OpenHT.Htl.Spanning
