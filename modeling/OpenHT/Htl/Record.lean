import OpenHT.Lib.CLayout

/-!
# The layout of records

`InitAndValidateRecord` computes where the fields of a struct or union are, for the hardware; the host compiles
the same records with a C compiler.

* `ClangType`, `Fields`: the C types and the fields of a record.
* `initAndValidateRecord`: the scan over the fields.
* `Fields.slots`: the fields with their sizes, as the ABI has them.
* `Slot.Fits`, `Fits`: where the scan and the ABI agree on a field, and on a record.
-/

namespace OpenHT.Htl.Record

open CLayout

/-! ## The scan -/

/-- The types `FindClangType` finds. -/
inductive ClangType
  | bool
  | uint8
  | uint16
  | uint32
  | uint64
  | int8
  | int16
  | int32
  | int64
deriving DecidableEq, Repr

namespace ClangType

def clangBitWidth : ClangType → ℕ
  | bool => 1
  | uint8 | int8 => 8
  | uint16 | int16 => 16
  | uint32 | int32 => 32
  | uint64 | int64 => 64

def clangMinAlign : ClangType → ℕ
  | bool | uint8 | int8 => 8
  | uint16 | int16 => 16
  | uint32 | int32 => 32
  | uint64 | int64 => 64

end ClangType

/-- The fields of a record, in declaration order. A record in a record is a field of a named record type, or an
unnamed record. -/
inductive Fields
  | nil
  | clang (t : ClangType) (dimenList : List ℕ) (rest : Fields)
  | bitField (t : ClangType) (fieldWidth : ℕ) (pos : 0 < fieldWidth) (fits : fieldWidth ≤ t.clangBitWidth)
    (rest : Fields)
  | record (bUnion : Bool) (fields : Fields) (dimenList : List ℕ) (rest : Fields)

/-- The first number that is no `int`. -/
def intEnd : ℕ := 2147483648

/-- The conversion to `int`. -/
def toInt (x : Int) : Int := (x + intEnd) % (2 * intEnd) - intEnd

/-- `m_elemCnt`, a `size_t`. -/
def elemCnt (dimenList : List ℕ) : ℕ := dimenList.foldl (fun cnt dimen => cnt * dimen % 18446744073709551616) 1

/-- A field with the width and the alignment of its type. -/
structure Field where
  clangBitWidth : Int
  clangMinAlign : Int
  elemCnt : ℕ
  fieldWidth : Option Int

/-- The local variables of the scan. -/
structure Scan where
  clangBitPos : Int
  clangBitWidth : Int
  clangMinAlign : Int
  prevTypeWidth : Int

/-- The next multiple of an alignment, as the code computes it. -/
def alignTo (width align : Int) : Int :=
  if width.tmod align > 0 then toInt (width + align - width.tmod align) else width

namespace Scan

def start : Scan := ⟨0, 0, 8, 0⟩

/-- Storage for a field behind what there is. -/
def alloc (bUnion : Bool) (s : Scan) (f : Field) : Scan :=
  if bUnion then
    { s with clangBitWidth := max s.clangBitWidth (toInt (f.clangBitWidth * toInt f.elemCnt)) }
  else
    { s with
      clangBitPos := alignTo s.clangBitWidth f.clangMinAlign
      clangBitWidth := toInt (alignTo s.clangBitWidth f.clangMinAlign + f.clangBitWidth * f.elemCnt) }

def setType (s : Scan) (width : Int) : Scan := { s with prevTypeWidth := width }

/-- The field is at `clangBitPos` afterwards. A bit-field stays in the storage of the one before it if both have
types of one width and there is room. -/
def field (bUnion : Bool) (s : Scan) (f : Field) : Scan :=
  match f.fieldWidth with
  | some w =>
    if s.prevTypeWidth ≠ f.clangBitWidth ∨ toInt (s.clangBitPos + w) > s.clangBitWidth then
      (s.alloc bUnion f).setType f.clangBitWidth
    else s.setType f.clangBitWidth
  | none => (s.alloc bUnion f).setType 0

def advance (bUnion : Bool) (s : Scan) (f : Field) : Scan :=
  { s with
    clangBitPos :=
      if bUnion then s.clangBitPos else toInt (s.clangBitPos + f.fieldWidth.getD f.clangBitWidth * f.elemCnt)
    clangMinAlign := max s.clangMinAlign f.clangMinAlign }

end Scan

/-- The positions of the fields, and the variables at the end. -/
def scanFields (bUnion : Bool) : Scan → List Field → List Int × Scan
  | s, [] => ([], s)
  | s, f :: fs =>
    let s' := s.field bUnion f
    let r := scanFields bUnion (s'.advance bUnion f) fs
    (s'.clangBitPos :: r.1, r.2)

def layoutOf (bUnion : Bool) (fs : List Field) : Layout :=
  let r := scanFields bUnion .start fs
  ⟨r.1, toInt (alignTo r.2.clangBitWidth r.2.clangMinAlign), r.2.clangMinAlign⟩

/-- The fields with their types, where the records among them are laid out. -/
def Fields.resolve : Fields → List Field
  | nil => []
  | clang t dims rest => ⟨t.clangBitWidth, t.clangMinAlign, elemCnt dims, none⟩ :: rest.resolve
  | bitField t w _ _ rest => ⟨t.clangBitWidth, t.clangMinAlign, 1, some w⟩ :: rest.resolve
  | record bUnion fields dims rest =>
    let l := layoutOf bUnion fields.resolve
    ⟨l.width, l.align, elemCnt dims, none⟩ :: rest.resolve

/-- `InitAndValidateRecord`: the positions of the fields, and `m_clangBitWidth` and `m_clangMinAlign`. -/
def initAndValidateRecord (bUnion : Bool) (fields : Fields) : Layout := layoutOf bUnion fields.resolve

/-! ## The ABI -/

/-- The size of a type in C. -/
def ClangType.size : ClangType → ℕ
  | bool | uint8 | int8 => 8
  | uint16 | int16 => 16
  | uint32 | int32 => 32
  | uint64 | int64 => 64

/-- A field as the ABI has it, and the width the scan has for its type. -/
structure Slot where
  width : ℕ
  item : Item

def elements (dimenList : List ℕ) : ℕ := dimenList.foldl (· * ·) 1

/-- The fields of a record in C. Only `bool` has another width in the scan. -/
def Fields.slots : Fields → List Slot
  | nil => []
  | clang t dims rest => ⟨t.clangBitWidth, t.size, t.size, elements dims, none⟩ :: rest.slots
  | bitField t w _ _ rest => ⟨t.clangBitWidth, t.size, t.size, 1, some w⟩ :: rest.slots
  | record bUnion fields dims rest =>
    let is := fields.slots.map Slot.item
    ⟨CLayout.size bUnion is, CLayout.size bUnion is, alignment 8 is, elements dims, none⟩ :: rest.slots

/-- The layout the C compiler chooses. -/
def cLayout (bUnion : Bool) (fields : Fields) : Layout := layout bUnion (fields.slots.map Slot.item)

/-- The records among the fields, and those among theirs. -/
def Fields.nested : Fields → List (Bool × Fields)
  | nil => []
  | clang _ _ rest => rest.nested
  | bitField _ _ _ _ rest => rest.nested
  | record bUnion fields _ rest => (bUnion, fields) :: (fields.nested ++ rest.nested)

/-! ## Where they agree -/

namespace Slot

/-- The storage that is reserved up to the end of a field: a bit-field has the whole unit of its type. -/
def reserved (s : Slot) (p : ℕ) : ℕ :=
  if s.item.bits.isSome then (p / s.width + 1) * s.width else p + s.width * s.item.count

/-- The width of a bit-field's type. -/
def unit (s : Slot) : ℕ := if s.item.bits.isSome then s.width else 0

/-- The scan puts a field where C does, with `n` bits taken and `r` reserved, behind a bit-field of width `prev`:
no boundary of its alignment is between the two, and a bit-field goes on in the unit of the one before it, or starts
where a unit does, or does not fit in the unit it is in. -/
def Fits (prev n r : ℕ) (s : Slot) : Prop :=
  match s.item.bits with
  | some w =>
    prev = s.width ∧ n + w ≤ r ∨
      (n % s.item.size = 0 ∨ s.item.size < n % s.item.size + w) ∧
        roundUp r s.item.align = roundUp n s.item.align
  | none => roundUp r s.item.align = roundUp n s.item.align

instance (prev n r : ℕ) (s : Slot) : Decidable (s.Fits prev n r) := by
  unfold Fits
  split <;> infer_instance

end Slot

/-- Every field fits, so does the end, and the size is an `int`. -/
def Fits (bUnion : Bool) : (prev n r a : ℕ) → List Slot → Prop
  | _, n, r, a, [] => roundUp r a = roundUp n a ∧ roundUp n a < intEnd
  | prev, n, r, a, s :: ss =>
    (bUnion = true ∨ s.Fits prev n r) ∧
      Fits bUnion s.unit (next bUnion n s.item) (max r (s.reserved (place bUnion n s.item))) (max a s.item.align) ss

/-! ## One field -/

/-- A field as the scan has it. -/
def Slot.field (s : Slot) : Field :=
  ⟨s.width, s.item.align, s.item.count % 18446744073709551616, s.item.bits.map Nat.cast⟩

structure Slot.Ok (s : Slot) : Prop where
  item : s.item.Ok
  width : s.width = s.item.size ∨ s.width = 1 ∧ s.item.size = 8 ∧ s.item.align = 8
  bits : ∀ w, s.item.bits = some w → s.item.count = 1 ∧ w ≤ s.width

/-- The scan has `r` bits reserved where C has `n` bits taken; behind a bit-field of width `prev` the rest of its
unit is free. -/
structure Scan.Tracks (bUnion : Bool) (prev n r a : ℕ) (sc : Scan) : Prop where
  width : sc.clangBitWidth = r
  type : sc.prevTypeWidth = prev
  align : sc.clangMinAlign = a
  union : bUnion = true → sc.clangBitPos = 0 ∧ prev ≤ r
  struct : bUnion = false → prev ≠ 0 → sc.clangBitPos = n ∧ n ≤ r ∧ r < n + prev ∧ r % prev = 0

section

variable {bUnion : Bool} {prev n r a : ℕ} {s : Slot} {sc : Scan}

theorem toInt_of_lt {x : Int} (h0 : 0 ≤ x) (h : x < intEnd) : toInt x = x := by
  unfold toInt
  rw [Int.emod_eq_of_lt (by omega) (by omega)]
  omega

/-- One bit too many turns an `int` negative. -/
theorem toInt_end : toInt intEnd = -intEnd := by decide

/-- Rounding an `int` up does not leave the range by more than one. -/
theorem alignTo_eq (ha : a = 8 ∨ a = 16 ∨ a = 32 ∨ a = 64) (hr : r < intEnd) :
    alignTo r a = toInt (roundUp r a : ℕ) ∧ roundUp r a ≤ intEnd := by
  have hle : roundUp r a ≤ intEnd := by
    apply roundUp_le_of_dvd (Nat.le_of_lt hr)
    · rcases ha with rfl | rfl | rfl | rfl <;> decide
    · omega
  have hmod : (r : Int).tmod a = ((r % a : ℕ) : Int) := (Int.ofNat_tmod r a).symm
  have hlt : r % a < a := Nat.mod_lt r (by omega)
  refine ⟨?_, hle⟩
  unfold alignTo
  rw [hmod]
  by_cases h : r % a = 0
  · rw [if_neg (by omega), roundUp, if_pos h, toInt_of_lt (by omega) (by omega)]
  · rw [if_pos (by omega), roundUp, if_neg h]
    congr 1
    omega

/-- An aligned position that is an `int`. -/
theorem alignTo_eq_iff (ha : a = 8 ∨ a = 16 ∨ a = 32 ∨ a = 64) (hr : r < intEnd) {p : ℕ} (hp : p < intEnd) :
    alignTo r a = p ↔ roundUp r a = p := by
  obtain ⟨heq, hle⟩ := alignTo_eq ha hr
  rw [heq]
  by_cases hend : roundUp r a = intEnd
  · rw [hend, toInt_end]
    omega
  · rw [toInt_of_lt (by omega) (by omega)]
    omega

/-- The number of elements, where all their bits can be counted. -/
theorem count_eq {w c : ℕ} (h : w * c < intEnd) : w = 0 ∨ c % 18446744073709551616 = c ∧ c < intEnd := by
  by_cases hw : w = 0
  · exact .inl hw
  · have hle : c ≤ w * c := Nat.le_mul_of_pos_left c (Nat.pos_of_ne_zero hw)
    have hend : intEnd ≤ 18446744073709551616 := by decide
    exact .inr ⟨Nat.mod_eq_of_lt (by omega), by omega⟩

theorem Slot.Ok.unit_cases (h : s.Ok) {w : ℕ} (hw : s.item.bits = some w) :
    0 < w ∧ w ≤ s.width ∧ s.item.size = s.item.align ∧ s.item.count = 1 ∧
      (s.width = 1 ∧ s.item.align = 8 ∨ s.width = s.item.align ∧
        (s.item.align = 8 ∨ s.item.align = 16 ∨ s.item.align = 32 ∨ s.item.align = 64)) := by
  obtain ⟨hsize, hpos, -⟩ := h.item.bits w hw
  obtain ⟨hcount, hle⟩ := h.bits w hw
  have halign := h.item.align
  have hwidth := h.width
  refine ⟨hpos, hle, hsize, hcount, ?_⟩
  omega

/-- Behind a bit-field of the same width, a bit-field that fits in the unit stays in it in C too. -/
theorem place_of_room (h : s.Ok) (ht : sc.Tracks false prev n r a) {w : ℕ} (hw : s.item.bits = some w)
    (hprev : prev = s.width) (hroom : n + w ≤ r) : sc.clangBitPos = n ∧ place false n s.item = n ∧
      (n / s.width + 1) * s.width = r := by
  obtain ⟨hpos, hle, hsize, -, hunit⟩ := h.unit_cases hw
  obtain ⟨hat, hn, hr, hmod⟩ := ht.struct rfl (by omega)
  have hplace : n % s.item.size + w ≤ s.item.size → place false n s.item = n := by
    intro hfit
    unfold place
    rw [if_neg Bool.false_ne_true, hw]
    exact if_pos hfit
  rcases hunit with ⟨h1, h8⟩ | ⟨heq, h8 | h8 | h8 | h8⟩
  · omega
  all_goals
    have hw8 : s.width = _ := heq.trans h8
    rw [hprev, hw8] at hmod hr
    rw [hw8]
    exact ⟨hat, hplace (by rw [hsize, h8]; omega), by omega⟩

theorem room_stays (h : s.Ok) (ht : sc.Tracks false prev n r a) {w : ℕ} (hw : s.item.bits = some w)
    (hend : n + w < intEnd) (hroom : prev = s.width ∧ n + w ≤ r) :
    ¬(sc.prevTypeWidth ≠ s.field.clangBitWidth ∨ toInt (sc.clangBitPos + w) > sc.clangBitWidth) := by
  obtain ⟨hat, -⟩ := place_of_room h ht hw hroom.1 hroom.2
  have hint : toInt (n + w) = n + w := toInt_of_lt (by omega) (by omega)
  have htype : sc.prevTypeWidth = s.field.clangBitWidth := ht.type.trans (by rw [hroom.1]; rfl)
  rw [hat, hint, ht.width, htype]
  rintro (hne | hgt)
  · exact hne rfl
  · omega

/-- Otherwise the scan allocates a new unit. -/
theorem no_room (h : s.Ok) (ht : sc.Tracks false prev n r a) {w : ℕ} (hw : s.item.bits = some w)
    (hend : n + w < intEnd) (hroom : ¬(prev = s.width ∧ n + w ≤ r)) :
    sc.prevTypeWidth ≠ s.field.clangBitWidth ∨ toInt (sc.clangBitPos + w) > sc.clangBitWidth := by
  obtain ⟨hpos, hle, -⟩ := h.unit_cases hw
  by_cases hprev : prev = s.width
  · obtain ⟨hat, -⟩ := ht.struct rfl (by omega)
    have hint : toInt (n + w) = n + w := toInt_of_lt (by omega) (by omega)
    have hlt : r < n + w := Nat.lt_of_not_le fun hle => hroom ⟨hprev, hle⟩
    right
    rw [hat, hint, ht.width]
    omega
  · left
    intro htype
    have htype' : (prev : Int) = s.width := ht.type.symm.trans htype
    omega

/-- The scan puts a field where C does exactly when it fits. -/
theorem field_pos_iff (h : s.Ok) (ht : sc.Tracks false prev n r a) (hr : r < intEnd)
    (hp : next false n s.item < intEnd) :
    (sc.field false s.field).clangBitPos = place false n s.item ↔ s.Fits prev n r := by
  have hplace := place_used_le_next (u := false) (n := n) (i := s.item)
  have halloc : (sc.alloc false s.field).clangBitPos = alignTo r s.item.align := by
    rw [← ht.width]
    rfl
  have hround : place false n s.item = roundUp n s.item.align →
      (alignTo r s.item.align = place false n s.item ↔ roundUp r s.item.align = roundUp n s.item.align) := by
    intro heq
    rw [← heq]
    exact alignTo_eq_iff h.item.align hr (by omega)
  unfold Scan.field Slot.Fits
  cases hb : s.item.bits with
  | none =>
    have hf : s.field.fieldWidth = none := by
      unfold Slot.field
      rw [hb]
      rfl
    rw [hf]
    change (sc.alloc false s.field).clangBitPos = _ ↔ roundUp r s.item.align = roundUp n s.item.align
    rw [halloc]
    apply hround
    unfold place
    rw [hb]
    rfl
  | some w =>
    have hf : s.field.fieldWidth = some (w : Int) := by
      unfold Slot.field
      rw [hb]
      rfl
    obtain ⟨hpos, hle, hsize, -, hunit⟩ := h.unit_cases hb
    have hused : s.item.used = w := by
      unfold Item.used
      rw [hb]
      rfl
    have hnext : n + w ≤ next false n s.item := by
      have hle := le_place (n := n) h.item (u := false) rfl
      omega
    rw [hf]
    dsimp only
    by_cases hroom : prev = s.width ∧ n + w ≤ r
    · obtain ⟨hat, heq, -⟩ := place_of_room h ht hb hroom.1 hroom.2
      rw [if_neg (room_stays h ht hb (Nat.lt_of_le_of_lt hnext hp) hroom)]
      exact iff_of_true (hat.trans (by rw [heq])) (.inl hroom)
    · rw [if_pos (no_room h ht hb (Nat.lt_of_le_of_lt hnext hp) hroom)]
      change (sc.alloc false s.field).clangBitPos = _ ↔ _
      rw [halloc, or_iff_right hroom]
      have hmod := roundUp_mod r s.item.align
      by_cases hfit : n % s.item.size + w ≤ s.item.size
      · have heq : place false n s.item = n := by
          unfold place
          rw [if_neg Bool.false_ne_true, hb]
          exact if_pos hfit
        rw [heq, alignTo_eq_iff h.item.align hr (by omega)]
        constructor
        · intro hr'
          have hn : n % s.item.align = 0 := by rwa [hr'] at hmod
          rw [hsize, roundUp.eq_1 n, if_pos hn]
          exact ⟨.inl hn, hr'⟩
        · rintro ⟨hn, hr'⟩
          rw [hsize] at hn hfit
          rw [hr', roundUp, if_pos (by omega)]
      · have heq : place false n s.item = roundUp n s.item.align := by
          unfold place
          rw [if_neg Bool.false_ne_true, hb]
          exact if_neg hfit
        rw [hround heq]
        exact ⟨fun hr' => ⟨.inr (by omega), hr'⟩, fun hr' => hr'.2⟩

/-- What the scan adds for a field whose position is an `int`. -/
theorem alloc_width (p : ℕ) (h : s.width * s.item.count < intEnd) (hp : p + s.width * s.item.count < intEnd) :
    toInt (p + s.field.clangBitWidth * s.field.elemCnt) = (p + s.width * s.item.count : ℕ) ∧
      toInt (s.field.clangBitWidth * toInt s.field.elemCnt) = (s.width * s.item.count : ℕ) := by
  change toInt (p + s.width * (s.item.count % 18446744073709551616 : ℕ)) = _ ∧
    toInt (s.width * toInt (s.item.count % 18446744073709551616 : ℕ)) = _
  rcases count_eq h with h0 | ⟨hc, hlt⟩
  · rw [h0, Nat.zero_mul]
    constructor
    · rw [toInt_of_lt (by omega) (by omega)]
      omega
    · rw [toInt_of_lt (by omega) (by omega)]
      omega
  · rw [hc, toInt_of_lt (x := (s.item.count : ℕ)) (by omega) (by omega)]
    constructor
    · rw [toInt_of_lt (by omega) (by omega)]
      omega
    · rw [toInt_of_lt (by omega) (by omega)]
      omega

theorem field_none (hb : s.item.bits = none) :
    sc.field bUnion s.field = (sc.alloc bUnion s.field).setType 0 := by
  unfold Scan.field Slot.field
  rw [hb]
  rfl

theorem field_some {w : ℕ} (hb : s.item.bits = some w) :
    sc.field bUnion s.field =
      if sc.prevTypeWidth ≠ s.field.clangBitWidth ∨ toInt (sc.clangBitPos + w) > sc.clangBitWidth then
        (sc.alloc bUnion s.field).setType s.width
      else sc.setType s.width := by
  unfold Scan.field Slot.field
  rw [hb]
  rfl

theorem unit_none (hb : s.item.bits = none) : s.unit = 0 := by
  unfold Slot.unit
  rw [hb]
  rfl

theorem unit_some {w : ℕ} (hb : s.item.bits = some w) : s.unit = s.width := by
  unfold Slot.unit
  rw [hb]
  rfl

theorem reserved_none (hb : s.item.bits = none) (p : ℕ) : s.reserved p = p + s.width * s.item.count := by
  unfold Slot.reserved
  rw [hb]
  rfl

theorem reserved_some {w : ℕ} (hb : s.item.bits = some w) (p : ℕ) :
    s.reserved p = (p / s.width + 1) * s.width := by
  unfold Slot.reserved
  rw [hb]
  rfl

theorem used_some {w : ℕ} (hb : s.item.bits = some w) : s.item.used = w := by
  unfold Item.used
  rw [hb]
  rfl

theorem advance_minAlign (bUnion : Bool) (s : Slot) (ha : sc.clangMinAlign = a) :
    ((sc.field bUnion s.field).advance bUnion s.field).clangMinAlign = (max a s.item.align : ℕ) := by
  have halloc : (sc.alloc bUnion s.field).clangMinAlign = sc.clangMinAlign := by
    unfold Scan.alloc
    split <;> rfl
  have hfield : (sc.field bUnion s.field).clangMinAlign = sc.clangMinAlign := by
    unfold Scan.field
    split
    · split
      · exact halloc
      · rfl
    · exact halloc
  change max (sc.field bUnion s.field).clangMinAlign s.item.align = _
  rw [hfield, ha]
  omega

/-- A bit-field that does not go on in a unit starts one. -/
theorem place_new (h : s.Ok) {w : ℕ} (hb : s.item.bits = some w) (hfit : s.Fits prev n r)
    (hroom : ¬(prev = s.width ∧ n + w ≤ r)) :
    place false n s.item = roundUp r s.item.align ∧ place false n s.item % s.width = 0 := by
  unfold Slot.Fits at hfit
  rw [hb] at hfit
  obtain ⟨hstart, hround⟩ := hfit.resolve_left hroom
  obtain ⟨-, -, hsize, -, hunit⟩ := h.unit_cases hb
  have heq : place false n s.item = roundUp n s.item.align := by
    unfold place
    rw [if_neg Bool.false_ne_true, hb]
    dsimp only
    rw [hsize] at hstart ⊢
    by_cases hfits : n % s.item.align + w ≤ s.item.align
    · rw [if_pos hfits, roundUp, if_pos (by omega)]
    · exact if_neg hfits
  have hmod := roundUp_mod n s.item.align
  refine ⟨by rw [heq, hround], ?_⟩
  rw [heq]
  rcases hunit with ⟨h1, -⟩ | ⟨heqw, -⟩
  · rw [h1, Nat.mod_one]
  · rw [heqw]
    exact hmod

/-- **One field of a struct**: the scan keeps track of what C does. -/
theorem tracks_struct (h : s.Ok) (ht : sc.Tracks false prev n r a) (hr : r < intEnd)
    (hp : next false n s.item < intEnd) (hres : s.reserved (place false n s.item) < intEnd)
    (hfit : s.Fits prev n r) :
    ((sc.field false s.field).advance false s.field).Tracks false s.unit (next false n s.item)
      (max r (s.reserved (place false n s.item))) (max a s.item.align) := by
  have hpos := (field_pos_iff h ht hr hp).2 hfit
  have hnext := next_eq (n := n) h.item (u := false) rfl
  have hle : r ≤ roundUp r s.item.align := le_roundUp h.item.align_pos
  have halign := advance_minAlign false s ht.align
  cases hb : s.item.bits with
  | none =>
    have hfits : roundUp r s.item.align = roundUp n s.item.align := by
      unfold Slot.Fits at hfit
      rwa [hb] at hfit
    have hplace : place false n s.item = roundUp r s.item.align := by
      unfold place
      rw [if_neg Bool.false_ne_true, hb, hfits]
    rw [reserved_none hb] at hres ⊢
    rw [unit_none hb, Nat.max_eq_right (by omega)]
    rw [field_none hb] at hpos
    have hwidth := (alloc_width (s := s) (place false n s.item) (by omega) hres).1
    refine ⟨?_, ?_, halign, fun hu => (Bool.false_ne_true hu).elim, fun _ h0 => (h0 rfl).elim⟩
    · rw [field_none hb, ← hwidth, ← hpos]
      rfl
    · rw [field_none hb]
      rfl
  | some w =>
    obtain ⟨hwpos, hle', hsize, hcount, hunit⟩ := h.unit_cases hb
    rw [used_some hb] at hnext
    have hadvance : ((sc.field false s.field).advance false s.field).clangBitPos = (next false n s.item : ℕ) := by
      have hfield : s.field.fieldWidth.getD s.field.clangBitWidth * s.field.elemCnt = w := by
        unfold Slot.field
        rw [hb, hcount]
        exact Int.mul_one _
      change toInt ((sc.field false s.field).clangBitPos + _) = _
      rw [hfield, hpos, hnext, toInt_of_lt (by omega) (by omega)]
      omega
    have htype : ((sc.field false s.field).advance false s.field).prevTypeWidth = s.width := by
      rw [field_some hb]
      split <;> rfl
    rw [unit_some hb]
    by_cases hroom : prev = s.width ∧ n + w ≤ r
    · obtain ⟨hat, heq, hend⟩ := place_of_room h ht hb hroom.1 hroom.2
      obtain ⟨-, hn, hlt, hmod⟩ := ht.struct rfl (by omega)
      have hstay : ¬(sc.prevTypeWidth ≠ s.field.clangBitWidth ∨ toInt (sc.clangBitPos + w) > sc.clangBitWidth) :=
        room_stays h ht hb (by omega) hroom
      rw [reserved_some hb, heq, hend, Nat.max_self]
      rw [heq] at hnext
      refine ⟨?_, htype, halign, fun hu => (Bool.false_ne_true hu).elim, fun _ _ => ⟨hadvance, ?_⟩⟩
      · rw [field_some hb, if_neg hstay]
        exact ht.width
      · rw [← hroom.1]
        omega
    · obtain ⟨heq, hmod⟩ := place_new h hb hfit hroom
      have hgo := no_room h ht hb (by have := le_place (n := n) h.item (u := false) rfl; omega) hroom
      have hend : s.reserved (place false n s.item) = place false n s.item + s.width := by
        have hdiv := Nat.div_add_mod (place false n s.item) s.width
        rw [Nat.mul_comm] at hdiv
        rw [reserved_some hb, Nat.add_mul, Nat.one_mul]
        omega
      rw [hend] at hres ⊢
      rw [Nat.max_eq_right (by omega)]
      have hone : s.width * s.item.count = s.width := by rw [hcount, Nat.mul_one]
      have hwidth := (alloc_width (s := s) (place false n s.item) (by omega) (by omega)).1
      rw [hone] at hwidth
      rw [field_some hb, if_pos hgo] at hpos
      refine ⟨?_, htype, halign, fun hu => (Bool.false_ne_true hu).elim, fun _ _ => ⟨hadvance, ?_⟩⟩
      · rw [field_some hb, if_pos hgo, ← hwidth, ← hpos]
        rfl
      · rw [Nat.add_mod_right, hnext]
        exact ⟨Nat.add_le_add_left hle' _, Nat.add_lt_add_right (Nat.lt_add_of_pos_right hwpos) _, hmod⟩

theorem setType_pos (sc : Scan) (w : Int) : (sc.setType w).clangBitPos = sc.clangBitPos := rfl

theorem advance_union (sc : Scan) (w : Int) (f : Field) :
    ((sc.setType w).advance true f).clangBitPos = sc.clangBitPos := by
  simp only [Scan.advance, Scan.setType, if_true]

/-- **One field of a union**: the scan keeps track of what C does. -/
theorem tracks_union (h : s.Ok) (ht : sc.Tracks true prev n r a) (hcount : s.width * s.item.count < intEnd) :
    (sc.field true s.field).clangBitPos = place true n s.item ∧
      ((sc.field true s.field).advance true s.field).Tracks true s.unit (next true n s.item)
        (max r (s.reserved (place true n s.item))) (max a s.item.align) := by
  obtain ⟨hat, hprev⟩ := ht.union rfl
  have halign := advance_minAlign true s ht.align
  have hwidth := (alloc_width (s := s) 0 hcount (by omega)).2
  have halloc : (sc.alloc true s.field).clangBitWidth = (max r (s.width * s.item.count) : ℕ) := by
    change max sc.clangBitWidth (toInt (s.field.clangBitWidth * toInt s.field.elemCnt)) = _
    rw [hwidth, ht.width]
    omega
  have hpos : (sc.alloc true s.field).clangBitPos = 0 := by
    unfold Scan.alloc
    rw [if_pos rfl]
    exact hat
  have hzero : place true n s.item = 0 := rfl
  cases hb : s.item.bits with
  | none =>
    rw [field_none hb] at halign ⊢
    rw [hzero, unit_none hb, reserved_none hb, Nat.zero_add]
    exact ⟨(setType_pos _ _).trans hpos, {
      width := halloc
      type := rfl
      align := halign
      union := fun _ => ⟨(advance_union _ _ _).trans hpos, Nat.zero_le _⟩
      struct := fun hu => (Bool.false_ne_true hu.symm).elim }⟩
  | some w =>
    obtain ⟨hwpos, hle, -, hone, -⟩ := h.unit_cases hb
    have hend : s.reserved 0 = s.width := by
      rw [reserved_some hb, Nat.zero_div, Nat.zero_add, Nat.one_mul]
    rw [hone, Nat.mul_one] at halloc hcount
    rw [hzero, unit_some hb, hend]
    have hint : toInt (sc.clangBitPos + w) = w := by
      rw [hat, Int.zero_add, toInt_of_lt (by omega) (by omega)]
    rw [field_some hb, hint] at halign ⊢
    by_cases hgo : sc.prevTypeWidth ≠ s.field.clangBitWidth ∨ (w : Int) > sc.clangBitWidth
    · rw [if_pos hgo] at halign ⊢
      exact ⟨(setType_pos _ _).trans hpos, {
        width := halloc
        type := rfl
        align := halign
        union := fun _ => ⟨(advance_union _ _ _).trans hpos, Nat.le_max_right _ _⟩
        struct := fun hu => (Bool.false_ne_true hu.symm).elim }⟩
    · have htype : (prev : Int) = s.width := by
        apply Decidable.byContradiction
        intro hne
        exact hgo (.inl fun htype => hne (ht.type.symm.trans htype))
      have hmax : max r s.width = r := Nat.max_eq_left (by omega)
      rw [if_neg hgo] at halign ⊢
      exact ⟨hat, {
        width := by rw [hmax]; exact ht.width
        type := rfl
        align := halign
        union := fun _ => ⟨(advance_union _ _ _).trans hat, Nat.le_max_right _ _⟩
        struct := fun hu => (Bool.false_ne_true hu.symm).elim }⟩

/-! ## A record -/

theorem width_le (h : s.Ok) : s.width ≤ s.item.size := by
  have := h.width
  omega

theorem used_none (hb : s.item.bits = none) : s.item.used = s.item.size * s.item.count := by
  unfold Item.used
  rw [hb]
  rfl

theorem count_lt {u : Bool} (h : s.Ok) (hN : next u n s.item < intEnd) : s.width * s.item.count < intEnd := by
  have hused := place_used_le_next (u := u) (n := n) (i := s.item)
  cases hb : s.item.bits with
  | none =>
    have hmul := Nat.mul_le_mul_right s.item.count (width_le h)
    rw [used_none hb] at hused
    omega
  | some w =>
    obtain ⟨-, -, -, hone, hunit⟩ := h.unit_cases hb
    have h64 : 64 < intEnd := by decide
    rw [hone, Nat.mul_one]
    omega

/-- The storage for a field is inside the record. -/
theorem reserved_le (h : s.Ok) {N A : ℕ} (hA : A = 8 ∨ A = 16 ∨ A = 32 ∨ A = 64) (hle : s.item.align ≤ A)
    (hN : next bUnion n s.item ≤ N) : s.reserved (place bUnion n s.item) ≤ roundUp N A := by
  have hused := place_used_le_next (u := bUnion) (n := n) (i := s.item)
  have hround : N ≤ roundUp N A := le_roundUp (by omega)
  cases hb : s.item.bits with
  | none =>
    have hitem := used_none hb
    have hmul := Nat.mul_le_mul_right s.item.count (width_le h)
    rw [reserved_none hb]
    omega
  | some w =>
    obtain ⟨hpos, hle', -, -, hunit⟩ := h.unit_cases hb
    rw [used_some hb] at hused
    rw [reserved_some hb]
    apply unit_le (by omega) (by omega)
    have hmod := roundUp_mod N A
    rcases hunit with ⟨h1, -⟩ | ⟨heq, h8⟩
    · rw [h1, Nat.mod_one]
    · rw [heq]
      rcases h8 with h8 | h8 | h8 | h8 <;> rw [h8] at hle ⊢ <;> rcases hA with rfl | rfl | rfl | rfl <;> omega

theorem scanFields_minAlign (bUnion : Bool) (ss : List Slot) (ha : sc.clangMinAlign = a) :
    (scanFields bUnion sc (ss.map Slot.field)).2.clangMinAlign = alignment a (ss.map Slot.item) := by
  induction ss generalizing sc a with
  | nil => exact ha
  | cons s ss ih => exact ih (advance_minAlign bUnion s ha)

/-- **The scan of a record**: it ends where C does exactly when every field fits. -/
theorem scanFields_iff (ss : List Slot) (hok : ∀ s ∈ ss, s.Ok) (ha : a = 8 ∨ a = 16 ∨ a = 32 ∨ a = 64)
    (ht : sc.Tracks bUnion prev n r a)
    (hend : roundUp (extent bUnion n (ss.map Slot.item)) (alignment a (ss.map Slot.item)) < intEnd)
    (hr : r ≤ roundUp (extent bUnion n (ss.map Slot.item)) (alignment a (ss.map Slot.item))) :
    ((scanFields bUnion sc (ss.map Slot.field)).1 = (positions bUnion n (ss.map Slot.item)).map Nat.cast ∧
        toInt (alignTo (scanFields bUnion sc (ss.map Slot.field)).2.clangBitWidth
            (alignment a (ss.map Slot.item))) =
          roundUp (extent bUnion n (ss.map Slot.item)) (alignment a (ss.map Slot.item))) ↔
      Fits bUnion prev n r a ss := by
  induction ss generalizing sc prev n r a with
  | nil =>
    change ([] = [] ∧ toInt (alignTo sc.clangBitWidth a) = (roundUp n a : ℕ)) ↔
      (roundUp r a = roundUp n a ∧ roundUp n a < intEnd)
    change roundUp n a < intEnd at hend
    change r ≤ roundUp n a at hr
    obtain ⟨heq, hle⟩ := alignTo_eq ha (Nat.lt_of_le_of_lt hr hend)
    rw [ht.width, heq, and_iff_right rfl, and_iff_left hend]
    by_cases hlast : roundUp r a = intEnd
    · have htwice : toInt (toInt (intEnd : ℕ)) = -intEnd := by decide
      rw [hlast, htwice]
      omega
    · have hint : toInt (roundUp r a : ℕ) = roundUp r a := toInt_of_lt (by omega) (by omega)
      rw [hint, hint]
      omega
  | cons s ss ih =>
    have hs := hok s List.mem_cons_self
    have hrest : ∀ t ∈ ss, t.Ok := fun t ht => hok t (List.mem_cons_of_mem s ht)
    have ha' : max a s.item.align = 8 ∨ max a s.item.align = 16 ∨ max a s.item.align = 32 ∨
        max a s.item.align = 64 := alignment_ok [s.item] ha (by simpa using hs.item)
    have hfinal : alignment (max a s.item.align) (ss.map Slot.item) = 8 ∨
        alignment (max a s.item.align) (ss.map Slot.item) = 16 ∨
          alignment (max a s.item.align) (ss.map Slot.item) = 32 ∨
            alignment (max a s.item.align) (ss.map Slot.item) = 64 := by
      apply alignment_ok _ ha'
      intro i hi
      obtain ⟨t, ht, rfl⟩ := List.mem_map.1 hi
      exact (hrest t ht).item
    have hnext : next bUnion n s.item ≤ extent bUnion (next bUnion n s.item) (ss.map Slot.item) := le_extent
    have halign : s.item.align ≤ alignment (max a s.item.align) (ss.map Slot.item) :=
      Nat.le_trans (Nat.le_max_right _ _) le_alignment
    have hres := reserved_le hs hfinal halign hnext
    have hround := le_roundUp (n := extent bUnion (next bUnion n s.item) (ss.map Slot.item))
      (a := alignment (max a s.item.align) (ss.map Slot.item)) (by omega)
    have hr' := Nat.max_le.2 ⟨hr, hres⟩
    simp only [List.map_cons, extent, alignment, positions, scanFields, Fits] at hend hr ⊢
    rw [List.cons.injEq, and_assoc]
    cases bUnion with
    | false =>
      rw [field_pos_iff hs ht (Nat.lt_of_le_of_lt hr hend) (by omega)]
      rw [or_iff_right Bool.false_ne_true]
      by_cases hfit : s.Fits prev n r
      · have ht' := tracks_struct hs ht (Nat.lt_of_le_of_lt hr hend) (by omega) (by omega) hfit
        rw [and_iff_right hfit, and_iff_right hfit]
        exact ih hrest ha' ht' hend hr'
      · exact iff_of_false (fun hp => hfit hp.1) fun hp => hfit hp.1
    | true =>
      have hcount := count_lt hs (u := true) (n := n) (by omega)
      obtain ⟨hpos, ht'⟩ := tracks_union hs ht hcount
      rw [and_iff_right hpos, and_iff_right (Or.inl rfl)]
      exact ih hrest ha' ht' hend hr'

theorem lt_of_fits {ss : List Slot} (h : Fits bUnion prev n r a ss) :
    roundUp (extent bUnion n (ss.map Slot.item)) (alignment a (ss.map Slot.item)) < intEnd := by
  induction ss generalizing prev n r a with
  | nil => exact h.2
  | cons s ss ih => exact ih h.2

theorem toInt_lt (x : Int) : toInt x < intEnd := by
  have hpos : 0 < intEnd := by decide
  have hlt := Int.emod_lt_of_pos (x + intEnd) (b := 2 * intEnd) (by omega)
  unfold toInt
  omega

/-- A record whose fields are laid out as in C. -/
theorem layoutOf_iff {ss : List Slot} (hok : ∀ s ∈ ss, s.Ok) :
    layoutOf bUnion (ss.map Slot.field) = layout bUnion (ss.map Slot.item) ↔ Fits bUnion 0 0 0 8 ss := by
  have hstart : Scan.start.Tracks bUnion 0 0 0 8 :=
    ⟨rfl, rfl, rfl, fun _ => ⟨rfl, Nat.le_refl 0⟩, fun _ h => (h rfl).elim⟩
  have halign := scanFields_minAlign bUnion ss hstart.align
  by_cases hend : size bUnion (ss.map Slot.item) < intEnd
  · rw [← scanFields_iff ss hok (.inl rfl) hstart hend (Nat.zero_le _)]
    unfold layoutOf layout
    rw [Layout.mk.injEq, halign]
    exact and_congr_right fun _ => and_iff_left rfl
  · refine iff_of_false (fun heq => hend ?_) fun hfit => hend (lt_of_fits hfit)
    have hwidth : (layoutOf bUnion (ss.map Slot.field)).width = (size bUnion (ss.map Slot.item) : ℕ) := by
      rw [heq]
      rfl
    have hlt : (layoutOf bUnion (ss.map Slot.field)).width < intEnd := toInt_lt _
    omega

end

/-! ## All records -/

theorem elemCnt_eq (dims : List ℕ) : elemCnt dims = elements dims % 18446744073709551616 := by
  have hfold : ∀ c, dims.foldl (fun cnt dimen => cnt * dimen % 18446744073709551616) (c % 18446744073709551616) =
      dims.foldl (· * ·) c % 18446744073709551616 := by
    induction dims with
    | nil => exact fun c => rfl
    | cons d ds ih =>
      intro c
      rw [List.foldl_cons, List.foldl_cons, Nat.mod_mul_mod]
      exact ih (c * d)
  exact hfold 1

namespace ClangType

theorem size_cases (t : ClangType) : t.size = 8 ∨ t.size = 16 ∨ t.size = 32 ∨ t.size = 64 := by
  cases t <;> decide

theorem clangBitWidth_cases (t : ClangType) :
    t.clangBitWidth = t.size ∨ t.clangBitWidth = 1 ∧ t.size = 8 ∧ t.size = 8 := by
  cases t <;> decide

theorem clangBitWidth_le (t : ClangType) : t.clangBitWidth ≤ t.size := by
  cases t <;> decide

/-- The alignments in the code are those of the ABI. -/
theorem clangMinAlign_eq (t : ClangType) : t.clangMinAlign = t.size := by
  cases t <;> rfl

end ClangType

/-- The fields are fields of C. -/
theorem Fields.slots_ok (fs : Fields) : ∀ s ∈ fs.slots, s.Ok := by
  induction fs with
  | nil =>
    intro s hs
    cases hs
  | clang t dims rest ih =>
    intro s hs
    rcases List.mem_cons.1 hs with rfl | hs
    · exact ⟨⟨t.size_cases, fun w hw => by cases hw⟩, t.clangBitWidth_cases, fun w hw => by cases hw⟩
    · exact ih s hs
  | bitField t w pos fits rest ih =>
    intro s hs
    rcases List.mem_cons.1 hs with rfl | hs
    · refine ⟨⟨t.size_cases, fun v hv => ?_⟩, t.clangBitWidth_cases, fun v hv => ?_⟩
      · cases hv
        exact ⟨rfl, pos, Nat.le_trans fits t.clangBitWidth_le⟩
      · cases hv
        exact ⟨rfl, fits⟩
    · exact ih s hs
  | record u fields dims rest ihf ih =>
    intro s hs
    rcases List.mem_cons.1 hs with rfl | hs
    · refine ⟨⟨alignment_ok _ (.inl rfl) fun i hi => ?_, fun w hw => by cases hw⟩, .inl rfl, fun w hw => by cases hw⟩
      obtain ⟨t, ht, rfl⟩ := List.mem_map.1 hi
      exact (ihf t ht).item
    · exact ih s hs

/-- What `InitAndValidateRecord` is for: a valid layout, the one the C compiler chooses. -/
def LaidOut (r : Bool × Fields) : Prop :=
  (initAndValidateRecord r.1 r.2).Valid r.1 (r.2.slots.map Slot.item) ∧
    initAndValidateRecord r.1 r.2 = cLayout r.1 r.2

/-- Where the records in a record are laid out as in C, the scan has the sizes of C. -/
theorem Fields.resolve_eq (fs : Fields) (h : ∀ r ∈ fs.nested, LaidOut r) :
    fs.resolve = fs.slots.map Slot.field := by
  induction fs with
  | nil => rfl
  | clang t dims rest ih =>
    rw [resolve, slots, List.map_cons, ih h]
    congr 1
    unfold Slot.field
    rw [elemCnt_eq, t.clangMinAlign_eq]
    rfl
  | bitField t w pos fits rest ih =>
    rw [resolve, slots, List.map_cons, ih h, t.clangMinAlign_eq]
    rfl
  | record u fields dims rest ihf ih =>
    have hinner : layoutOf u fields.resolve = cLayout u fields := (h (u, fields) List.mem_cons_self).2
    have hrest : ∀ r ∈ rest.nested, LaidOut r := fun r hr =>
      h r (List.mem_cons_of_mem _ (List.mem_append_right _ hr))
    rw [resolve, slots, List.map_cons, ih hrest, hinner]
    congr 1
    unfold Slot.field
    rw [elemCnt_eq]
    rfl

/-- A record whose fields all fit. -/
def RecordFits (r : Bool × Fields) : Prop := Fits r.1 0 0 0 8 r.2.slots

theorem laidOut_iff {u : Bool} {fs : Fields} (h : ∀ r ∈ fs.nested, LaidOut r) :
    LaidOut (u, fs) ↔ RecordFits (u, fs) := by
  have hok := fs.slots_ok
  have hitems : ∀ i ∈ fs.slots.map Slot.item, i.Ok := by
    intro i hi
    obtain ⟨t, ht, rfl⟩ := List.mem_map.1 hi
    exact (hok t ht).item
  unfold RecordFits
  rw [← layoutOf_iff hok, ← fs.resolve_eq h]
  constructor
  · exact fun hl => hl.2
  · intro heq
    have heq' : initAndValidateRecord u fs = cLayout u fs := heq
    refine ⟨?_, heq'⟩
    rw [heq']
    exact layout_valid u _ hitems

theorem nested_laidOut (fs : Fields) :
    (∀ r ∈ fs.nested, LaidOut r) ↔ ∀ r ∈ fs.nested, RecordFits r := by
  induction fs with
  | nil => exact iff_of_true (fun r hr => by cases hr) fun r hr => by cases hr
  | clang t dims rest ih => exact ih
  | bitField t w pos fits rest ih => exact ih
  | record u fields dims rest ihf ih =>
    simp only [Fields.nested, List.forall_mem_cons, List.forall_mem_append, ← ih, ← ihf]
    exact ⟨fun ⟨h, hf, hr⟩ => ⟨(laidOut_iff hf).1 h, hf, hr⟩, fun ⟨h, hf, hr⟩ => ⟨(laidOut_iff hf).2 h, hf, hr⟩⟩

/-- **Records are laid out as in C exactly when their fields fit**, for a record and all records in it. -/
theorem record_layout_iff (bUnion : Bool) (fields : Fields) :
    (∀ r ∈ (bUnion, fields) :: fields.nested, LaidOut r) ↔
      ∀ r ∈ (bUnion, fields) :: fields.nested, RecordFits r := by
  rw [List.forall_mem_cons, List.forall_mem_cons, ← nested_laidOut fields]
  exact and_congr_left fun h => laidOut_iff h

/-- The unit of a bit-field is not shared with a field of another type. -/
theorem bit_field_unit_not_shared :
    ¬∀ (bUnion : Bool) (fields : Fields), ∀ r ∈ (bUnion, fields) :: fields.nested, LaidOut r := by
  intro h
  have hl := h false (.bitField .uint32 3 (by decide) (by decide) (.clang .uint8 [] .nil)) _ List.mem_cons_self
  exact absurd hl.2 (by decide)

end OpenHT.Htl.Record
