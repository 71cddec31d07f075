import OpenHT.Htfe.DimenIter

/-!
# References and states of array elements

`CHtfeIdent` records for each element of a variable whether it is read and written and in which part of a sequence it
is assigned. A variable index stands for every element of its dimension.

* `setSeqState`, `setReadRef`, `setWriteRef`: the calls that record, one loop with parameters.
* `getSeqState`: the state of the elements that an index list may stand for.
* `run_spec`: the records after any calls.
* `getSeqState_returns`: the loop meets every element, and never reports an error.
* `exact_state_iff`: when that is right.
-/

namespace OpenHT.Htfe.RefInfo

open Odometer RowMajor Fuel Dimen

inductive ESeqState
  | preClk | postClk | continuous | function | unknown | error
deriving DecidableEq, Repr

/-- The fields of `CRefInfo` that the calls use, with the values of its constructor. -/
structure CRefInfo where
  isRead : Bool := false
  isWritten : Bool := false
  seqState : ESeqState := .preClk
deriving DecidableEq, Repr

/-- `GetDimenElemCnt` -/
def getDimenElemCnt (dimenList : List ℕ) : ℕ := dimenList.foldl (· * ·) 1

/-- `m_refInfo.resize`, when it is empty. -/
def alloc (dimenList : List ℕ) (refInfo : List CRefInfo) : List CRefInfo :=
  if refInfo = [] then List.replicate (getDimenElemCnt dimenList) {} else refInfo

/-- The body of the loops that record; an index out of range is an error for the sequence state only. -/
def setBody (dimenList : List ℕ) (bAssert : Bool) (change : CRefInfo → CRefInfo) (s : Option (List CRefInfo))
    (refs : List ℕ) : Option (List CRefInfo) × Bool :=
  (s.bind fun refInfo =>
    if getDimenElemIdx dimenList refs < refInfo.length then
      some (refInfo.modify (getDimenElemIdx dimenList refs) change)
    else if bAssert then none else some refInfo, false)

/-- The calls that record: `none` is a failed assertion. -/
def setRef (bAssert : Bool) (change : CRefInfo → CRefInfo) (n : ℕ) (dimenList : List ℕ) (pOp : Index)
    (refInfo : List CRefInfo) : Option (List CRefInfo) :=
  if dimenList = [] then some ((alloc dimenList refInfo).modify 0 change)
  else if pOp.length = dimenList.length then
    (loop (dimenIter dimenList (constList pOp)) (setBody dimenList bAssert change) n (refList pOp)
      (some (alloc dimenList refInfo))).join
  else none

/-- `SetSeqState` -/
def setSeqState (seqState : ESeqState) : ℕ → List ℕ → Index → List CRefInfo → Option (List CRefInfo) :=
  setRef true fun r => { r with seqState := seqState }

/-- `SetReadRef` -/
def setReadRef : ℕ → List ℕ → Index → List CRefInfo → Option (List CRefInfo) :=
  setRef false fun r => { r with isRead := true }

/-- `SetWriteRef` -/
def setWriteRef : ℕ → List ℕ → Index → List CRefInfo → Option (List CRefInfo) :=
  setRef false fun r => { r with isWritten := true }

/-- The variables of `GetSeqState`, and whether it has reported an error. -/
structure SeqCheck where
  bFirst : Bool
  seqState : Option ESeqState
  bError : Bool
deriving DecidableEq, Repr

/-- The body of its loop. `bFirst` is not set in it. -/
def seqBody (dimenList : List ℕ) (refInfo : List CRefInfo) (s : Option SeqCheck) (refs : List ℕ) :
    Option SeqCheck × Bool :=
  match s, refInfo[getDimenElemIdx dimenList refs]? with
  | some s, some r =>
    if s.bFirst then (some { s with seqState := some r.seqState }, false)
    else if some r.seqState ≠ s.seqState then (some { s with bError := true }, true)
    else (some s, false)
  | _, _ => (none, true)

/-- `GetSeqState`: the state it returns, and whether it reports an inconsistency. -/
def getSeqState (n : ℕ) (dimenList : List ℕ) (pOp : Index) (refInfo : List CRefInfo) :
    Option (Option ESeqState × Bool) :=
  if refInfo.length = getDimenElemCnt dimenList then
    if dimenList = [] then (refInfo[0]?).map fun r => (some r.seqState, false)
    else if pOp.length = dimenList.length then
      (loop (dimenIter dimenList (constList pOp)) (seqBody dimenList refInfo) n (refList pOp)
        (some ⟨true, none, false⟩)).join.map fun s => (s.seqState, s.bError)
    else none
  else none

/-! ## Calls -/

inductive Kind
  | seqState (s : ESeqState)
  | readRef
  | writeRef
deriving DecidableEq, Repr

structure Call where
  kind : Kind
  index : Index
deriving DecidableEq, Repr

def Call.run (n : ℕ) (dims : List ℕ) (c : Call) : List CRefInfo → Option (List CRefInfo) :=
  match c.kind with
  | .seqState s => setSeqState s n dims c.index
  | .readRef => setReadRef n dims c.index
  | .writeRef => setWriteRef n dims c.index

def run (n : ℕ) (dims : List ℕ) : List Call → List CRefInfo → Option (List CRefInfo)
  | [], refInfo => some refInfo
  | c :: cs, refInfo => (c.run n dims refInfo).bind (run n dims cs)

/-- What is recorded for an element; nothing is before the first call. -/
def elemInfo (dims : List ℕ) (refInfo : List CRefInfo) (idx : List ℕ) : CRefInfo :=
  (refInfo[getDimenElemIdx dims idx]?).getD {}

instance (d : ℕ) : (c : Option ℕ) → (i : ℕ) → Decidable (DenotesOne d c i)
  | some k, i => inferInstanceAs (Decidable (i = k))
  | none, i => inferInstanceAs (Decidable (i < d))

instance decidableDenotes : (dims : List ℕ) → (ix : Index) → (idx : List ℕ) → Decidable (Denotes dims ix idx)
  | [], [], [] => isTrue trivial
  | d :: ds, c :: cs, i :: is =>
    have := decidableDenotes ds cs is
    inferInstanceAs (Decidable (DenotesOne d c i ∧ Denotes ds cs is))
  | [], [], _ :: _ | [], _ :: _, _ | _ :: _, [], _ | _ :: _, _ :: _, [] => isFalse fun h => h

/-- The state that a call records. -/
def Kind.state : Kind → Option ESeqState
  | .seqState s => some s
  | .readRef | .writeRef => none

/-- The state of the last call for the sequence state that may stand for the element. -/
def lastState (dims : List ℕ) (cs : List Call) (idx : List ℕ) : ESeqState :=
  ((cs.filterMap fun c => if Denotes dims c.index idx then c.kind.state else none).getLast?).getD .preClk

/-! ## One call -/

section

variable {dims idx v : List ℕ} {ix : Index} {info info' : List CRefInfo} {change : CRefInfo → CRefInfo} {n : ℕ}

attribute [local simp] Dimen.Within

attribute [local simp] Dimen.Within

theorem getDimenElemCnt_eq (dims : List ℕ) : getDimenElemCnt dims = RowMajor.count dims := by
  have hfold : ∀ (ds : List ℕ) (k : ℕ), ds.foldl (· * ·) k = k * RowMajor.count ds := by
    intro ds
    induction ds with
    | nil => exact fun k => (Nat.mul_one k).symm
    | cons d ds ih =>
      intro k
      rw [List.foldl_cons, ih, Nat.mul_assoc]
      rfl
  exact (hfold dims 1).trans (Nat.one_mul _)

theorem Within.length (h : Within dims ix) : ix.length = dims.length := by
  induction dims generalizing ix with
  | nil =>
    cases ix with
    | nil => rfl
    | cons c cs => exact h.elim
  | cons d ds ih =>
    cases ix with
    | nil => exact h.elim
    | cons c cs => exact congrArg Nat.succ (ih h.2)

theorem elemIdx_lt (h : InRange dims v) : getDimenElemIdx dims v < RowMajor.count dims := by
  rw [getDimenElemIdx_eq (InRange.length h)]
  exact offset_lt h

theorem elemIdx_inj (h : InRange dims idx) (h' : InRange dims v)
    (heq : getDimenElemIdx dims idx = getDimenElemIdx dims v) : idx = v := by
  rw [getDimenElemIdx_eq (InRange.length h), getDimenElemIdx_eq (InRange.length h')] at heq
  exact offset_inj h h' heq

theorem elemInfo_modify_self (h : InRange dims v) (hlen : info.length = RowMajor.count dims) :
    elemInfo dims (info.modify (getDimenElemIdx dims v) change) v = change (elemInfo dims info v) := by
  have hlt : getDimenElemIdx dims v < info.length := by
    rw [hlen]
    exact elemIdx_lt h
  unfold elemInfo
  rw [List.getElem?_modify_eq, List.getElem?_eq_getElem hlt]
  rfl

theorem elemInfo_modify_ne (h : InRange dims idx) (h' : InRange dims v) (hne : idx ≠ v) :
    elemInfo dims (info.modify (getDimenElemIdx dims idx) change) v = elemInfo dims info v := by
  unfold elemInfo
  rw [List.getElem?_modify_ne]
  exact fun heq => hne (elemIdx_inj h h' heq)

/-- **The loop changes the elements it visits**, each once, and no other one. -/
theorem setBody_foldl (bAssert : Bool) {l : List (List ℕ)} (hl : ∀ i ∈ l, InRange dims i) (hnd : l.Nodup)
    (hlen : info.length = RowMajor.count dims) :
    ∃ info', l.foldl (fun s i => (setBody dims bAssert change s i).1) (some info) = some info' ∧
      info'.length = RowMajor.count dims ∧
      ∀ v, InRange dims v → elemInfo dims info' v =
        if v ∈ l then change (elemInfo dims info v) else elemInfo dims info v := by
  induction l generalizing info with
  | nil => exact ⟨info, rfl, hlen, fun v _ => (if_neg List.not_mem_nil).symm⟩
  | cons i l ih =>
    have hi := hl i List.mem_cons_self
    have hlt : getDimenElemIdx dims i < info.length := by
      rw [hlen]
      exact elemIdx_lt hi
    have hbody : (setBody dims bAssert change (some info) i).1 =
        some (info.modify (getDimenElemIdx dims i) change) := if_pos hlt
    have hlen₁ : (info.modify (getDimenElemIdx dims i) change).length = RowMajor.count dims := by
      rw [List.length_modify]
      exact hlen
    obtain ⟨info', hfold, hlen', hspec⟩ := ih (fun j hj => hl j (List.mem_cons_of_mem _ hj)) (List.nodup_cons.1 hnd).2
      hlen₁
    refine ⟨info', ?_, hlen', fun v hv => ?_⟩
    · rw [List.foldl_cons, hbody]
      exact hfold
    · rw [hspec v hv]
      by_cases hiv : i = v
      · subst hiv
        rw [if_neg (List.nodup_cons.1 hnd).1, if_pos List.mem_cons_self, elemInfo_modify_self hi hlen]
      · have hiff : v ∈ i :: l ↔ v ∈ l := by
          rw [List.mem_cons]
          exact or_iff_right fun h => hiv h.symm
        rw [elemInfo_modify_ne hi hv hiv]
        by_cases hmem : v ∈ l
        · rw [if_pos hmem, if_pos (hiff.2 hmem)]
        · rw [if_neg hmem, if_neg fun h => hmem (hiff.1 h)]

theorem alloc_length (h : info = [] ∨ info.length = RowMajor.count dims) :
    (alloc dims info).length = RowMajor.count dims := by
  unfold alloc
  by_cases hnil : info = []
  · rw [if_pos hnil, List.length_replicate, getDimenElemCnt_eq]
  · rw [if_neg hnil]
    exact h.resolve_left hnil

theorem elemInfo_alloc (h : InRange dims v) : elemInfo dims (alloc dims info) v = elemInfo dims info v := by
  unfold alloc
  by_cases hnil : info = []
  · have hlt : getDimenElemIdx dims v < getDimenElemCnt dims := by
      rw [getDimenElemCnt_eq]
      exact elemIdx_lt h
    rw [if_pos hnil, hnil]
    unfold elemInfo
    rw [List.getElem?_replicate_of_lt hlt]
    rfl
  · rw [if_neg hnil]

/-- **One call** changes the elements that its index list may stand for. -/
theorem setRef_returns (hd : ∀ d ∈ dims, 0 < d) (bAssert : Bool) (change : CRefInfo → CRefInfo) (hw : Within dims ix)
    (h : info = [] ∨ info.length = RowMajor.count dims) :
    ∃ info', Returns (fun n => setRef bAssert change n dims ix info) info' ∧ info'.length = RowMajor.count dims ∧
      ∀ v, InRange dims v → elemInfo dims info' v =
        if Denotes dims ix v then change (elemInfo dims info v) else elemInfo dims info v := by
  have hlen := Within.length hw
  have hin : ∀ i ∈ elems dims ix, InRange dims i := fun i hi => Denotes.inRange hw ((mem_elems hlen).1 hi)
  obtain ⟨info', hfold, hlen', hspec⟩ := @setBody_foldl dims _ change bAssert _ hin (elems_nodup dims ix)
    (alloc_length h)
  refine ⟨info', ?_, hlen', fun v hv => ?_⟩
  · by_cases hnil : dims = []
    · subst hnil
      obtain rfl := List.length_eq_zero_iff.1 hlen
      refine ⟨0, fun n _ => ?_⟩
      have hone : (alloc [] info).length = 1 := alloc_length h
      have hbody : (setBody [] bAssert change (some (alloc [] info)) []).1 = some ((alloc [] info).modify 0 change) :=
        if_pos (by rw [hone]; exact Nat.zero_lt_one)
      rw [← hfold]
      exact hbody.symm
    · have hbody : ∀ s, ∀ i ∈ elems dims ix, (setBody dims bAssert change s i).2 = false := fun _ _ _ => rfl
      obtain ⟨N, hN⟩ := loop_elems hd hlen hbody (some (alloc dims info))
      refine ⟨N, fun n hn => ?_⟩
      have hloop : loop (dimenIter dims (constList ix)) (setBody dims bAssert change) n (refList ix)
        (some (alloc dims info)) = _ := hN n hn
      dsimp only
      unfold setRef
      rw [if_neg hnil, if_pos hlen, hloop, hfold]
      rfl
  · rw [hspec v hv, elemInfo_alloc hv]
    by_cases hmem : v ∈ elems dims ix
    · rw [if_pos hmem, if_pos ((mem_elems hlen).1 hmem)]
    · rw [if_neg hmem, if_neg fun hden => hmem ((mem_elems hlen).2 hden)]

end

/-! ## Any calls -/

section

variable {dims v : List ℕ} {ix : Index} {cs : List Call} {c : Call} {info : List CRefInfo}

/-- What a call does to an element that it may stand for. -/
def Kind.change : Kind → CRefInfo → CRefInfo
  | .seqState s, r => { r with seqState := s }
  | .readRef, r => { r with isRead := true }
  | .writeRef, r => { r with isWritten := true }

theorem Call.run_eq (n : ℕ) (dims : List ℕ) (c : Call) (info : List CRefInfo) :
    c.run n dims info = setRef (c.kind.state.isSome) c.kind.change n dims c.index info := by
  obtain ⟨kind, index⟩ := c
  cases kind <;> rfl

/-- The record of an element after some calls. -/
def record (dims : List ℕ) (cs : List Call) (v : List ℕ) : CRefInfo :=
  cs.foldl (fun r c => if Denotes dims c.index v then c.kind.change r else r) {}

theorem run_append (n : ℕ) (dims : List ℕ) (cs : List Call) (c : Call) (info : List CRefInfo) :
    run n dims (cs ++ [c]) info = (run n dims cs info).bind (c.run n dims) := by
  induction cs generalizing info with
  | nil =>
    change (c.run n dims info).bind (run n dims []) = c.run n dims info
    cases c.run n dims info <;> rfl
  | cons d cs ih =>
    rw [List.cons_append, run, run]
    cases d.run n dims info with
    | none => rfl
    | some info' => exact ih info'

theorem record_snoc : record dims (cs ++ [c]) v =
    if Denotes dims c.index v then c.kind.change (record dims cs v) else record dims cs v := by
  unfold record
  rw [List.foldl_append]
  rfl

/-- **After any calls** each element has its record. -/
theorem run_spec (hd : ∀ d ∈ dims, 0 < d) (hcs : ∀ c ∈ cs, Within dims c.index) :
    ∃ info, Returns (fun n => run n dims cs []) info ∧
      (if cs = [] then info = [] else info.length = RowMajor.count dims) ∧
      ∀ v, InRange dims v → elemInfo dims info v = record dims cs v := by
  induction cs using List.reverseRecOn with
  | nil => exact ⟨[], .const [], rfl, fun v _ => rfl⟩
  | append_singleton cs c ih =>
    obtain ⟨info, hret, hlen, hspec⟩ := ih fun d hdc => hcs d (List.mem_append_left _ hdc)
    have hsized : info = [] ∨ info.length = RowMajor.count dims := by
      by_cases hnil : cs = []
      · rw [if_pos hnil] at hlen
        exact Or.inl hlen
      · rw [if_neg hnil] at hlen
        exact Or.inr hlen
    obtain ⟨info', hcall, hlen', hspec'⟩ := setRef_returns hd c.kind.state.isSome c.kind.change
      (hcs c (List.mem_append_right _ List.mem_cons_self)) hsized
    refine ⟨info', ?_, ?_, fun v hv => ?_⟩
    · refine Returns.congr ⟨0, fun n _ => ?_⟩
        (hret.bind (k := fun x n => setRef c.kind.state.isSome c.kind.change n dims c.index x) hcall)
      rw [run_append]
      refine congrArg _ (funext fun x => ?_)
      exact c.run_eq n dims x
    · rw [if_neg (by simp)]
      exact hlen'
    · rw [hspec' v hv, hspec v hv, record_snoc]

theorem record_isRead : (record dims cs v).isRead = true ↔ ∃ c ∈ cs, c.kind = .readRef ∧ Denotes dims c.index v := by
  induction cs using List.reverseRecOn with
  | nil => exact iff_of_false (fun h => by cases h) (fun ⟨c, hc, _⟩ => List.not_mem_nil hc)
  | append_singleton cs c ih =>
    have hlast : (∃ d ∈ cs ++ [c], d.kind = .readRef ∧ Denotes dims d.index v) ↔
        (∃ d ∈ cs, d.kind = .readRef ∧ Denotes dims d.index v) ∨ c.kind = .readRef ∧ Denotes dims c.index v := by
      simp only [List.mem_append, List.mem_singleton, or_and_right, exists_or, exists_eq_left]
    rw [record_snoc, hlast, ← ih]
    by_cases hden : Denotes dims c.index v
    · rw [if_pos hden]
      obtain ⟨kind, index⟩ := c
      cases kind with
      | readRef => exact iff_of_true rfl (Or.inr ⟨rfl, hden⟩)
      | _ => exact (or_iff_left fun h => by cases h.1).symm
    · rw [if_neg hden]
      exact (or_iff_left fun h => hden h.2).symm

theorem record_isWritten :
    (record dims cs v).isWritten = true ↔ ∃ c ∈ cs, c.kind = .writeRef ∧ Denotes dims c.index v := by
  induction cs using List.reverseRecOn with
  | nil => exact iff_of_false (fun h => by cases h) (fun ⟨c, hc, _⟩ => List.not_mem_nil hc)
  | append_singleton cs c ih =>
    have hlast : (∃ d ∈ cs ++ [c], d.kind = .writeRef ∧ Denotes dims d.index v) ↔
        (∃ d ∈ cs, d.kind = .writeRef ∧ Denotes dims d.index v) ∨ c.kind = .writeRef ∧ Denotes dims c.index v := by
      simp only [List.mem_append, List.mem_singleton, or_and_right, exists_or, exists_eq_left]
    rw [record_snoc, hlast, ← ih]
    by_cases hden : Denotes dims c.index v
    · rw [if_pos hden]
      obtain ⟨kind, index⟩ := c
      cases kind with
      | writeRef => exact iff_of_true rfl (Or.inr ⟨rfl, hden⟩)
      | _ => exact (or_iff_left fun h => by cases h.1).symm
    · rw [if_neg hden]
      exact (or_iff_left fun h => hden h.2).symm

theorem record_seqState : (record dims cs v).seqState = lastState dims cs v := by
  induction cs using List.reverseRecOn with
  | nil => rfl
  | append_singleton cs c ih =>
    unfold lastState at ih ⊢
    rw [record_snoc, List.filterMap_append, List.filterMap_cons, List.filterMap_nil]
    by_cases hden : Denotes dims c.index v
    · rw [if_pos hden, if_pos hden]
      obtain ⟨kind, index⟩ := c
      cases kind with
      | seqState s => exact (by rw [Kind.state, List.getLast?_append_of_ne_nil _ (List.cons_ne_nil _ _)]; rfl)
      | readRef => exact ih.trans (by rw [Kind.state, List.append_nil])
      | writeRef => exact ih.trans (by rw [Kind.state, List.append_nil])
    · rw [if_neg hden, if_neg hden]
      exact ih.trans (by rw [List.append_nil])

/-! ## `GetSeqState` -/

/-- **The loop of `GetSeqState`** takes the state of each element, and reports nothing. -/
theorem getSeqState_returns (hd : ∀ d ∈ dims, 0 < d) (hw : Within dims ix) (hlen : info.length = RowMajor.count dims) :
    ∃ s, Returns (fun n => getSeqState n dims ix info) (s, false) := by
  have hixlen := Within.length hw
  have hcnt : info.length = getDimenElemCnt dims := hlen.trans (getDimenElemCnt_eq dims).symm
  have hin : ∀ i ∈ elems dims ix, InRange dims i := fun i hi => Denotes.inRange hw ((mem_elems hixlen).1 hi)
  -- in every turn it is still the first
  have hbody : ∀ s : Option SeqCheck, (∃ q, s = some ⟨true, q, false⟩) → ∀ i ∈ elems dims ix,
      (seqBody dims info s i).2 = false ∧ ∃ q, (seqBody dims info s i).1 = some ⟨true, q, false⟩ := by
    rintro s ⟨q, rfl⟩ i hi
    have hlt : getDimenElemIdx dims i < info.length := by
      rw [hlen]
      exact elemIdx_lt (hin i hi)
    unfold seqBody
    rw [List.getElem?_eq_getElem hlt]
    exact ⟨rfl, _, rfl⟩
  by_cases hnil : dims = []
  · subst hnil
    have hlt : 0 < info.length := by
      rw [hlen]
      exact Nat.zero_lt_one
    refine ⟨some info[0].seqState, 0, fun n _ => ?_⟩
    dsimp only
    unfold getSeqState
    rw [if_pos hcnt, if_pos rfl, List.getElem?_eq_getElem hlt]
    rfl
  · obtain ⟨⟨N, hN⟩, q, hq⟩ := loop_keeps (P := fun s : Option SeqCheck => ∃ q, s = some ⟨true, q, false⟩) hbody
      (dimenIter_cycle hd hixlen) (elems_head hd hixlen) ⟨none, rfl⟩
    refine ⟨q, N, fun n hn => ?_⟩
    have hloop : loop (dimenIter dims (constList ix)) (seqBody dims info) n (refList ix)
      (some ⟨true, none, false⟩) = _ := hN n hn
    dsimp only
    unfold getSeqState
    rw [if_pos hcnt, if_neg hnil, if_pos hixlen, hloop, hq]
    rfl

/-- Without records the assertion on their number fails. -/
theorem getSeqState_nil (hd : ∀ d ∈ dims, 0 < d) (n : ℕ) : getSeqState n dims ix [] = none := by
  have hcnt : ¬([] : List CRefInfo).length = getDimenElemCnt dims := by
    have hpos := elemIdx_lt (zeros_inRange hd)
    rw [getDimenElemCnt_eq, List.length_nil]
    omega
  unfold getSeqState
  rw [if_neg hcnt]

end

/-- **The state of the elements is exact** after some calls: the records of each element are those of the calls that
may stand for it, and `GetSeqState` reports an error exactly when two elements that `ix` may stand for differ. -/
def ExactState (dims : List ℕ) (cs : List Call) (ix : Index) : Prop :=
  ∃ info, Returns (fun n => run n dims cs []) info ∧
    (∀ v, InRange dims v → (elemInfo dims info v).seqState = lastState dims cs v ∧
      ((elemInfo dims info v).isRead = true ↔ ∃ c ∈ cs, c.kind = .readRef ∧ Denotes dims c.index v) ∧
      ((elemInfo dims info v).isWritten = true ↔ ∃ c ∈ cs, c.kind = .writeRef ∧ Denotes dims c.index v)) ∧
    ∃ r, Returns (fun n => getSeqState n dims ix info) r ∧
      (r.2 = true ↔ ∃ v w, Denotes dims ix v ∧ Denotes dims ix w ∧
        (elemInfo dims info v).seqState ≠ (elemInfo dims info w).seqState)

section

variable {dims : List ℕ} {ix : Index} {cs : List Call}

theorem exact_iff (hd : ∀ d ∈ dims, 0 < d) (hcs : ∀ c ∈ cs, Within dims c.index) (hix : Within dims ix) :
    ExactState dims cs ix ↔ cs ≠ [] ∧ ∀ v w, Denotes dims ix v → Denotes dims ix w →
      lastState dims cs v = lastState dims cs w := by
  obtain ⟨info, hret, hlen, hspec⟩ := run_spec hd hcs
  have hstate : ∀ v, InRange dims v → (elemInfo dims info v).seqState = lastState dims cs v := fun v hv => by
    rw [hspec v hv, record_seqState]
  by_cases hnil : cs = []
  · refine iff_of_false ?_ fun h => h.1 hnil
    rintro ⟨info', hret', -, r, ⟨N, hN⟩, -⟩
    rw [if_pos hnil] at hlen
    rw [hret'.unique hret, hlen] at hN
    have hnone := (getSeqState_nil hd N).symm.trans (hN N (Nat.le_refl N))
    cases hnone
  · rw [if_neg hnil] at hlen
    obtain ⟨q, hseq⟩ := getSeqState_returns hd hix hlen
    constructor
    · rintro ⟨info', hret', -, r, hr, hreport⟩
      obtain rfl := hret'.unique hret
      obtain rfl := hr.unique hseq
      refine ⟨hnil, fun v w hv hw => ?_⟩
      rw [← hstate v (Denotes.inRange hix hv), ← hstate w (Denotes.inRange hix hw)]
      exact not_not.1 fun hne => Bool.false_ne_true (hreport.2 ⟨v, w, hv, hw, hne⟩)
    · rintro ⟨-, hsame⟩
      refine ⟨info, hret, fun v hv => ⟨hstate v hv, ?_, ?_⟩, _, hseq, ?_⟩
      · rw [hspec v hv]
        exact record_isRead
      · rw [hspec v hv]
        exact record_isWritten
      · refine iff_of_false Bool.false_ne_true ?_
        rintro ⟨v, w, hv, hw, hne⟩
        rw [hstate v (Denotes.inRange hix hv), hstate w (Denotes.inRange hix hw)] at hne
        exact hne (hsame v w hv hw)

end

/-- **Exactly when no two of the elements have different states**, and one call came before, the state is exact. -/
theorem exact_state_iff {dims : List ℕ} {cs : List Call} {ix : Index} (hd : ∀ d ∈ dims, 0 < d)
    (hcs : ∀ c ∈ cs, Within dims c.index) (hix : Within dims ix) :
    ExactState dims cs ix ↔ cs ≠ [] ∧ ∀ v w, Denotes dims ix v → Denotes dims ix w →
      lastState dims cs v = lastState dims cs w :=
  exact_iff hd hcs hix

def demoCalls : List Call :=
  [⟨.seqState .postClk, [some 1, none]⟩, ⟨.readRef, [none, some 2]⟩, ⟨.writeRef, [some 0, some 0]⟩]

theorem demoCalls_within : ∀ c ∈ demoCalls, Within [2, 3] c.index := by
  intro c hc
  simp only [demoCalls, List.mem_cons, List.not_mem_nil, or_false] at hc
  rcases hc with rfl | rfl | rfl <;> simp [Within]

theorem exact_state_iff_demo : ExactState [2, 3] demoCalls [some 1, none] ↔ demoCalls ≠ [] ∧
    ∀ v w, Denotes [2, 3] [some 1, none] v → Denotes [2, 3] [some 1, none] w →
      lastState [2, 3] demoCalls v = lastState [2, 3] demoCalls w :=
  exact_state_iff (by decide) demoCalls_within (by simp [Within])

/-- **No inconsistency is reported**: one row of `m[2][3]` is assigned at the clock, and then a column is asked for. -/
theorem inconsistent_not_reported : ¬∀ (dims : List ℕ) (cs : List Call) (ix : Index), (∀ d ∈ dims, 0 < d) →
    (∀ c ∈ cs, Within dims c.index) → Within dims ix → ExactState dims cs ix := by
  intro hall
  have hix : Within [2, 3] [none, some 0] := by simp [Within]
  have hexact := hall [2, 3] demoCalls [none, some 0] (by decide) demoCalls_within hix
  have hsame := ((exact_iff (by decide) demoCalls_within hix).1 hexact).2 [0, 0] [1, 0] (by decide) (by decide)
  exact absurd hsame (by decide)

end OpenHT.Htfe.RefInfo
