import OpenHT.Htfe.JumpRewrite
import OpenHT.Htfe.StmtRun

/-!
# `ParseSwitchStatement` and `ParseIfStatement`

A switch becomes a list of cases with their bodies, in which breaks are taken out of ifs. Of a switch on a constant, or
an if on one, only the selected list is returned.

* `Clause`: a label, with the lists that `ParseStatement` returned for its body, if no other label follows at once.
* `parseSwitch`, `parseIf`: the parsers, on the heap of statements.
* `execSwitch`: the switch that is generated.
* `Clause.outBody`: what is left of a body; `SwitchDone`: the heap behind the labels.
-/

namespace OpenHT.Htfe

open Fuel Heap Stmts

/-- A label: its node, its expression (`none` for `default`), and the statements up to the next label, in the order they
are parsed. There are none if that label follows at once. -/
structure Clause (E B : Type) where
  id : ℕ
  label : Option E
  body : Option (List B)

variable {E : Type}

namespace Heap

/-- `HandleNewStatement` and `Init` -/
def init (h : Heap E) (i : ℕ) (s : CHtfeStatement E) : Heap E := Function.update h i s

/-- The loop over the statements of a case. -/
structure BodyState (E : Type) where
  heap : Heap E
  caseTail : Slot
  breakSeen : Bool
  breakWarned : Bool

/-- The statements of a list are walked through; those behind a break are cut off, once. -/
def walk : ℕ → BodyState E → Option ℕ → Option (BodyState E)
  | 0, _, _ => none
  | _ + 1, st, none => some st
  | n + 1, st, some i =>
    if st.breakSeen then
      if st.breakWarned then some st
      else some { st with breakWarned := true, heap := st.heap.set st.caseTail none }
    else walk n { st with breakSeen := (st.heap i).stType = .stBreak, caseTail := .next i } (st.heap i).next

/-- A list that `ParseStatement` returned. -/
def addStatement (n : ℕ) (st : BodyState E) (pStatement : Option ℕ) : Option (BodyState E) :=
  if pStatement = none then some st
  else walk n { st with heap := st.heap.set st.caseTail pStatement } pStatement

def addStatements (n : ℕ) : BodyState E → List (Option ℕ) → Option (BodyState E)
  | st, [] => some st
  | st, p :: ps => addStatement n st p >>= fun st => addStatements n st ps

/-- The loop over the labels. -/
structure SwitchState (E : Type) where
  heap : Heap E
  switchTail : Slot
  caseStatement : Option ℕ
  defaultStatement : Option ℕ
  error : Bool

-- `constOf e` is the constant that `e` is folded to, if it is one.
variable (constOf : E → Option Int)

/-- The node of a label, linked to the one before. -/
def newLabel (h : Heap E) (switchTail : Slot) (id : ℕ) (label : Option E) : Heap E :=
  (h.init id ⟨if label.isSome then .stCase else .stDefault, label, none, none, none⟩).set switchTail (some id)

/-- A label with its body. `selector` is the constant that the switch is on; `more` says that a label follows. -/
def parseClause (selector : Option Int) (more : Bool) (n : ℕ) (st : SwitchState E) (c : Clause E (Option ℕ)) :
    Option (SwitchState E) :=
  let h := newLabel st.heap st.switchTail c.id c.label
  let notConst := c.label.isSome && (c.label >>= constOf).isNone
  match c.body with
  | none => some { st with heap := h, switchTail := .next c.id, error := st.error || notConst }
  | some ps => do
    let b ← addStatements n ⟨h, .compound1 c.id, false, false⟩ ps
    let tail ← lastSlot n b.heap (.compound1 c.id)
    let noBreak := ((b.heap.get tail).map fun i => (b.heap i).stType) ≠ some .stBreak
    let h' ← transformBreaks n b.heap (b.heap c.id).compound1
    some {
      heap := h'
      switchTail := .next c.id
      caseStatement :=
        if selector.isSome && (c.label >>= constOf) = selector then (h' c.id).compound1 else st.caseStatement
      defaultStatement := if c.label.isNone then (h' c.id).compound1 else st.defaultStatement
      error := st.error || notConst || (more && noBreak) }

def parseClauses (selector : Option Int) (n : ℕ) : SwitchState E → List (Clause E (Option ℕ)) → Option (SwitchState E)
  | st, [] => some st
  | st, c :: cs => parseClause constOf selector (!cs.isEmpty) n st c >>= fun st => parseClauses selector n st cs

/-- The selected list without its break. -/
def selected (n : ℕ) (h : Heap E) (constStmt : Option ℕ) : Option (Heap E × Option ℕ) :=
  match constStmt with
  | none => some (h, none)
  | some i =>
    if (h i).stType = .stBreak then some (h, none)
    else beforeBreak n h i >>= fun x => some (h.setNext x none, some i)

/-- `ParseSwitchStatement`, with at most one default label. -/
def parseSwitch (n : ℕ) (h : Heap E) (pSwitch : ℕ) (e : E) (cs : List (Clause E (Option ℕ))) :
    Option (Heap E × Option ℕ × Bool) := do
  let h₀ := h.init pSwitch ⟨.stSwitch, some e, none, none, none⟩
  let st ← parseClauses constOf (constOf e) n ⟨h₀, .compound1 pSwitch, none, none, false⟩ cs
  if (constOf e).isNone then some (st.heap, some pSwitch, st.error)
  else
    let r ← selected n st.heap (st.caseStatement.or st.defaultStatement)
    some (r.1, r.2, st.error)

/-- `ParseIfStatement` -/
def parseIf (h : Heap E) (pIf : ℕ) (e : E) (ifClause elseClause : Option ℕ) : Heap E × Option ℕ :=
  (h.init pIf ⟨.stIf, some e, ifClause, elseClause, none⟩,
    match constOf e with
    | none => some pIf
    | some v => if v = 0 then elseClause else ifClause)

/-! ## The generated switch -/

variable {S : Type} (m : Meaning E S) (value : E → S → Int)

def findLabel (p : CHtfeStatement E → Bool) : ℕ → Heap E → Option ℕ → Option (Option ℕ)
  | 0, _, _ => none
  | _ + 1, _, none => some none
  | n + 1, h, some i => if p (h i) then some (some i) else findLabel p n h (h i).next

/-- The body of a label is that of the first label from it on that has one. -/
def labelBody : ℕ → Heap E → Option ℕ → Option (Option ℕ)
  | 0, _, _ => none
  | _ + 1, _, none => some none
  | n + 1, h, some i => if (h i).compound1 = none then labelBody n h (h i).next else some (h i).compound1

def isCase (v : Int) (c : CHtfeStatement E) : Bool := c.stType = .stCase && (c.expr >>= constOf) = some v

def isDefault (c : CHtfeStatement E) : Bool := c.stType = .stDefault

def execSwitch (n : ℕ) (h : Heap E) (pSwitch : ℕ) (s : S) : Option S := do
  let e ← (h pSwitch).expr
  let pCase ← findLabel (isCase constOf (value e s)) n h (h pSwitch).compound1
  let pDefault ← findLabel isDefault n h (h pSwitch).compound1
  let body ← labelBody n h (pCase.or pDefault)
  h.exec m n body s

end Heap

/-! ## Bodies -/

namespace Stmts

/-- A jump in the list itself. -/
def topJump : Stmts E → Bool
  | nil => false
  | assign _ _ l | ite _ _ _ _ l => l.topJump
  | jump _ _ _ => true

/-- The list up to its first jump. -/
def upTo : Stmts E → Stmts E
  | nil => nil
  | assign i e l => assign i e l.upTo
  | jump i e _ => jump i e nil
  | ite i e a b l => ite i e a b l.upTo

/-- What stands behind the first jump. -/
def behind : Stmts E → Stmts E
  | nil => nil
  | assign _ _ l | ite _ _ _ _ l => l.behind
  | jump _ _ l => l

/-- The lists of a body in one. -/
def flat (ts : List (Stmts E)) : Stmts E := ts.foldr append nil

/-- The body that the parser keeps. -/
def kept : List (Stmts E) → Stmts E
  | [] => nil
  | t :: ts => if t.topJump then t.upTo else t.append (kept ts)

/-- The lists behind the break. -/
def ignored : List (Stmts E) → List (Stmts E)
  | [] => []
  | t :: ts => if t.topJump then t.behind :: ts else ignored ts

end Stmts

variable {j : Jump} {h h' : Heap E} {l k t : Stmts E}

theorem upTo_topJump (ht : t.topJump = false) : t.upTo = t ∧ t.behind = nil := by
  induction t with
  | nil => exact ⟨rfl, rfl⟩
  | assign i e l ih => exact ⟨congrArg (assign i e) (ih ht).1, (ih ht).2⟩
  | jump i e l ih => cases ht
  | ite i e a b l iha ihb ihl => exact ⟨congrArg (Stmts.ite i e a b) (ihl ht).1, (ihl ht).2⟩

theorem upTo_endsInJump (ht : t.topJump) : t.upTo.endsInJump := by
  induction t with
  | nil => cases ht
  | assign i e l ih => exact ih ht
  | jump i e l ih => rfl
  | ite i e a b l iha ihb ihl => exact ihl ht

theorem upTo_sublist (t : Stmts E) : t.upTo.ids.Sublist t.ids := by
  induction t with
  | nil => exact .refl _
  | assign i e l ih => exact ih.cons_cons i
  | jump i e l ih => exact (List.nil_sublist _).cons_cons i
  | ite i e a b l iha ihb ihl => exact ((List.Sublist.refl _).append ihl).cons_cons i

theorem upTo_ids {x : ℕ} (hx : x ∈ t.upTo.ids) : x ∈ t.ids := (upTo_sublist t).subset hx

theorem upTo_first (t : Stmts E) : t.upTo.first = t.first := by
  cases t <;> rfl

/-- The state after a list `t`: its statements up to a break are left, and it is known whether something stood behind. -/
structure Walked (st : BodyState E) (t : Stmts E) (st' : BodyState E) : Prop where
  holds : t.upTo.Holds .brk st'.heap
  seen : st'.breakSeen = t.topJump
  warned : st'.breakWarned = true ↔ t.behind ≠ nil
  frame : ∀ x, x ∉ t.upTo.ids → st'.heap x = st.heap x
  tail : st'.caseTail = (t.upTo.last.map Slot.next).getD st.caseTail

theorem walk_step {st : BodyState E} {i : ℕ} {p : Option ℕ} (hseen : st.breakSeen = false) (htype : (st.heap i).stType ≠ .stBreak)
    (hnext : (st.heap i).next = p) {st' : BodyState E} (h : Returns (walk · { st with caseTail := .next i } p) st') :
    Returns (walk · st (some i)) st' := by
  refine Returns.succ (fun n => ?_) h
  simp only [walk, hseen, Bool.false_eq_true, if_false, hnext, decide_eq_false htype]

theorem walked_cons {st st' : BodyState E} {i : ℕ} (hi : i ∉ l.upTo.ids) (hw : Walked { st with caseTail := .next i } l st') :
    st'.heap i = st.heap i ∧ st'.caseTail = .next (l.upTo.last.getD i) := by
  refine ⟨hw.frame i hi, hw.tail.trans ?_⟩
  cases l.upTo.last <;> rfl

theorem walk_returns {st : BodyState E} (hseen : st.breakSeen = false) (hwarn : st.breakWarned = false)
    (ht : t.Holds .brk st.heap) (hids : t.ids.Nodup) : ∃ st', Returns (walk · st t.first) st' ∧ Walked st t st' := by
  induction t generalizing st with
  | nil =>
    refine ⟨st, Returns.succ (fun n => rfl) (Returns.const st), trivial, hseen, ?_, fun _ _ => rfl, rfl⟩
    simp [hwarn, behind]
  | assign i e l ih =>
    obtain ⟨hi, hl⟩ := ht
    obtain ⟨hni, hnd⟩ := List.nodup_cons.1 hids
    obtain ⟨st', hw, hwalked⟩ := @ih { st with caseTail := .next i } hseen hwarn hl hnd
    obtain ⟨hnode, htail⟩ := walked_cons (fun h => hni (upTo_ids h)) hwalked
    have htype : (st.heap i).stType ≠ .stBreak := by
      rw [hi]
      exact EStType.noConfusion
    refine ⟨st', walk_step hseen htype (congrArg CHtfeStatement.next hi) hw, ⟨?_, hwalked.holds⟩, hwalked.seen,
      hwalked.warned, fun x hx => hwalked.frame x fun h => hx (.tail _ h), htail⟩
    rw [hnode, hi, upTo_first]
  | jump i e l ih =>
    obtain ⟨hi, hl⟩ := ht
    have hstep : ∀ {st'}, Returns (walk · { st with breakSeen := true, caseTail := .next i } l.first) st' →
        Returns (walk · st (some i)) st' := by
      intro st' h
      refine Returns.succ (fun n => ?_) h
      simp only [walk, hseen, Bool.false_eq_true, if_false, hi, Jump.stType, decide_true]
    cases hl' : l.first with
    | none =>
      obtain rfl := first_eq_none.1 hl'
      refine ⟨{ st with breakSeen := true, caseTail := .next i }, hstep ?_, ⟨hi, trivial⟩, rfl, ?_, fun _ _ => rfl, rfl⟩
      · exact Returns.succ (fun n => rfl) (Returns.const _)
      · simp [hwarn, behind]
    | some x =>
      have hne : l ≠ nil := by
        rintro rfl
        cases hl'
      refine ⟨{ heap := st.heap.setNext i none, breakSeen := true, breakWarned := true, caseTail := .next i }, hstep ?_,
        ⟨?_, trivial⟩, rfl, ?_, ?_, rfl⟩
      · refine Returns.succ (fun n => ?_) (Returns.const _)
        simp only [walk, hl', hwarn, Bool.false_eq_true, if_true, if_false, Heap.set]
      · exact (setNext_self st.heap i none).trans (by rw [hi]; rfl)
      · simp [behind, hne]
      · intro y hy
        exact setNext_ne none fun h => hy (h ▸ .head _)
  | ite i e a b l iha ihb ihl =>
    obtain ⟨hi, ha, hb, hl⟩ := ht
    simp only [ids, List.nodup_cons, List.nodup_append, List.mem_append, not_or] at hids
    obtain ⟨⟨⟨hia, hib⟩, hil⟩, ⟨hnda, hndb, hdab⟩, hndl, hdl⟩ := hids
    obtain ⟨st', hw, hwalked⟩ := @ihl { st with caseTail := .next i } hseen hwarn hl hndl
    obtain ⟨hnode, htail⟩ := walked_cons (fun h => hil (upTo_ids h)) hwalked
    have htype : (st.heap i).stType ≠ .stBreak := by
      rw [hi]
      exact EStType.noConfusion
    refine ⟨st', walk_step hseen htype (congrArg CHtfeStatement.next hi) hw, ⟨?_, ?_, ?_, hwalked.holds⟩, hwalked.seen,
      hwalked.warned, fun x hx => hwalked.frame x fun h => hx ?_, htail⟩
    · rw [hnode, hi, upTo_first]
    · exact ha.frame fun x hx => hwalked.frame x fun h => hdl x (.inl hx) x (upTo_ids h) rfl
    · exact hb.frame fun x hx => hwalked.frame x fun h => hdl x (.inr hx) x (upTo_ids h) rfl
    · exact .tail _ (List.mem_append_right _ h)

/-- Where the next list of a body is put. -/
def bodyTail (c : ℕ) (l : Stmts E) : Slot := (l.last.map Slot.next).getD (.compound1 c)

/-- The parser is behind the statements `l` of the label `c`. -/
structure Gathered (c : ℕ) (l : Stmts E) (st : BodyState E) : Prop where
  holds : l.Holds .brk st.heap
  first : st.heap.get (.compound1 c) = l.first
  tail : st.caseTail = bodyTail c l

theorem get_bodyTail {c : ℕ} (hl : l.Holds j h) (hfirst : h.get (.compound1 c) = l.first) :
    h.get (bodyTail c l) = none := by
  unfold bodyTail
  cases hlast : l.last with
  | none =>
    rw [last_eq_none.1 hlast] at hfirst
    exact hfirst
  | some x => exact last_next (k := nil) (by rw [append_nil]; exact hl) hlast

/-- Putting a list there appends it. -/
theorem set_bodyTail {c : ℕ} (hl : l.Holds j h) (hfirst : h.get (.compound1 c) = l.first) (ht : t.Holds j h)
    (hids : l.ids.Nodup) (hd : ∀ x ∈ l.ids, x ∉ t.ids) (hcl : c ∉ l.ids) (hct : c ∉ t.ids) :
    (l.append t).Holds j (h.set (bodyTail c l) t.first) ∧
      h.set (bodyTail c l) t.first c = h.set (.compound1 c) (l.append t).first c ∧
        ∀ x, x ∉ l.ids → x ≠ c → h.set (bodyTail c l) t.first x = h x := by
  unfold bodyTail
  cases hlast : l.last with
  | none =>
    rw [last_eq_none.1 hlast]
    exact ⟨ht.frame fun x hx => set_ne _ (ne_of_mem_of_not_mem hx hct), rfl, fun x _ hx => set_ne _ hx⟩
  | some x =>
    have hxl := last_mem hlast
    have hne : l ≠ nil := by
      rintro rfl
      cases hlast
    refine ⟨hl.append hlast hids ht (hd x hxl), ?_, fun y hy _ => setNext_ne _ (ne_of_mem_of_not_mem hxl hy).symm⟩
    rw [first_append hne, ← hfirst, set_get]
    exact setNext_ne _ (ne_of_mem_of_not_mem hxl hcl).symm

theorem append_first (l : Stmts E) (hk : k.first = t.first) : (l.append k).first = (l.append t).first := by
  cases l <;> first | exact hk | rfl

/-- What stands behind a list may change if it starts at the same node. -/
theorem Stmts.Holds.replace (hl : (l.append t).Holds j h) (hk : k.Holds j h') (hfirst : k.first = t.first)
    (heq : ∀ x ∈ l.ids, h' x = h x) : (l.append k).Holds j h' := by
  induction l with
  | nil => exact hk
  | assign i e l ih =>
    refine ⟨?_, ih hl.2 fun x hx => heq x (.tail _ hx)⟩
    rw [heq i (.head _), hl.1, append_first l hfirst]
  | jump i e l ih =>
    refine ⟨?_, ih hl.2 fun x hx => heq x (.tail _ hx)⟩
    rw [heq i (.head _), hl.1, append_first l hfirst]
  | ite i e a b l iha ihb ihl =>
    obtain ⟨hi, ha, hb, hl⟩ := hl
    simp only [ids, List.mem_cons, List.mem_append] at heq
    refine ⟨?_, ha.frame fun x hx => heq x (.inr (.inl (.inl hx))), hb.frame fun x hx => heq x (.inr (.inl (.inr hx))),
      ihl hl fun x hx => heq x (.inr (.inr hx))⟩
    rw [heq i (.inl rfl), hi, append_first l hfirst]

theorem append_assoc (l k t : Stmts E) : (l.append k).append t = l.append (k.append t) := by
  induction l with
  | nil => rfl
  | assign i e l ih => exact congrArg (assign i e) ih
  | jump i e l ih => exact congrArg (jump i e) ih
  | ite i e a b l iha ihb ihl => exact congrArg (Stmts.ite i e a b) ihl

theorem append_ids (l k : Stmts E) : (l.append k).ids = l.ids ++ k.ids := by
  induction l with
  | nil => rfl
  | assign i e l ih => exact congrArg (i :: ·) ih
  | jump i e l ih => exact congrArg (i :: ·) ih
  | ite i e a b l iha ihb ihl =>
    have hcons : ((Stmts.ite i e a b l).append k).ids = i :: (a.ids ++ b.ids ++ (l.append k).ids) := rfl
    rw [hcons, ihl]
    simp only [ids, List.append_assoc, List.cons_append]

/-! ## Lists behind a break -/

theorem set_set (h : Heap E) (slot : Slot) (p q : Option ℕ) : (h.set slot p).set slot q = h.set slot q := by
  cases slot <;> simp [Heap.set, setNext]

theorem set_congr {slot : Slot} (heq : h' slot.owner = h slot.owner) (p : Option ℕ) :
    h'.set slot p slot.owner = h.set slot p slot.owner := by
  cases slot with
  | compound1 i =>
    simp only [Slot.owner] at heq
    simp [Heap.set, Slot.owner, heq]
  | compound2 i =>
    simp only [Slot.owner] at heq
    simp [Heap.set, Slot.owner, heq]
  | next i =>
    simp only [Slot.owner] at heq
    simp [Heap.set, Slot.owner, heq]

theorem last_append {x : ℕ} (l : Stmts E) (hk : k.last = some x) : (l.append k).last = some x := by
  induction l with
  | nil => exact hk
  | assign i e l ih => exact congrArg (fun o => some (o.getD i)) ih
  | jump i e l ih => exact congrArg (fun o => some (o.getD i)) ih
  | ite i e a b l iha ihb ihl => exact congrArg (fun o => some (o.getD i)) ihl

theorem kept_cons (t : Stmts E) (ts : List (Stmts E)) :
    kept (t :: ts) = if t.topJump then t.upTo else t.append (kept ts) := rfl

theorem ignored_cons (t : Stmts E) (ts : List (Stmts E)) :
    ignored (t :: ts) = if t.topJump then t.behind :: ts else ignored ts := rfl

theorem flat_ids {ts : List (Stmts E)} {x : ℕ} (ht : t ∈ ts) (hx : x ∈ t.ids) : x ∈ (flat ts).ids := by
  induction ts with
  | nil => cases ht
  | cons t' ts ih =>
    have hflat : (flat (t' :: ts)).ids = t'.ids ++ (flat ts).ids := append_ids t' (flat ts)
    rw [hflat]
    obtain _ | ⟨_, ht⟩ := ht
    · exact List.mem_append_left _ hx
    · exact List.mem_append_right _ (ih ht)

theorem kept_sublist (ts : List (Stmts E)) : (kept ts).ids.Sublist (flat ts).ids := by
  induction ts with
  | nil => exact .refl _
  | cons t ts ih =>
    have hflat : (flat (t :: ts)).ids = t.ids ++ (flat ts).ids := append_ids t (flat ts)
    rw [kept_cons, hflat]
    split
    · exact (upTo_sublist t).trans (List.sublist_append_left _ _)
    · rw [append_ids]
      exact (List.Sublist.refl _).append ih

theorem addStatement_nil (n : ℕ) (st : BodyState E) (ts : List (Option ℕ)) :
    addStatements n st (none :: ts) = addStatements n st ts := rfl

theorem addStatements_nils (n : ℕ) (st : BodyState E) {ts : List (Stmts E)} (hts : ∀ t ∈ ts, t = nil) :
    addStatements n st (ts.map first) = some st := by
  induction ts with
  | nil => rfl
  | cons t ts ih =>
    rw [List.map_cons, hts t (.head _), first, addStatement_nil]
    exact ih fun t' ht' => hts t' (.tail _ ht')

/-- Behind a break a list is taken off again, once. -/
theorem addStatements_ignored {st : BodyState E} {ts : List (Stmts E)} (hseen : st.breakSeen = true)
    (hnone : st.heap.get st.caseTail = none)
    (hone : (ts.filter fun t => t.first.isSome).length + st.breakWarned.toNat ≤ 1) :
    ∃ st', Returns (addStatements · st (ts.map first)) st' ∧ st'.heap = st.heap := by
  induction ts generalizing st with
  | nil => exact ⟨st, Returns.const st, rfl⟩
  | cons t ts ih =>
    cases ht : t.first with
    | none =>
      rw [List.filter_cons_of_neg (by simp [ht])] at hone
      obtain ⟨st', hret, heap⟩ := ih hseen hnone hone
      refine ⟨st', ?_, heap⟩
      rw [List.map_cons, ht]
      exact hret
    | some x =>
      rw [List.filter_cons_of_pos (by simp [ht]), List.length_cons] at hone
      have hwarn : st.breakWarned = false := by
        cases hw : st.breakWarned with
        | false => rfl
        | true =>
          rw [hw] at hone
          simp at hone
      have hrest : ∀ t' ∈ ts, t' = nil := by
        intro t' ht'
        have hempty : ts.filter (fun t => t.first.isSome) = [] := List.length_eq_zero_iff.1 (by omega)
        have hno := List.filter_eq_nil_iff.1 hempty t' ht'
        rw [← first_eq_none]
        cases hf : t'.first with
        | none => rfl
        | some y => simp [hf] at hno
      refine ⟨{ st with breakWarned := true }, ?_, rfl⟩
      have hback : (st.heap.set st.caseTail (some x)).set st.caseTail none = st.heap := by
        rw [set_set, ← hnone, set_get]
      refine Returns.succ (g := fun _ => some { st with breakWarned := true }) (fun n => ?_) (Returns.const _)
      simp only [List.map_cons, ht, addStatements, addStatement, walk, hseen, hwarn, hback, reduceCtorEq, if_false,
        if_true, Bool.false_eq_true, Option.bind_eq_bind, Option.bind_some, addStatements_nils _ _ hrest]

/-- **The body of a label** is what the parser keeps of it, if at most one list stands behind its break. -/
theorem addStatements_kept {c : ℕ} {l : Stmts E} {ts : List (Stmts E)} {st : BodyState E} (hl : Gathered c l st)
    (hseen : st.breakSeen = false) (hwarn : st.breakWarned = false) (hts : ∀ t ∈ ts, t.Holds .brk st.heap)
    (hids : (l.append (flat ts)).ids.Nodup) (hc : c ∉ (l.append (flat ts)).ids)
    (hone : ((ignored ts).filter fun t => t.first.isSome).length ≤ 1) :
    ∃ st', Returns (addStatements · st (ts.map first)) st' ∧ (l.append (kept ts)).Holds .brk st'.heap ∧
      st'.heap c = st.heap.set (.compound1 c) (l.append (kept ts)).first c ∧
        ∀ x, x ∉ (l.append (flat ts)).ids → x ≠ c → st'.heap x = st.heap x := by
  induction ts generalizing l st with
  | nil =>
    refine ⟨st, Returns.const st, ?_, ?_, fun _ _ _ => rfl⟩
    · unfold kept
      rw [append_nil]
      exact hl.holds
    · unfold kept
      rw [append_nil, ← hl.first, set_get]
  | cons t ts ih =>
    have hflat : flat (t :: ts) = t.append (flat ts) := rfl
    rw [hflat, ← append_assoc] at hids hc ⊢
    have hnd := hids
    simp only [append_ids, List.nodup_append, List.mem_append] at hnd
    obtain ⟨⟨hndl, hndt, hdlt⟩, -, hdr⟩ := hnd
    have ht := hts t (.head _)
    by_cases hnil : t = nil
    · subst hnil
      rw [append_nil] at hids hc ⊢
      exact ih hl hseen hwarn (fun t ht => hts t (.tail _ ht)) hids hc hone
    simp only [append_ids, List.mem_append, not_or] at hc
    obtain ⟨⟨hcl, hct⟩, hcr⟩ := hc
    have hd : ∀ x ∈ l.ids, x ∉ t.ids := fun x hx hxt => hdlt x hx x hxt rfl
    -- the list is put behind the others, and walked through
    obtain ⟨happ, hgc, hframe⟩ := set_bodyTail hl.holds hl.first ht hndl hd hcl hct
    rw [← hl.tail] at happ hgc hframe
    obtain ⟨st₁, hwalk, hwalked⟩ := @walk_returns E t { st with heap := st.heap.set st.caseTail t.first } hseen
      hwarn happ.right hndt
    have hctu : c ∉ t.upTo.ids := fun h => hct (upTo_ids h)
    have hgc₁ : st₁.heap c = st.heap.set (.compound1 c) (l.append t.upTo).first c := by
      rw [hwalked.frame c hctu, append_first l (upTo_first t)]
      exact hgc
    have hgathered : Gathered c (l.append t.upTo) st₁ := by
      refine ⟨happ.replace hwalked.holds (upTo_first t) fun x hx => hwalked.frame x fun h => hd x hx (upTo_ids h), ?_, ?_⟩
      · rw [get_congr (h := st.heap.set (.compound1 c) (l.append t.upTo).first) hgc₁, get_set]
      · have hlast : t.upTo.last ≠ none := by
          rw [Ne, last_eq_none, ← first_eq_none, upTo_first, first_eq_none]
          exact hnil
        obtain ⟨x, hx⟩ := Option.ne_none_iff_exists'.1 hlast
        rw [hwalked.tail, bodyTail, last_append l hx, hx]
        rfl
    have hframe₁ : ∀ x, x ∉ l.ids → x ∉ t.ids → x ≠ c → st₁.heap x = st.heap x := fun x hxl hxt hxc =>
      (hwalked.frame x fun h => hxt (upTo_ids h)).trans (hframe x hxl hxc)
    have hadd : ∀ {st'}, Returns (addStatements · st₁ (ts.map first)) st' →
        Returns (addStatements · st ((t :: ts).map first)) st' := by
      intro st' h
      rw [List.map_cons]
      refine Returns.congr ⟨0, fun n _ => ?_⟩ (Returns.bind (k := fun st n => addStatements n st (ts.map first)) hwalk h)
      have hsome : t.first ≠ none := by
        rw [Ne, first_eq_none]
        exact hnil
      simp only [addStatements, addStatement, if_neg hsome]
    cases htop : t.topJump with
    | false =>
      obtain ⟨hupTo, hbehind⟩ := upTo_topJump htop
      rw [hupTo] at hgathered hgc₁
      have hwarn₁ : st₁.breakWarned = false := by
        rw [Bool.eq_false_iff, Ne, hwalked.warned, hbehind]
        simp
      have hone' : ((ignored ts).filter fun t => t.first.isSome).length ≤ 1 := by
        rwa [ignored_cons, htop, if_neg Bool.false_ne_true] at hone
      have hts₁ : ∀ t' ∈ ts, t'.Holds .brk st₁.heap := by
        intro t' ht'
        refine (hts t' (.tail _ ht')).frame fun x hx => hframe₁ x ?_ ?_ ?_
        · exact fun hxl => hdr x (.inl hxl) x (flat_ids ht' hx) rfl
        · exact fun hxt => hdr x (.inr hxt) x (flat_ids ht' hx) rfl
        · rintro rfl
          exact hcr (flat_ids ht' hx)
      obtain ⟨st', hret, hholds, hnode, hrest⟩ := ih hgathered (hwalked.seen.trans htop) hwarn₁ hts₁ hids
        (by simp only [append_ids, List.mem_append, not_or]; exact ⟨⟨hcl, hct⟩, hcr⟩) hone'
      rw [kept_cons, htop, if_neg Bool.false_ne_true, ← append_assoc]
      refine ⟨st', hadd hret, hholds, ?_, fun x hx hxc => ?_⟩
      · have hset : st₁.heap.set (.compound1 c) ((l.append t).append (kept ts)).first c =
            (st.heap.set (.compound1 c) (l.append t).first).set (.compound1 c) ((l.append t).append (kept ts)).first c :=
          set_congr hgc₁ _
        rw [set_set] at hset
        exact hnode.trans hset
      · have hx' := hx
        simp only [append_ids, List.mem_append, not_or] at hx'
        rw [hrest x hx hxc, hframe₁ x hx'.1.1 hx'.1.2 hxc]
    | true =>
      have hone' : (ts.filter fun t => t.first.isSome).length + st₁.breakWarned.toNat ≤ 1 := by
        rw [ignored_cons, htop, if_pos rfl] at hone
        cases hb : t.behind.first with
        | none =>
          rw [List.filter_cons_of_neg (by simp [hb])] at hone
          have hnot : st₁.breakWarned = false := by
            rw [Bool.eq_false_iff, Ne, hwalked.warned, not_not, ← first_eq_none]
            exact hb
          rwa [hnot]
        | some x =>
          rw [List.filter_cons_of_pos (by simp [hb]), List.length_cons] at hone
          have hyes : st₁.breakWarned = true := by
            rw [hwalked.warned, Ne, ← first_eq_none, hb]
            exact Option.some_ne_none x
          rwa [hyes]
      obtain ⟨st', hret, hheap⟩ := addStatements_ignored (hwalked.seen.trans htop)
        (by rw [hgathered.tail]; exact get_bodyTail hgathered.holds hgathered.first) hone'
      rw [kept_cons, htop, if_pos rfl]
      refine ⟨st', hadd hret, by rw [hheap]; exact hgathered.holds, by rw [hheap]; exact hgc₁, fun x hx hxc => ?_⟩
      simp only [append_ids, List.mem_append, not_or] at hx
      rw [hheap, hframe₁ x hx.1.1 hx.1.2 hxc]

/-! ## Labels -/

namespace Clause

/-- The statements of a label, as C has them. -/
def bodyC (c : Clause E (Stmts E)) : Stmts E := flat (c.body.getD [])

/-- Those that the parser keeps. -/
def keptBody (c : Clause E (Stmts E)) : Stmts E := kept (c.body.getD [])

/-- The break at the end of a body. -/
def finalBreak : Stmts E → Stmts E
  | .nil => .nil
  | .jump i e .nil => .jump i e .nil
  | .assign _ _ l | .jump _ _ l | .ite _ _ _ _ l => finalBreak l

/-- The statements that are left of a body, without its break. -/
def lowered (c : Clause E (Stmts E)) : Stmts E := c.keptBody.dropJump.push .brk nil

/-- What is left of a body. -/
def outBody (c : Clause E (Stmts E)) : Stmts E := c.lowered.append (finalBreak c.keptBody)

def ids (c : Clause E (Stmts E)) : List ℕ := c.id :: c.bodyC.ids

/-- The label as the parser sees it. -/
def parsed (c : Clause E (Stmts E)) : Clause E (Option ℕ) := ⟨c.id, c.label, c.body.map (List.map first)⟩

/-- **A well-formed body**: in the lists of its ifs nothing stands behind a break, and in itself at most one statement,
which the parser takes off. -/
structure Sound (c : Clause E (Stmts E)) : Prop where
  clean : c.keptBody.Clean
  ignored : ((ignored (c.body.getD [])).filter fun t => t.first.isSome).length ≤ 1

end Clause

open Clause

theorem dropJump_append (l : Stmts E) : l.dropJump.append (finalBreak l) = l := by
  induction l with
  | nil => rfl
  | assign i e l ih => exact congrArg (assign i e) ih
  | jump i e l ih =>
    cases l with
    | nil => rfl
    | _ => exact congrArg (jump i e) ih
  | ite i e a b l iha ihb ihl => exact congrArg (Stmts.ite i e a b) ihl

theorem finalBreak_tail (l : Stmts E) : Tail .brk (finalBreak l) := by
  induction l with
  | nil => exact .inl rfl
  | assign i e l ih => exact ih
  | jump i e l ih =>
    cases l with
    | nil => exact .inr ⟨rfl, i, e, rfl⟩
    | _ => exact ih
  | ite i e a b l iha ihb ihl => exact ihl

theorem clean_dropJump (hl : l.Clean) : l.dropJump.Clean ∧ l.dropJump.topJump = false := by
  induction l with
  | nil => exact ⟨trivial, rfl⟩
  | assign i e l ih => exact ih hl
  | jump i e l ih =>
    obtain rfl : l = nil := hl
    exact ⟨trivial, rfl⟩
  | ite i e a b l iha ihb ihl => exact ⟨⟨hl.1, hl.2.1, (ihl hl.2.2).1⟩, (ihl hl.2.2).2⟩

theorem join_topJump (hl : l.topJump = false) (k : Stmts E) : l.join j k = l.append k := by
  induction l with
  | nil => rfl
  | assign i e l ih => exact congrArg (assign i e) (ih hl)
  | jump i e l ih => cases hl
  | ite i e a b l iha ihb ihl => exact congrArg (Stmts.ite i e a b) (ihl hl)

/-- **Breaks are taken out of a body.** -/
theorem transformBreaks_returns (hl : l.Holds .brk h) (hclean : l.Clean) (hids : l.ids.Nodup) :
    ∃ h', Returns (transformBreaks · h l.first) h' ∧
      ((l.dropJump.push .brk nil).append (finalBreak l)).Holds .brk h' ∧
        ((l.dropJump.push .brk nil).append (finalBreak l)).first = l.first ∧ ∀ x, x ∉ l.ids → h' x = h x := by
  obtain ⟨hclean', htop⟩ := clean_dropJump hclean
  have hjoin : (l.dropJump.join .brk nil).append (finalBreak l) = l := by
    rw [join_topJump htop, append_nil, dropJump_append]
  have happ := dropJump_append l
  have hids' : (l.dropJump.ids ++ (finalBreak l).ids).Nodup := by rw [← append_ids, happ]; exact hids
  obtain ⟨hnd, -, hd⟩ := List.nodup_append.1 hids'
  have hl' : ((l.dropJump.join .brk nil).append (finalBreak l)).Holds .brk h := by rwa [hjoin]
  obtain ⟨h', hT, hpush, hrest⟩ := transformList_pushes l.dropJump hl' trivial trivial hnd (fun _ _ => List.not_mem_nil)
    (finalBreak_tail l) (fun x hx hx' => hd x hx x hx' rfl) (.inr rfl) fun _ => ⟨hclean', rfl⟩
  rw [hjoin] at hT
  refine ⟨h', hT, hpush, ?_, fun x hx => hrest x fun h => hx ?_⟩
  · rw [first_append_congr (first_push .brk l.dropJump nil), hjoin]
  · rw [← happ, append_ids]
    exact List.mem_append_left _ h

/-- The node of a label. -/
def Clause.node (c : Clause E (Stmts E)) (next : Option ℕ) : CHtfeStatement E :=
  ⟨if c.label.isSome then .stCase else .stDefault, c.label, c.outBody.first, none, next⟩

variable {constOf : E → Option Int}

/-- A label that the parser reports an error for: it is not constant, or its body is not the last and has no break. -/
def Clause.bad (constOf : E → Option Int) (more : Bool) (c : Clause E (Stmts E)) : Bool :=
  (c.label.isSome && (c.label >>= constOf).isNone) || (more && c.body.isSome && !c.keptBody.endsInJump)

/-- The state behind a label. -/
structure ClauseDone (constOf : E → Option Int) (selector : Option Int) (more : Bool) (c : Clause E (Stmts E))
    (st st' : SwitchState E) : Prop where
  node : st'.heap c.id = c.node none
  holds : c.outBody.Holds .brk st'.heap
  owner : st'.heap st.switchTail.owner = st.heap.set st.switchTail (some c.id) st.switchTail.owner
  frame : ∀ x, x ∉ c.ids → x ≠ st.switchTail.owner → st'.heap x = st.heap x
  tail : st'.switchTail = .next c.id
  caseStatement : st'.caseStatement =
    if c.body.isSome && selector.isSome && (c.label >>= constOf) = selector then c.outBody.first else st.caseStatement
  defaultStatement : st'.defaultStatement =
    if c.body.isSome && c.label.isNone then c.outBody.first else st.defaultStatement
  error : st'.error = (st.error || c.bad constOf more)

theorem last_isBreak (hl : l.Holds .brk h) : (l.last.map fun i => (h i).stType) = some .stBreak ↔ l.endsInJump := by
  cases hlast : l.last with
  | none =>
    rw [last_eq_none.1 hlast]
    simp [endsInJump]
  | some x =>
    have hends := last_stType hl hlast
    rw [Option.map_some, Option.some_inj]
    exact hends

theorem newLabel_heap {slot : Slot} {id : ℕ} (hslot : slot.owner ≠ id) (h : Heap E) (label : Option E) :
    newLabel h slot id label id = ⟨if label.isSome then .stCase else .stDefault, label, none, none, none⟩ ∧
      newLabel h slot id label slot.owner = h.set slot (some id) slot.owner ∧
        ∀ x, x ≠ id → x ≠ slot.owner → newLabel h slot id label x = h x := by
  unfold newLabel
  refine ⟨?_, set_congr (Function.update_of_ne hslot ..) _, fun x hx hxo => ?_⟩
  · rw [set_ne _ hslot.symm]
    exact Function.update_self ..
  · rw [set_ne _ hxo]
    exact Function.update_of_ne hx ..

theorem parseClause_returns (constOf : E → Option Int) (selector : Option Int) (more : Bool) {c : Clause E (Stmts E)} {st : SwitchState E}
    (hts : ∀ t ∈ c.body.getD [], t.Holds .brk st.heap) (hids : c.ids.Nodup) (hslot : st.switchTail.owner ∉ c.ids)
    (hsound : c.Sound) :
    ∃ st', Returns (fun n => parseClause constOf selector more n st c.parsed) st' ∧
      ClauseDone constOf selector more c st st' := by
  obtain ⟨hidBody, hnd⟩ := List.nodup_cons.1 hids
  simp only [Clause.ids, List.mem_cons, not_or] at hslot
  obtain ⟨hnode₁, howner₁, hframe₁⟩ := newLabel_heap hslot.1 st.heap c.label
  cases hbody : c.body with
  | none =>
    have hkept : c.keptBody = nil := by
      unfold keptBody
      rw [hbody]
      rfl
    have hout : c.outBody = nil := by
      unfold outBody lowered
      rw [hkept]
      rfl
    refine ⟨⟨newLabel st.heap st.switchTail c.id c.label, .next c.id, st.caseStatement, st.defaultStatement,
      st.error || c.label.isSome && (c.label >>= constOf).isNone⟩, ?_, ⟨?_, ?_, howner₁, ?_, rfl, ?_, ?_, ?_⟩⟩
    · refine Returns.congr ⟨0, fun n _ => ?_⟩ (Returns.const _)
      simp only [parseClause, parsed, hbody, Option.map_none]
    · refine hnode₁.trans ?_
      rw [Clause.node, hout]
      rfl
    · rw [hout]
      exact trivial
    · intro x hx hxo
      exact hframe₁ x (fun h => hx (h ▸ .head _)) hxo
    · simp [hbody]
    · simp [hbody]
    · simp [bad, hbody]
  | some ts =>
    have hbodyC : c.bodyC = flat ts := by rw [bodyC, hbody]; rfl
    have hkept : c.keptBody = kept ts := by rw [keptBody, hbody]; rfl
    have hone := hsound.ignored
    rw [hbody] at hts hone
    rw [hbodyC] at hidBody hnd hslot
    have hts₁ : ∀ t ∈ ts, t.Holds .brk (newLabel st.heap st.switchTail c.id c.label) := fun t ht =>
      (hts t ht).frame fun x hx => hframe₁ x (fun h => hidBody (h ▸ flat_ids ht hx)) fun h => hslot.2 (h ▸ flat_ids ht hx)
    have hgathered : Gathered c.id nil
        (⟨newLabel st.heap st.switchTail c.id c.label, .compound1 c.id, false, false⟩ : BodyState E) :=
      ⟨trivial, congrArg CHtfeStatement.compound1 hnode₁, rfl⟩
    obtain ⟨b, hadd, hholds₂, hnode₂, hframe₂⟩ := addStatements_kept hgathered rfl rfl hts₁ hnd hidBody hone
    replace hholds₂ : (kept ts).Holds .brk b.heap := hholds₂
    replace hnode₂ : b.heap c.id =
        ⟨if c.label.isSome then .stCase else .stDefault, c.label, (kept ts).first, none, none⟩ := by
      refine hnode₂.trans ?_
      simp [Heap.set, hnode₁, append]
    have hfirst₂ : b.heap.get (.compound1 c.id) = (kept ts).first := congrArg CHtfeStatement.compound1 hnode₂
    obtain ⟨tail, htail, hget, -⟩ := findsLast hholds₂ hfirst₂
    have hclean := hsound.clean
    rw [hkept] at hclean
    obtain ⟨h', hT, hholds₃, hfirst₃, hframe₃⟩ := transformBreaks_returns hholds₂ hclean (hnd.sublist (kept_sublist ts))
    have hout : (((kept ts).dropJump.push .brk nil).append (finalBreak (kept ts))) = c.outBody := by
      rw [outBody, lowered, hkept]
    rw [hout] at hholds₃ hfirst₃
    have hidKept : c.id ∉ (kept ts).ids := fun h => hidBody ((kept_sublist ts).subset h)
    have hnode₃ : h' c.id = c.node none := by
      rw [hframe₃ _ hidKept, hnode₂, ← hfirst₃, Clause.node]
    have hstmt : (h' c.id).compound1 = c.outBody.first := congrArg CHtfeStatement.compound1 hnode₃
    have howner : ∀ x, x ∉ (flat ts).ids → x ≠ c.id → h' x = newLabel st.heap st.switchTail c.id c.label x := by
      intro x hx hxc
      rw [hframe₃ _ fun h => hx ((kept_sublist ts).subset h), hframe₂ x hx hxc]
    refine ⟨⟨h', .next c.id, if selector.isSome && (c.label >>= constOf) = selector then c.outBody.first else st.caseStatement,
      if c.label.isNone then c.outBody.first else st.defaultStatement, st.error || c.bad constOf more⟩, ?_,
      ⟨hnode₃, hholds₃, ?_, ?_, rfl, ?_, ?_, rfl⟩⟩
    · obtain ⟨N₁, hN₁⟩ := hadd
      obtain ⟨N₂, hN₂⟩ := htail
      obtain ⟨N₃, hN₃⟩ := hT
      refine ⟨N₁ + N₂ + N₃, fun n hn => ?_⟩
      have hadd := hN₁ n (by omega)
      have htail := hN₂ n (by omega)
      have hT := hN₃ n (by omega)
      have hnoBreak : ((b.heap.get tail).map fun i => (b.heap i).stType) ≠ some .stBreak ↔ (kept ts).endsInJump = false := by
        rw [hget, Ne, last_isBreak hholds₂, Bool.not_eq_true]
      have hcomp : (b.heap c.id).compound1 = (kept ts).first := hfirst₂
      simp only [parseClause, parsed, hbody, Option.map_some, hadd, htail, hcomp, hT, hstmt, Option.bind_eq_bind,
        Option.bind_some, decide_eq_decide.2 hnoBreak, bad, hkept, Option.isSome_some, Bool.and_true, Bool.or_assoc,
        Bool.decide_eq_false]
    · exact (howner _ hslot.2 hslot.1).trans howner₁
    · intro x hx hxo
      simp only [Clause.ids, hbodyC, List.mem_cons, not_or] at hx
      exact (howner x hx.2 hx.1).trans (hframe₁ x hx.1 hxo)
    · simp [hbody]
    · simp [hbody]

/-! ## The switch -/

def labelIds : List (Clause E (Stmts E)) → List ℕ
  | [] => []
  | c :: cs => c.ids ++ labelIds cs

def firstLabel (cs : List (Clause E (Stmts E))) : Option ℕ := cs.head?.map Clause.id

/-- The cases of a switch are in the heap. -/
def CasesHold (h : Heap E) : List (Clause E (Stmts E)) → Prop
  | [] => True
  | c :: cs => h c.id = c.node (firstLabel cs) ∧ c.outBody.Holds .brk h ∧ CasesHold h cs

/-- An error was reported for a label. -/
def anyBad (constOf : E → Option Int) : List (Clause E (Stmts E)) → Bool
  | [] => false
  | c :: cs => c.bad constOf (!cs.isEmpty) || anyBad constOf cs

/-- The body that `p` picks, the last one if there are more. -/
def pick (p : Clause E (Stmts E) → Bool) : Option ℕ → List (Clause E (Stmts E)) → Option ℕ
  | stmt, [] => stmt
  | stmt, c :: cs => pick p (if c.body.isSome && p c then c.outBody.first else stmt) cs

/-- The labels are parsed. -/
structure SwitchDone (constOf : E → Option Int) (selector : Option Int) (cs : List (Clause E (Stmts E)))
    (st st' : SwitchState E) : Prop where
  holds : CasesHold st'.heap cs
  owner : st'.heap st.switchTail.owner = st.heap.set st.switchTail (firstLabel cs) st.switchTail.owner
  frame : ∀ x, x ∉ labelIds cs → x ≠ st.switchTail.owner → st'.heap x = st.heap x
  caseStatement : st'.caseStatement =
    pick (fun c => selector.isSome && (c.label >>= constOf) = selector) st.caseStatement cs
  defaultStatement : st'.defaultStatement = pick (fun c => c.label.isNone) st.defaultStatement cs
  error : st'.error = (st.error || anyBad constOf cs)

theorem out_ids {c : Clause E (Stmts E)} {x : ℕ} (hx : x ∈ c.outBody.ids) : x ∈ c.bodyC.ids := by
  apply (kept_sublist (c.body.getD [])).subset
  rw [← dropJump_append (kept (c.body.getD [])), append_ids]
  rw [outBody, append_ids] at hx
  refine List.mem_append.2 ((List.mem_append.1 hx).imp_left fun hx => ?_)
  exact (push_ids hx).elim id fun h => absurd h List.not_mem_nil

theorem labelIds_mem {c : Clause E (Stmts E)} {cs : List (Clause E (Stmts E))} {x : ℕ} (hc : c ∈ cs) (hx : x ∈ c.ids) :
    x ∈ labelIds cs := by
  induction cs with
  | nil => cases hc
  | cons c' cs ih =>
    obtain _ | ⟨_, hc⟩ := hc
    · exact List.mem_append_left _ hx
    · exact List.mem_append_right _ (ih hc)

theorem parseClauses_returns (constOf : E → Option Int) (selector : Option Int) {cs : List (Clause E (Stmts E))} {st : SwitchState E}
    (hts : ∀ c ∈ cs, ∀ t ∈ c.body.getD [], t.Holds .brk st.heap) (hids : (labelIds cs).Nodup)
    (hslot : st.switchTail.owner ∉ labelIds cs) (hnone : st.heap.get st.switchTail = none) (hsound : ∀ c ∈ cs, c.Sound) :
    ∃ st', Returns (parseClauses constOf selector · st (cs.map parsed)) st' ∧ SwitchDone constOf selector cs st st' := by
  induction cs generalizing st with
  | nil =>
    refine ⟨st, Returns.const st, ⟨trivial, ?_, fun _ _ _ => rfl, rfl, rfl, (Bool.or_false _).symm⟩⟩
    exact (congrFun (by rw [← hnone, set_get] : st.heap.set st.switchTail none = st.heap) _).symm
  | cons c cs ih =>
    obtain ⟨hndc, hnds, hd⟩ := List.nodup_append.1 hids
    simp only [labelIds, List.mem_append, not_or] at hslot
    obtain ⟨st₁, hret₁, hdone₁⟩ := parseClause_returns constOf selector (!cs.isEmpty) (hts c (.head _)) hndc hslot.1
      (hsound c (.head _))
    have hcid : c.id ∈ c.ids := .head _
    have hts₁ : ∀ c' ∈ cs, ∀ t ∈ c'.body.getD [], t.Holds .brk st₁.heap := by
      intro c' hc' t ht
      refine (hts c' (.tail _ hc') t ht).frame fun x hx => ?_
      have hxs : x ∈ labelIds cs := labelIds_mem hc' (.tail _ (flat_ids ht hx))
      exact hdone₁.frame x (fun h => hd x h x hxs rfl) (ne_of_mem_of_not_mem hxs hslot.2)
    have hslot₁ : st₁.switchTail.owner ∉ labelIds cs := by
      rw [hdone₁.tail]
      exact fun h => hd c.id hcid c.id h rfl
    have hnone₁ : st₁.heap.get st₁.switchTail = none := by
      rw [hdone₁.tail]
      exact congrArg CHtfeStatement.next hdone₁.node
    obtain ⟨st', hret, hdone⟩ := ih hts₁ hnds hslot₁ hnone₁ fun c' hc' => hsound c' (.tail _ hc')
    have hownerFrame : ∀ x, x ∈ c.ids → x ≠ c.id → st'.heap x = st₁.heap x := by
      intro x hx hxc
      refine hdone.frame x (fun h => hd x hx x h rfl) ?_
      rw [hdone₁.tail]
      exact hxc
    refine ⟨st', ?_, ⟨⟨?_, ?_, hdone.holds⟩, ?_, ?_, ?_, ?_, ?_⟩⟩
    · have hempty : (cs.map parsed).isEmpty = cs.isEmpty := by cases cs <;> rfl
      refine Returns.congr ⟨0, fun n _ => ?_⟩
        (Returns.bind (k := fun st n => parseClauses constOf selector n st (cs.map parsed)) hret₁ hret)
      simp only [List.map_cons, parseClauses, hempty]
    · have hnext := hdone.owner
      rw [hdone₁.tail] at hnext
      refine hnext.trans ((setNext_self st₁.heap c.id _).trans ?_)
      rw [hdone₁.node]
      rfl
    · refine hdone₁.holds.frame fun x hx => hownerFrame x (.tail _ (out_ids hx)) ?_
      rintro rfl
      exact (List.nodup_cons.1 hndc).1 (out_ids hx)
    · refine (hdone.frame _ hslot.2 ?_).trans hdone₁.owner
      rw [hdone₁.tail]
      exact fun h => hslot.1 (h ▸ hcid)
    · intro x hx hxo
      simp only [labelIds, List.mem_append, not_or] at hx
      refine (hdone.frame x hx.2 ?_).trans (hdone₁.frame x hx.1 hxo)
      rw [hdone₁.tail]
      exact fun h => hx.1 (h ▸ hcid)
    · rw [hdone.caseStatement, hdone₁.caseStatement, Bool.and_assoc]
      rfl
    · rw [hdone.defaultStatement, hdone₁.defaultStatement]
      rfl
    · rw [hdone.error, hdone₁.error, Bool.or_assoc]
      rfl

end OpenHT.Htfe
