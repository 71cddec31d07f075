import Mathlib.Data.List.Count
import Mathlib.Data.List.Nodup
import Mathlib.Data.List.Perm.Basic
import OpenHT.Htfe.Statement

/-!
# The statement list of a function

`CHtfeIdent` keeps the statements of a function in one list, with two pointers into it: where the next inserted
chain goes and where the next appended one goes.

* `Seg`: the nodes of a part of a list.
* `Func`, `insertStatementList`, `appendStatementList`: the list and its two operations.
* `Inv`: inserted chains, then appended ones, and the two tails behind them.
* `Inv.insert`, `Inv.append`, `stuck`: what a call does; after an empty chain was appended the tail is lost.
* `list_iff`: the calls after which the list is as it should be.
-/

namespace OpenHT.Htfe.FuncList

open Fuel

variable {E : Type}

/-! ## Parts of a list -/

/-- From `p` the nodes `ids` follow each other up to `q`. -/
def Seg (h : Heap E) : Option ℕ → List ℕ → Option ℕ → Prop
  | p, [], q => p = q
  | p, i :: is, q => p = some i ∧ Seg h (h i).next is q

attribute [local simp] Seg

section

variable {h : Heap E} {p q r : Option ℕ} {a b : List ℕ} {i : ℕ}

theorem seg_append : Seg h p (a ++ b) q ↔ ∃ r, Seg h p a r ∧ Seg h r b q := by
  induction a generalizing p with
  | nil =>
    constructor
    · exact fun h => ⟨p, rfl, h⟩
    · rintro ⟨r, hr, h⟩
      rw [List.nil_append, hr]
      exact h
  | cons i a ih =>
    constructor
    · rintro ⟨hp, hs⟩
      obtain ⟨r, ha, hb⟩ := ih.1 hs
      exact ⟨r, ⟨hp, ha⟩, hb⟩
    · rintro ⟨r, ⟨hp, ha⟩, hb⟩
      exact ⟨hp, ih.2 ⟨r, ha, hb⟩⟩

/-- A part of a list depends on its nodes only. -/
theorem Seg.frame {h' : Heap E} (hs : Seg h p a q) (heq : ∀ i ∈ a, h' i = h i) : Seg h' p a q := by
  induction a generalizing p with
  | nil => exact hs
  | cons i a ih =>
    obtain ⟨hp, hs⟩ := hs
    refine ⟨hp, ?_⟩
    rw [heq i List.mem_cons_self]
    exact ih hs fun j hj => heq j (List.mem_cons_of_mem _ hj)

theorem setNext_ne {j : ℕ} (hj : j ≠ i) : (h.setNext i r) j = h j := Function.update_of_ne hj _ _

theorem setNext_self : ((h.setNext i r) i).next = r := by
  unfold Heap.setNext
  rw [Function.update_self]

/-- The last node of a part is made to point elsewhere. -/
theorem Seg.setNext (hs : Seg h p (a ++ [i]) q) (hi : i ∉ a) : Seg (h.setNext i r) p (a ++ [i]) r := by
  obtain ⟨m, ha, hp, -⟩ := seg_append.1 hs
  refine seg_append.2 ⟨m, ha.frame fun j hj => setNext_ne fun h => hi (h ▸ hj), hp, ?_⟩
  exact setNext_self

theorem Seg.head_eq (hs : Seg h p a none) : p = a.head? := by
  cases a with
  | nil => exact hs
  | cons i a => exact hs.1

end

/-! ## The function -/

/-- `CHtfeStatement **` -/
inductive Link
  | null
  /-- `&m_pStatementHead` -/
  | head
  | next (i : ℕ)
  /-- The address of the parameter of a call. -/
  | param
deriving DecidableEq, Repr

/-- `m_pStatementHead`, `m_ppStatementAppendTail` and `m_ppStatementInsertTail`, with the statements. -/
structure Func (E : Type) where
  heap : Heap E
  statementHead : Option ℕ
  appendTail : Link
  insertTail : Link

namespace Func

variable (s : Func E)

/-- A function without statements. -/
def initial (h : Heap E) : Func E := ⟨h, none, .null, .null⟩

/-- Reading through a pointer; the parameter of an earlier call is gone. -/
def load : Link → Option (Option ℕ)
  | .head => some s.statementHead
  | .next i => some (s.heap i).next
  | .null | .param => none

def store (p : Option ℕ) : Link → Option (Func E)
  | .head => some { s with statementHead := p }
  | .next i => some { s with heap := s.heap.setNext i p }
  | .null | .param => none

/-- The tails of an empty list. -/
def start : Func E := if s.statementHead = none then { s with appendTail := .head, insertTail := .head } else s

/-- `Assert(*m_ppStatementAppendTail == 0)` -/
def assertEnd : Option (Func E) := (s.load s.appendTail).bind fun q => if q = none then some s else none

end Func

/-- The loop to the end of a chain. -/
def chainTail (h : Heap E) : ℕ → Link → Option ℕ → Option Link
  | 0, _, _ => none
  | _ + 1, l, none => some l
  | n + 1, _, some i => chainTail h n (.next i) (h i).next

/-- `InsertStatementList` -/
def insertStatementList (n : ℕ) (pStatement : Option ℕ) (s : Func E) : Option (Func E) :=
  if pStatement = none then some s
  else do
    let ppTail ← chainTail s.heap n .param pStatement
    let s := s.start
    if s.appendTail = s.insertTail then
      let s ← s.store pStatement s.appendTail
      let s ← s.store pStatement s.insertTail
      { s with appendTail := ppTail, insertTail := ppTail }.assertEnd
    else
      let q ← s.load s.insertTail
      let s ← s.store q ppTail
      let s ← s.store pStatement s.insertTail
      { s with insertTail := ppTail }.assertEnd

/-- `AppendStatementList` -/
def appendStatementList (n : ℕ) (pStatement : Option ℕ) (s : Func E) : Option (Func E) := do
  let ppTail ← chainTail s.heap n .param pStatement
  let s := s.start
  let s ← s.store pStatement s.appendTail
  return { s with appendTail := ppTail }

/-! ## Calls -/

inductive Kind
  | insert
  | append
deriving DecidableEq, Repr

/-- A call with the nodes of its chain. -/
structure Call where
  kind : Kind
  chain : List ℕ
deriving DecidableEq, Repr

def Call.run (n : ℕ) (c : Call) (s : Func E) : Option (Func E) :=
  match c.kind with
  | .insert => insertStatementList n c.chain.head? s
  | .append => appendStatementList n c.chain.head? s

def run (n : ℕ) : List Call → Func E → Option (Func E)
  | [], s => some s
  | c :: cs, s => (c.run n s).bind (run n cs)

/-- The nodes of the chains of one kind, in call order. -/
def chains (k : Kind) (cs : List Call) : List ℕ := (cs.filter (·.kind = k)).flatMap (·.chain)

/-- An empty chain that is appended to a list with statements is not followed by a call that needs the tail. -/
def Safe : Bool → List Call → Prop
  | _, [] => True
  | listed, c :: cs =>
    if c = ⟨.append, []⟩ ∧ listed then ∀ d ∈ cs, d = ⟨.insert, []⟩ else Safe (listed || !c.chain.isEmpty) cs

/-- The pointer behind the last of the nodes. -/
def tailLink (ids : List ℕ) : Link := (ids.getLast?.map .next).getD .head

/-- The list of `ins` and `app`, and its tails. An empty list has no tails yet. -/
structure Inv (s : Func E) (ins app : List ℕ) : Prop where
  list : Seg s.heap s.statementHead (ins ++ app) none
  insertTail : ins ++ app ≠ [] → s.insertTail = tailLink ins
  appendTail : ins ++ app ≠ [] → s.appendTail = tailLink (ins ++ app)

section

variable {s s' : Func E} {a b c ins app : List ℕ} {p q r : Option ℕ} {n : ℕ}

theorem tailLink_append (hb : b ≠ []) : tailLink (a ++ b) = tailLink b := by
  unfold tailLink
  rw [List.getLast?_append_of_ne_nil a hb]

theorem tailLink_concat (a : List ℕ) (i : ℕ) : tailLink (a ++ [i]) = .next i := by
  unfold tailLink
  rw [List.getLast?_concat]
  rfl

/-- Different nodes have different tails. -/
theorem tailLink_ne (hnd : (a ++ b).Nodup) (hb : b ≠ []) : tailLink (a ++ b) ≠ tailLink a := by
  obtain ⟨b, i, rfl⟩ := (List.eq_nil_or_concat' b).resolve_left hb
  rw [← List.append_assoc, tailLink_concat]
  rcases List.eq_nil_or_concat' a with rfl | ⟨a, j, rfl⟩
  · exact fun h => Link.noConfusion h
  · rw [tailLink_concat]
    intro h
    obtain rfl := Link.next.inj h
    have hi : i ∈ a ++ [i] := List.mem_append_right _ List.mem_cons_self
    exact (List.disjoint_of_nodup_append hnd) hi (List.mem_append_right _ List.mem_cons_self)

/-- The tail of a part is what follows it. -/
theorem load_tail (hs : Seg s.heap s.statementHead a r) : s.load (tailLink a) = some r := by
  rcases List.eq_nil_or_concat' a with rfl | ⟨a, i, rfl⟩
  · exact congrArg some hs
  · obtain ⟨m, -, hm⟩ := seg_append.1 hs
    rw [tailLink_concat]
    exact congrArg some hm.2

/-- **Writing the tail of a part** gives it another end, and changes no other node. -/
theorem store_tail (hs : Seg s.heap s.statementHead a r) (hnd : a.Nodup) (p : Option ℕ) :
    ∃ s', s.store p (tailLink a) = some s' ∧ Seg s'.heap s'.statementHead a p ∧ (∀ j ∉ a, s'.heap j = s.heap j) ∧
      s'.insertTail = s.insertTail ∧ s'.appendTail = s.appendTail := by
  rcases List.eq_nil_or_concat' a with rfl | ⟨a, i, rfl⟩
  · exact ⟨_, rfl, rfl, fun _ _ => rfl, rfl, rfl⟩
  · rw [tailLink_concat]
    refine ⟨_, rfl, hs.setNext ?_, fun j hj => setNext_ne ?_, rfl, rfl⟩
    · exact fun hi => (List.disjoint_of_nodup_append hnd) hi List.mem_cons_self
    · exact fun h => hj (h ▸ List.mem_append_right _ List.mem_cons_self)

theorem chainTail_eq (hs : Seg s.heap p c none) (hn : c.length < n) (l : Link) :
    chainTail s.heap n l p = some ((c.getLast?.map .next).getD l) := by
  induction c generalizing p n l with
  | nil =>
    obtain ⟨n, rfl⟩ : ∃ m, n = m + 1 := ⟨n - 1, by omega⟩
    rw [show p = none from hs]
    rfl
  | cons i c ih =>
    obtain ⟨n, rfl⟩ : ∃ m, n = m + 1 := ⟨n - 1, by omega⟩
    obtain ⟨rfl, hs⟩ := hs
    rw [List.length_cons] at hn
    rw [chainTail, ih hs (by omega)]
    cases c with
    | nil => rfl
    | cons j c =>
      rw [List.getLast?_cons_cons, List.getLast?_eq_getLast_of_ne_nil (List.cons_ne_nil j c)]
      rfl

theorem chainTail_of_ne (hs : Seg s.heap p c none) (hn : c.length < n) (hc : c ≠ []) :
    chainTail s.heap n .param p = some (tailLink c) := by
  rw [chainTail_eq hs hn]
  unfold tailLink
  rw [List.getLast?_eq_getLast_of_ne_nil hc]
  rfl

/-- The tails are set when a list is started. -/
theorem Inv.start (hi : Inv s ins app) : s.start.heap = s.heap ∧ s.start.statementHead = s.statementHead ∧
    s.start.insertTail = tailLink ins ∧ s.start.appendTail = tailLink (ins ++ app) := by
  have hhead := hi.list.head_eq
  unfold Func.start
  split
  · rename_i hnone
    rw [hnone] at hhead
    have hnil : ins ++ app = [] := List.head?_eq_none_iff.1 hhead.symm
    rw [hnil, (List.append_eq_nil_iff.1 hnil).1]
    exact ⟨rfl, rfl, rfl, rfl⟩
  · rename_i hsome
    have hne : ins ++ app ≠ [] := fun h => hsome (by rw [hhead, h]; rfl)
    exact ⟨rfl, rfl, hi.insertTail hne, hi.appendTail hne⟩

theorem assertEnd_eq (hs : Seg s.heap s.statementHead a none) (ht : s.appendTail = tailLink a) :
    s.assertEnd = some s := by
  unfold Func.assertEnd
  rw [ht, load_tail hs, Option.bind_some, if_pos rfl]

/-- What a call with a chain of `len` nodes leaves: the new list, and every other node as it was. -/
def Leaves (s : Func E) (call : ℕ → Option (Func E)) (len : ℕ) (nodes ins app : List ℕ) : Prop :=
  ∃ s', (∀ n, len < n → call n = some s') ∧ Inv s' ins app ∧ ∀ j ∉ nodes, s'.heap j = s.heap j

/-- **The first insertions** go to the end of the list. -/
theorem Inv.insert_only (hi : Inv s ins []) (hs : Seg s.heap c.head? c none) (hnd : (ins ++ c).Nodup)
    (hc : c ≠ []) : Leaves s (fun n => insertStatementList n c.head? s) c.length (ins ++ c) (ins ++ c) [] := by
  obtain ⟨hheap, hhead, hins, happ⟩ := hi.start
  have hdis := List.disjoint_of_nodup_append hnd
  have hndi : ins.Nodup := (List.nodup_append.1 hnd).1
  have hlist : Seg s.start.heap s.start.statementHead ins none := by
    have h := hi.list
    rw [List.append_nil] at h
    rw [hheap, hhead]
    exact h
  obtain ⟨s₁, hstore₁, hseg₁, hframe₁, hins₁, happ₁⟩ := store_tail hlist hndi c.head?
  obtain ⟨s₂, hstore₂, hseg₂, hframe₂, -, -⟩ := store_tail hseg₁ hndi c.head?
  have hframe : ∀ j ∉ ins, s₂.heap j = s.heap j := fun j hj => by
    rw [hframe₂ j hj, hframe₁ j hj, hheap]
  have hall : Seg s₂.heap s₂.statementHead (ins ++ c) none :=
    seg_append.2 ⟨c.head?, hseg₂, hs.frame fun j hj => hframe j fun h => hdis h hj⟩
  have htail : tailLink (ins ++ c) = tailLink c := tailLink_append hc
  refine ⟨{ s₂ with appendTail := tailLink c, insertTail := tailLink c }, fun n hn => ?_, ⟨?_, ?_, ?_⟩, ?_⟩
  · have hne : ¬c.head? = none := fun h => hc (List.head?_eq_none_iff.1 h)
    have heq : s.start.appendTail = s.start.insertTail := by rw [happ, hins, List.append_nil]
    dsimp only
    unfold insertStatementList
    rw [if_neg hne, chainTail_of_ne hs hn hc]
    simp only [Option.bind_eq_bind, Option.bind_some]
    rw [if_pos heq, heq, hins, hstore₁, Option.bind_some, hins₁, hins, hstore₂, Option.bind_some]
    exact assertEnd_eq hall htail.symm
  · rw [List.append_nil]
    exact hall
  · exact fun _ => htail.symm
  · rw [List.append_nil]
    exact fun _ => htail.symm
  · exact fun j hj => hframe j fun h => hj (List.mem_append_left _ h)

/-- **Later insertions** go between the inserted and the appended chains. -/
theorem Inv.insert_between (hi : Inv s ins app) (hs : Seg s.heap c.head? c none) (hnd : (ins ++ c ++ app).Nodup)
    (hc : c ≠ []) (happne : app ≠ []) :
    Leaves s (fun n => insertStatementList n c.head? s) c.length (ins ++ c) (ins ++ c) app := by
  obtain ⟨hheap, hhead, hins, happ⟩ := hi.start
  obtain ⟨c, k, rfl⟩ := (List.eq_nil_or_concat' c).resolve_left hc
  have hdis : List.Disjoint (ins ++ (c ++ [k])) app := List.disjoint_of_nodup_append hnd
  have hndic : (ins ++ (c ++ [k])).Nodup := (List.nodup_append.1 hnd).1
  have hdisc : List.Disjoint ins (c ++ [k]) := List.disjoint_of_nodup_append hndic
  have hkmem : k ∈ c ++ [k] := List.mem_append_right _ List.mem_cons_self
  have hkc : k ∉ c := fun h =>
    (List.disjoint_of_nodup_append (List.nodup_append.1 hndic).2.1) h List.mem_cons_self
  obtain ⟨r, hsegi, hsega⟩ := seg_append.1 hi.list
  -- the chain is made to point to what follows the inserted ones
  obtain ⟨s₁, hstore₁, hheap₁, hhead₁, hins₁, happ₁⟩ : ∃ s₁ : Func E, s.start.store r (.next k) = some s₁ ∧
      s₁.heap = s.heap.setNext k r ∧ s₁.statementHead = s.statementHead ∧ s₁.insertTail = tailLink ins ∧
      s₁.appendTail = tailLink (ins ++ app) := by
    refine ⟨_, rfl, ?_, hhead, hins, happ⟩
    rw [← hheap]
  have hsegi₁ : Seg (s.heap.setNext k r) s.statementHead ins r :=
    hsegi.frame fun j hj => setNext_ne fun h => hdisc hj (h ▸ hkmem)
  have hsega₁ : Seg (s.heap.setNext k r) r app none :=
    hsega.frame fun j hj => setNext_ne fun h => hdis (List.mem_append_right _ (h ▸ hkmem)) hj
  have hsegc₁ : Seg (s.heap.setNext k r) (c ++ [k]).head? (c ++ [k]) r := hs.setNext hkc
  have hlist₁ : Seg s₁.heap s₁.statementHead ins r := by
    rw [hheap₁, hhead₁]
    exact hsegi₁
  obtain ⟨s₂, hstore₂, hseg₂, hframe₂, -, happ₂⟩ :=
    store_tail hlist₁ (List.nodup_append.1 hndic).1 (c ++ [k]).head?
  rw [hheap₁] at hframe₂
  have hall : Seg s₂.heap s₂.statementHead (ins ++ (c ++ [k]) ++ app) none := by
    refine seg_append.2 ⟨r, seg_append.2 ⟨_, hseg₂, ?_⟩, ?_⟩
    · exact hsegc₁.frame fun j hj => hframe₂ j fun h => hdisc h hj
    · exact hsega₁.frame fun j hj => hframe₂ j fun h => hdis (List.mem_append_left _ h) hj
  have htail : tailLink (ins ++ (c ++ [k]) ++ app) = tailLink (ins ++ app) := by
    rw [tailLink_append happne, tailLink_append happne]
  have hctail : tailLink (ins ++ (c ++ [k])) = .next k := by
    rw [← List.append_assoc, tailLink_concat]
  have happ₂' : s₂.appendTail = tailLink (ins ++ app) := happ₂.trans happ₁
  refine ⟨{ s₂ with insertTail := .next k }, fun n hn => ?_, ⟨hall, fun _ => hctail.symm, fun _ => ?_⟩, ?_⟩
  · have hne : ¬(c ++ [k]).head? = none := fun h => hc (List.head?_eq_none_iff.1 h)
    have hndia : (ins ++ app).Nodup :=
      hnd.sublist ((List.sublist_append_left ins (c ++ [k])).append_right app)
    have hneq : ¬s.start.appendTail = s.start.insertTail := by
      rw [happ, hins]
      exact tailLink_ne hndia happne
    have hload : s.start.load (tailLink ins) = some r := load_tail (by rw [hheap, hhead]; exact hsegi)
    dsimp only
    unfold insertStatementList
    rw [if_neg hne, chainTail_of_ne hs hn hc, tailLink_concat]
    simp only [Option.bind_eq_bind, Option.bind_some]
    rw [if_neg hneq, hins, hload, Option.bind_some, hstore₁, Option.bind_some, hins₁, hstore₂, Option.bind_some]
    exact assertEnd_eq hall (happ₂'.trans htail.symm)
  · exact happ₂'.trans htail.symm
  · intro j hj
    have hji : j ∉ ins := fun h => hj (List.mem_append_left _ h)
    have hjk : j ≠ k := fun h => hj (List.mem_append_right _ (h ▸ hkmem))
    rw [hframe₂ j hji]
    exact setNext_ne hjk

/-- **Appended chains** go to the end of the list. -/
theorem Inv.append (hi : Inv s ins app) (hs : Seg s.heap c.head? c none) (hnd : (ins ++ app ++ c).Nodup)
    (hc : c ≠ [] ∨ ins ++ app = []) :
    Leaves s (fun n => appendStatementList n c.head? s) c.length (ins ++ app) ins (app ++ c) := by
  obtain ⟨hheap, hhead, hins, happ⟩ := hi.start
  have hdis := List.disjoint_of_nodup_append hnd
  have hlist : Seg s.start.heap s.start.statementHead (ins ++ app) none := by
    rw [hheap, hhead]
    exact hi.list
  obtain ⟨s₁, hstore, hseg, hframe, hins₁, -⟩ := store_tail hlist (List.nodup_append.1 hnd).1 c.head?
  rw [hheap] at hframe
  have hall : Seg s₁.heap s₁.statementHead (ins ++ (app ++ c)) none := by
    rw [← List.append_assoc]
    exact seg_append.2 ⟨c.head?, hseg, hs.frame fun j hj => hframe j fun h => hdis h hj⟩
  refine ⟨{ s₁ with appendTail := (c.getLast?.map .next).getD .param }, fun n hn => ?_,
    ⟨hall, fun _ => ?_, fun hne => ?_⟩, hframe⟩
  · dsimp only
    unfold appendStatementList
    rw [chainTail_eq hs hn]
    simp only [Option.bind_eq_bind, Option.bind_some]
    rw [happ, hstore]
    rfl
  · exact hins₁.trans hins
  · rcases hc with hc | hnil
    · rw [← List.append_assoc, tailLink_append hc]
      unfold tailLink
      rw [List.getLast?_eq_getLast_of_ne_nil hc]
      rfl
    · rw [← List.append_assoc, hnil, List.nil_append] at hne ⊢
      unfold tailLink
      rw [List.getLast?_eq_getLast_of_ne_nil hne]
      rfl

theorem Inv.insert (hi : Inv s ins app) (hs : Seg s.heap c.head? c none) (hnd : (ins ++ c ++ app).Nodup) :
    Leaves s (fun n => insertStatementList n c.head? s) c.length (ins ++ c) (ins ++ c) app := by
  by_cases hc : c = []
  · rw [hc, List.append_nil]
    exact ⟨s, fun n _ => rfl, hi, fun _ _ => rfl⟩
  · cases app with
    | nil =>
      rw [List.append_nil] at hnd
      exact hi.insert_only hs hnd hc
    | cons j app => exact hi.insert_between hs hnd hc (List.cons_ne_nil j app)

/-! ## The lost tail -/

/-- The tail of a list with statements is in a call that is over. -/
structure Lost (s : Func E) (ids : List ℕ) : Prop where
  list : Seg s.heap s.statementHead ids none
  ne_nil : ids ≠ []
  appendTail : s.appendTail = .param
  insertTail : s.insertTail ≠ .param

/-- **An empty chain appended to a list with statements** leaves a tail in the parameter. -/
theorem Inv.append_nil (hi : Inv s ins app) (hne : ins ++ app ≠ []) (hnd : (ins ++ app).Nodup) :
    ∃ s', (∀ n, 0 < n → appendStatementList n none s = some s') ∧ Lost s' (ins ++ app) := by
  obtain ⟨hheap, hhead, hins, happ⟩ := hi.start
  have hlist : Seg s.start.heap s.start.statementHead (ins ++ app) none := by
    rw [hheap, hhead]
    exact hi.list
  obtain ⟨s₁, hstore, hseg, -, hins₁, -⟩ := store_tail hlist hnd none
  refine ⟨{ s₁ with appendTail := .param }, fun n hn => ?_, hseg, hne, rfl, ?_⟩
  · have htail : chainTail s.heap n .param none = some .param := by
      obtain ⟨n, rfl⟩ : ∃ m, n = m + 1 := ⟨n - 1, by omega⟩
      rfl
    unfold appendStatementList
    rw [htail]
    simp only [Option.bind_eq_bind, Option.bind_some]
    rw [happ, hstore]
    rfl
  · change s₁.insertTail ≠ .param
    rw [hins₁, hins]
    unfold tailLink
    cases ins.getLast? with
    | none => exact fun h => Link.noConfusion h
    | some i => exact fun h => Link.noConfusion h

theorem Lost.start {ids : List ℕ} (h : Lost s ids) : s.start = s := by
  unfold Func.start
  rw [if_neg]
  rw [h.list.head_eq]
  exact fun hnone => h.ne_nil (List.head?_eq_none_iff.1 hnone)

theorem store_tails {l : Link} (h : s.store p l = some s') :
    s'.appendTail = s.appendTail ∧ s'.insertTail = s.insertTail := by
  cases l with
  | head =>
    cases h
    exact ⟨rfl, rfl⟩
  | next i =>
    cases h
    exact ⟨rfl, rfl⟩
  | null => cases h
  | param => cases h

theorem assertEnd_param (h : s.appendTail = .param) : s.assertEnd = none := by
  unfold Func.assertEnd
  rw [h]
  rfl

/-- **No call that needs the tail goes on.** -/
theorem Lost.stuck {ids : List ℕ} (h : Lost s ids) {c : Call} (hc : c ≠ ⟨.insert, []⟩) : c.run n s = none := by
  obtain ⟨kind, chain⟩ := c
  cases kind with
  | insert =>
    have hne : ¬chain.head? = none := by
      intro hnil
      rw [List.head?_eq_none_iff.1 hnil] at hc
      exact hc rfl
    have htails : ¬s.appendTail = s.insertTail := by
      rw [h.appendTail]
      exact fun h' => h.insertTail h'.symm
    change insertStatementList n chain.head? s = none
    unfold insertStatementList
    rw [if_neg hne, h.start]
    simp only [htails, if_false, Option.bind_eq_bind, Option.bind_eq_none_iff]
    -- whatever the chain is joined to, the assertion reads the tail
    intro ppTail _ q _ s₁ hs₁ s₂ hs₂
    apply assertEnd_param
    exact (store_tails hs₂).1.trans ((store_tails hs₁).1.trans h.appendTail)
  | append =>
    change appendStatementList n chain.head? s = none
    unfold appendStatementList
    rw [h.start]
    simp only [h.appendTail, Option.bind_eq_bind, Option.bind_eq_none_iff]
    intro ppTail _ s₁ hs₁
    cases hs₁

/-- After the tail is lost only insertions of nothing return. -/
theorem Lost.of_returns {ids : List ℕ} (h : Lost s ids) {cs : List Call} (hr : Returns (fun n => run n cs s) s') :
    ∀ d ∈ cs, d = ⟨.insert, []⟩ := by
  obtain ⟨N, hN⟩ := hr
  have hrun : run N cs s = some s' := hN N (Nat.le_refl N)
  clear hN
  induction cs with
  | nil => exact fun d hd => (List.not_mem_nil hd).elim
  | cons c cs ih =>
    by_cases hc : c = ⟨.insert, []⟩
    · rw [hc] at hrun
      exact List.forall_mem_cons.2 ⟨hc, ih hrun⟩
    · rw [run, h.stuck hc] at hrun
      cases hrun

/-- Insertions of nothing change nothing. -/
theorem run_nothing {cs : List Call} (hall : ∀ d ∈ cs, d = ⟨.insert, []⟩) (n : ℕ) (s : Func E) :
    run n cs s = some s := by
  induction cs with
  | nil => rfl
  | cons c cs ih =>
    rw [hall c List.mem_cons_self]
    exact ih fun d hd => hall d (List.mem_cons_of_mem _ hd)

theorem chains_nothing {cs : List Call} (hall : ∀ d ∈ cs, d = ⟨.insert, []⟩) (k : Kind) : chains k cs = [] := by
  refine List.flatMap_eq_nil_iff.2 fun c hc => ?_
  rw [hall c (List.mem_filter.1 hc).1]

end

/-! ## Any calls -/

section

variable {s : Func E} {ins app : List ℕ} {cs : List Call} {c : Call}

/-- The calls give the list `ids`. -/
def Gives (s : Func E) (cs : List Call) (ids : List ℕ) : Prop :=
  ∃ s', Returns (fun n => run n cs s) s' ∧ Seg s'.heap s'.statementHead ids none

/-- A call that returns, and the calls after it. -/
theorem gives_cons {s' : Func E} {N : ℕ} (hc : ∀ n, N ≤ n → c.run n s = some s') (ids : List ℕ) :
    Gives s (c :: cs) ids ↔ Gives s' cs ids := by
  have hrun : ∃ N, ∀ n, N ≤ n → run n (c :: cs) s = run n cs s' :=
    ⟨N, fun n hn => by rw [run, hc n hn, Option.bind_some]⟩
  have hrun' : ∃ N, ∀ n, N ≤ n → run n cs s' = run n (c :: cs) s := hrun.imp fun N h n hn => (h n hn).symm
  constructor
  · rintro ⟨s'', h, hseg⟩
    exact ⟨s'', h.congr hrun', hseg⟩
  · rintro ⟨s'', h, hseg⟩
    exact ⟨s'', h.congr hrun, hseg⟩

theorem safe_cons {listed : Bool} (h : ¬(c = ⟨.append, []⟩ ∧ listed = true)) :
    Safe listed (c :: cs) ↔ Safe (listed || !c.chain.isEmpty) cs := by
  rw [Safe, if_neg h]

/-- The nodes of all chains. -/
def nodes (cs : List Call) : List ℕ := cs.flatMap (·.chain)

/-- **Any calls**: the list is what was inserted before and what was appended, if and only if no call needs a lost
tail. -/
theorem gives_iff (hi : Inv s ins app) (hs : ∀ c ∈ cs, Seg s.heap c.chain.head? c.chain none)
    (hnd : (ins ++ app ++ nodes cs).Nodup) :
    Gives s cs (ins ++ chains .insert cs ++ (app ++ chains .append cs)) ↔ Safe (!(ins ++ app).isEmpty) cs := by
  induction cs generalizing s ins app with
  | nil =>
    refine iff_of_true ⟨s, ⟨0, fun n _ => rfl⟩, ?_⟩ trivial
    simpa [chains] using hi.list
  | cons c cs ih =>
    obtain ⟨kind, chain⟩ := c
    have hchain : Seg s.heap chain.head? chain none := hs _ List.mem_cons_self
    have hrest : ∀ d ∈ cs, Seg s.heap d.chain.head? d.chain none := fun d hd => hs d (List.mem_cons_of_mem _ hd)
    have hnodes : nodes (⟨kind, chain⟩ :: cs) = chain ++ nodes cs := rfl
    rw [hnodes] at hnd
    have hapart : List.Disjoint chain (nodes cs) :=
      List.disjoint_of_nodup_append (List.nodup_append.1 hnd).2.1
    have hall : List.Disjoint (ins ++ app) (chain ++ nodes cs) := List.disjoint_of_nodup_append hnd
    -- a call that leaves the chains of the later calls alone
    have step : ∀ {part ins' app' : List ℕ},
        Leaves s (fun n => Call.run n ⟨kind, chain⟩ s) chain.length part ins' app' →
        (∀ j ∈ part, j ∈ ins ++ app ++ chain) → (ins' ++ app').Perm (ins ++ app ++ chain) →
        (Gives s (⟨kind, chain⟩ :: cs) (ins' ++ chains .insert cs ++ (app' ++ chains .append cs)) ↔
          Safe (!(ins' ++ app').isEmpty) cs) := by
      rintro part ins' app' ⟨s', hrun, hi', hframe⟩ hpart hperm
      have hlater : ∀ d ∈ cs, Seg s'.heap d.chain.head? d.chain none := by
        intro d hd
        refine (hrest d hd).frame fun j hj => hframe j fun hjp => ?_
        have hjn : j ∈ nodes cs := List.mem_flatMap.2 ⟨d, hd, hj⟩
        rcases List.mem_append.1 (hpart j hjp) with h | h
        · exact hall h (List.mem_append_right _ hjn)
        · exact hapart h hjn
      have hnd' : (ins' ++ app' ++ nodes cs).Nodup := by
        refine (hperm.append_right (nodes cs)).nodup_iff.2 ?_
        rw [List.append_assoc]
        exact hnd
      rw [gives_cons hrun]
      exact ih hi' hlater hnd'
    cases kind with
    | insert =>
      have hperm : (ins ++ chain ++ app).Perm (ins ++ app ++ chain) :=
        List.perm_iff_count.2 fun x => by
          simp only [List.count_append]
          omega
      have hnd' : (ins ++ chain ++ app).Nodup := by
        rw [← List.append_assoc] at hnd
        exact hperm.nodup_iff.2 (List.nodup_append.1 hnd).1
      have hlisted : (!(ins ++ app).isEmpty || !chain.isEmpty) = !(ins ++ chain ++ app).isEmpty := by
        cases ins <;> cases app <;> cases chain <;> rfl
      have hchains : chains .insert (⟨.insert, chain⟩ :: cs) = chain ++ chains .insert cs := rfl
      have hchains' : chains .append (⟨.insert, chain⟩ :: cs) = chains .append cs := rfl
      have hkind : ¬((⟨.insert, chain⟩ : Call) = ⟨.append, []⟩ ∧ (!(ins ++ app).isEmpty) = true) :=
        fun h => Kind.noConfusion (Call.mk.inj h.1).1
      rw [safe_cons hkind, hlisted, hchains, hchains', ← List.append_assoc ins chain]
      refine step (hi.insert hchain hnd') (fun j hj => ?_) hperm
      simp only [List.mem_append] at hj ⊢
      exact hj.imp_left .inl
    | append =>
      have hchains : chains .insert (⟨.append, chain⟩ :: cs) = chains .insert cs := rfl
      have hchains' : chains .append (⟨.append, chain⟩ :: cs) = chain ++ chains .append cs := rfl
      rw [hchains, hchains']
      by_cases hlost : chain = [] ∧ ins ++ app ≠ []
      · obtain ⟨rfl, hne⟩ := hlost
        obtain ⟨s', hrun, hl⟩ := hi.append_nil hne (List.nodup_append.1 hnd).1
        have hcond : (⟨.append, []⟩ : Call) = ⟨.append, []⟩ ∧ (!(ins ++ app).isEmpty) = true :=
          ⟨rfl, by simpa using hne⟩
        have hcall : ∀ n, 1 ≤ n → (⟨.append, []⟩ : Call).run n s = some s' := fun n hn => hrun n hn
        rw [Safe, if_pos hcond, gives_cons hcall]
        constructor
        · rintro ⟨s'', hret, -⟩
          exact hl.of_returns hret
        · intro hall
          refine ⟨s', ⟨0, fun n _ => run_nothing hall n s'⟩, ?_⟩
          rw [chains_nothing hall, chains_nothing hall, List.append_nil, List.append_nil, List.append_nil]
          exact hl.list
      · have hc : chain ≠ [] ∨ ins ++ app = [] := by
          by_cases hnil : chain = []
          · exact Or.inr (not_not.1 fun h => hlost ⟨hnil, h⟩)
          · exact Or.inl hnil
        have hkind : ¬((⟨.append, chain⟩ : Call) = ⟨.append, []⟩ ∧ (!(ins ++ app).isEmpty) = true) := by
          rintro ⟨hcall, hlisted⟩
          rcases hc with hc | hc
          · exact hc (Call.mk.inj hcall).2
          · rw [hc] at hlisted
            cases hlisted
        have hlisted : (!(ins ++ app).isEmpty || !chain.isEmpty) = !(ins ++ (app ++ chain)).isEmpty := by
          cases ins <;> cases app <;> cases chain <;> rfl
        have hnd' : (ins ++ app ++ chain).Nodup := by
          rw [← List.append_assoc] at hnd
          exact (List.nodup_append.1 hnd).1
        rw [safe_cons hkind, hlisted, ← List.append_assoc app]
        refine step (hi.append hchain hnd' hc) (fun j hj => List.mem_append_left _ hj) ?_
        rw [List.append_assoc]

end

/-- **Inserted statements precede appended ones**, and no statement is lost or repeated: the calls on a function
without statements return, and its list is as it should be. -/
def Ordered (h : Heap E) (cs : List Call) : Prop :=
  Gives (.initial h) cs (chains .insert cs ++ chains .append cs)

/-- **Exactly when the lost tail is not needed** the list is in order: for chains of different statements, no empty
chain is appended to a list with statements before a call other than an insertion of nothing. -/
theorem ordered_iff {h : Heap E} {cs : List Call} (hs : ∀ c ∈ cs, Seg h c.chain.head? c.chain none)
    (hnd : (nodes cs).Nodup) : Ordered h cs ↔ Safe false cs := by
  have hi : Inv (.initial h) [] [] := ⟨rfl, fun hne => (hne rfl).elim, fun hne => (hne rfl).elim⟩
  have hcalls := gives_iff hi hs hnd
  rwa [List.nil_append, List.nil_append] at hcalls

/-- Statement 1 goes on to 2, the others end their chains. -/
def demoHeap : Heap Unit := fun i => ⟨.stNull, none, none, none, if i = 1 then some 2 else none⟩

def demoCalls : List Call :=
  [⟨.append, [0]⟩, ⟨.insert, [1, 2]⟩, ⟨.append, [3]⟩, ⟨.insert, []⟩, ⟨.insert, [4]⟩, ⟨.append, []⟩]

theorem demoHeap_chain (c : List ℕ) (hc : c ∈ [[0], [1, 2], [3], [], [4], []]) :
    Seg demoHeap c.head? c none := by
  simp only [List.mem_cons, List.not_mem_nil, or_false] at hc
  rcases hc with rfl | rfl | rfl | rfl | rfl | rfl <;> simp [Seg, demoHeap]

theorem ordered_iff_demo : Ordered demoHeap demoCalls ↔ Safe false demoCalls := by
  refine ordered_iff (fun c hc => demoHeap_chain c.chain ?_) (by decide)
  exact List.mem_map_of_mem (f := Call.chain) hc

/-- **The statements after an empty chain are lost**: with a statement in the list, an empty body is appended and
then another statement. -/
theorem append_nil_lost : ¬∀ (h : Heap Unit) (cs : List Call), (∀ c ∈ cs, Seg h c.chain.head? c.chain none) →
    (nodes cs).Nodup → Ordered h cs := by
  intro hall
  have hchains : ∀ c ∈ ([⟨.insert, [0]⟩, ⟨.append, []⟩, ⟨.append, [3]⟩] : List Call),
      Seg demoHeap c.chain.head? c.chain none := by
    intro c hc
    apply demoHeap_chain
    simp only [List.mem_cons, List.not_mem_nil, or_false] at hc
    rcases hc with rfl | rfl | rfl <;> decide
  obtain ⟨s', ⟨N, hN⟩, -⟩ := hall demoHeap _ hchains (by decide)
  -- the second call returns with the tail in its parameter, the third one writes there
  have hnone : ∀ n, run n [⟨.insert, [0]⟩, ⟨.append, []⟩, ⟨.append, [3]⟩] (.initial demoHeap) = none := by
    intro n
    rcases n with - | - | n <;> rfl
  have hrun := (hnone N).symm.trans (hN N (Nat.le_refl N))
  cases hrun

end OpenHT.Htfe.FuncList
