import Mathlib.Logic.Function.Basic
import OpenHT.Lib.Fuel

/-!
# Statement lists

Statements are nodes that point to the next one and to two lists of their own. Lists are changed in place, and may
come to share their tails.

* `CHtfeStatement`, `Heap`, `Slot`: the nodes, and the pointers to pointers that the rewriting passes use.
* `Stmts`, `Holds`: a list as a tree with the addresses of its nodes, and that it is in the heap.
* `isEmbedded`, `firstIf`, `lastSlot`, `appendPost`: the loops that the passes share, with what they find in a list.
-/

namespace OpenHT.Htfe

open Fuel

/-- `EStType` -/
inductive EStType
  | stNull | stReturn | stAssign | stIf | stSwitch | stCase | stDefault | stBreak | stCompound
deriving DecidableEq, Repr

/-- `CHtfeStatement`, with expressions of type `E`. -/
structure CHtfeStatement (E : Type) where
  stType : EStType
  expr : Option E
  compound1 : Option ℕ
  compound2 : Option ℕ
  next : Option ℕ

abbrev Heap (E : Type) := ℕ → CHtfeStatement E

/-- `CHtfeStatement **`: a pointer in a statement. -/
inductive Slot
  | compound1 (i : ℕ)
  | compound2 (i : ℕ)
  | next (i : ℕ)
deriving DecidableEq

/-- The statement that the pointer is in. -/
def Slot.owner : Slot → ℕ
  | compound1 i | compound2 i | next i => i

/-- The statements that control leaves a list by. -/
inductive Jump
  | ret
  | brk
deriving DecidableEq, Repr

def Jump.stType : Jump → EStType
  | ret => .stReturn
  | brk => .stBreak

variable {E : Type}

namespace Heap

/-- `SetNext` -/
def setNext (h : Heap E) (i : ℕ) (p : Option ℕ) : Heap E := Function.update h i { h i with next := p }

def get (h : Heap E) : Slot → Option ℕ
  | .compound1 i => (h i).compound1
  | .compound2 i => (h i).compound2
  | .next i => (h i).next

def set (h : Heap E) (slot : Slot) (p : Option ℕ) : Heap E :=
  match slot with
  | .compound1 i => Function.update h i { h i with compound1 := p }
  | .compound2 i => Function.update h i { h i with compound2 := p }
  | .next i => h.setNext i p

/-- `||` -/
def orElse (x y : Option Bool) : Option Bool := x >>= fun b => if b then some true else y

/-- `IsEmbeddedReturnStatement` and `IsEmbeddedBreakStatement`: a jump in a list or in a branch of its ifs. -/
def isEmbedded (j : Jump) : ℕ → Heap E → Option ℕ → Option Bool
  | 0, _, _ => none
  | _ + 1, _, none => some false
  | n + 1, h, some i =>
    match (h i).stType with
    | .stAssign | .stSwitch => isEmbedded j n h (h i).next
    | .stIf =>
      orElse (orElse (isEmbedded j n h (h i).compound1) (isEmbedded j n h (h i).compound2))
        (isEmbedded j n h (h i).next)
    | t => if t = j.stType then some true else none

/-- A jump in a branch of an if. -/
def branchJumps (j : Jump) (n : ℕ) (h : Heap E) (i : ℕ) : Option Bool :=
  orElse (isEmbedded j n h (h i).compound1) (isEmbedded j n h (h i).compound2)

/-- The loops that look for the first if with an embedded jump. -/
def firstIf (j : Jump) : ℕ → Heap E → Option ℕ → Option (Option ℕ)
  | 0, _, _ => none
  | _ + 1, _, none => some none
  | n + 1, h, some i =>
    if (h i).stType = .stIf then
      branchJumps j n h i >>= fun b => if b then some (some i) else firstIf j n h (h i).next
    else firstIf j n h (h i).next

/-- `ppTail`: the pointer to the last statement of a list. -/
def lastSlot : ℕ → Heap E → Slot → Option Slot
  | 0, _, _ => none
  | n + 1, h, slot =>
    match h.get slot with
    | none => some slot
    | some i => if (h i).next.isSome then lastSlot n h (.next i) else some slot

end Heap

/-! ## Lists as trees -/

/-- A statement list: its statements in order, each with the address of its node. -/
inductive Stmts (E : Type)
  | nil
  | assign (i : ℕ) (e : E) (l : Stmts E)
  | jump (i : ℕ) (e : Option E) (l : Stmts E)
  | ite (i : ℕ) (e : E) (a b l : Stmts E)
deriving DecidableEq, Repr

namespace Stmts

/-- The address of the first statement. -/
def first : Stmts E → Option ℕ
  | nil => none
  | assign i _ _ | jump i _ _ | ite i _ _ _ _ => some i

attribute [local simp] Stmts.first

/-- The addresses of a list and of the branches in it. -/
def ids : Stmts E → List ℕ
  | nil => []
  | assign i _ l | jump i _ l => i :: l.ids
  | ite i _ a b l => i :: (a.ids ++ b.ids ++ l.ids)

def append : Stmts E → Stmts E → Stmts E
  | nil, k => k
  | assign i e l, k => assign i e (l.append k)
  | jump i e l, k => jump i e (l.append k)
  | ite i e a b l, k => ite i e a b (l.append k)

def hasJump : Stmts E → Bool
  | nil => false
  | assign _ _ l => l.hasJump
  | jump _ _ _ => true
  | ite _ _ a b l => a.hasJump || b.hasJump || l.hasJump

/-- The list from its first if with an embedded jump on. -/
def fromIf : Stmts E → Stmts E
  | nil => nil
  | assign _ _ l | jump _ _ l => l.fromIf
  | ite i e a b l => if a.hasJump || b.hasJump then ite i e a b l else l.fromIf

/-- The address of the last statement. -/
def last : Stmts E → Option ℕ
  | nil => none
  | assign i _ l | jump i _ l | ite i _ _ _ l => some (l.last.getD i)

/-- The list ends in a jump. -/
def endsInJump : Stmts E → Bool
  | nil => false
  | jump _ _ nil => true
  | assign _ _ l | jump _ _ l | ite _ _ _ _ l => l.endsInJump

/-- The list is in the heap, with jumps of one kind. -/
def Holds (j : Jump) (h : Heap E) : Stmts E → Prop
  | nil => True
  | assign i e l => h i = ⟨.stAssign, some e, none, none, l.first⟩ ∧ l.Holds j h
  | jump i e l => h i = ⟨j.stType, e, none, none, l.first⟩ ∧ l.Holds j h
  | ite i e a b l => h i = ⟨.stIf, some e, a.first, b.first, l.first⟩ ∧ a.Holds j h ∧ b.Holds j h ∧ l.Holds j h

end Stmts

open Heap Stmts

section

variable {j : Jump} {h h' : Heap E} {l k : Stmts E}

/-- A list whose nodes stay as they are stays in the heap. -/
theorem Stmts.Holds.frame (hl : l.Holds j h) (heq : ∀ i ∈ l.ids, h' i = h i) : l.Holds j h' := by
  induction l with
  | nil => exact trivial
  | assign i e l ih =>
    obtain ⟨hi, hl⟩ := hl
    exact ⟨(heq i (.head _)).trans hi, ih hl fun x hx => heq x (.tail _ hx)⟩
  | jump i e l ih =>
    obtain ⟨hi, hl⟩ := hl
    exact ⟨(heq i (.head _)).trans hi, ih hl fun x hx => heq x (.tail _ hx)⟩
  | ite i e a b l iha ihb ihl =>
    obtain ⟨hi, ha, hb, hl⟩ := hl
    simp only [ids, List.mem_cons, List.mem_append] at heq
    exact ⟨(heq i (.inl rfl)).trans hi, iha ha fun x hx => heq x (.inr (.inl (.inl hx))),
      ihb hb fun x hx => heq x (.inr (.inl (.inr hx))), ihl hl fun x hx => heq x (.inr (.inr hx))⟩

theorem orElse_returns {f g : ℕ → Option Bool} {x y : Bool} (hf : Returns f x) (hg : Returns g y) :
    Returns (fun n => orElse (f n) (g n)) (x || y) := by
  apply Returns.bind hf
  cases x with
  | false => exact hg
  | true => exact Returns.const true

theorem isEmbedded_returns (hl : l.Holds j h) : Returns (isEmbedded j · h l.first) l.hasJump := by
  induction l with
  | nil => exact Returns.succ (fun n => rfl) (Returns.const false)
  | assign i e l ih => exact Returns.succ (fun n => by simp only [isEmbedded, first, hl.1]) (ih hl.2)
  | jump i e l ih =>
    refine Returns.succ (fun n => ?_) (Returns.const true)
    simp only [isEmbedded, first, hl.1]
    cases j <;> simp [Jump.stType]
  | ite i e a b l iha ihb ihl =>
    refine Returns.succ (fun n => ?_) (orElse_returns (orElse_returns (iha hl.2.1) (ihb hl.2.2.1)) (ihl hl.2.2.2))
    simp only [isEmbedded, first, hl.1]

theorem branchJumps_returns {i : ℕ} {e : E} {a b : Stmts E} (hl : (ite i e a b l).Holds j h) :
    Returns (branchJumps j · h i) (a.hasJump || b.hasJump) := by
  obtain ⟨hi, ha, hb, -⟩ := hl
  unfold branchJumps
  rw [hi]
  exact orElse_returns (isEmbedded_returns ha) (isEmbedded_returns hb)

theorem firstIf_returns (hl : l.Holds j h) : Returns (firstIf j · h l.first) l.fromIf.first := by
  induction l with
  | nil => exact Returns.succ (fun n => rfl) (Returns.const none)
  | assign i e l ih =>
    exact Returns.succ (fun n => by simp only [firstIf, first, hl.1, reduceCtorEq, if_false]) (ih hl.2)
  | jump i e l ih =>
    refine Returns.succ (fun n => ?_) (ih hl.2)
    simp only [firstIf, first, hl.1]
    cases j <;> simp [Jump.stType]
  | ite i e a b l iha ihb ihl =>
    have hb := branchJumps_returns hl
    refine Returns.succ (g := fun n => branchJumps j n h i >>= fun b => if b then some (some i) else
      firstIf j n h l.first) (fun n => by simp only [firstIf, first, hl.1, if_true]) (Returns.bind hb ?_)
    unfold fromIf
    cases a.hasJump || b.hasJump with
    | false => exact ihl hl.2.2.2
    | true => exact Returns.const (some i)

theorem Stmts.Holds.fromIf (hl : l.Holds j h) : l.fromIf.Holds j h := by
  induction l with
  | nil => exact trivial
  | assign i e l ih => exact ih hl.2
  | jump i e l ih => exact ih hl.2
  | ite i e a b l iha ihb ihl =>
    unfold Stmts.fromIf
    split
    · exact hl
    · exact ihl hl.2.2.2

theorem fromIf_ite (i : ℕ) (e : E) (a b l : Stmts E) :
    (ite i e a b l).fromIf = if a.hasJump || b.hasJump then ite i e a b l else l.fromIf := rfl

theorem fromIf_fromIf (l : Stmts E) : l.fromIf.fromIf = l.fromIf := by
  induction l with
  | nil => rfl
  | assign i e l ih => exact ih
  | jump i e l ih => exact ih
  | ite i e a b l iha ihb ihl =>
    rw [fromIf_ite]
    split
    next hj => rw [fromIf_ite, if_pos hj]
    next => exact ihl

theorem first_eq_none : l.first = none ↔ l = nil := by
  cases l <;> simp [first]

theorem last_eq_none : l.last = none ↔ l = nil := by
  cases l <;> simp [last]

/-- The tail of a list, from a pointer to its first statement. -/
def FindsLast (h : Heap E) (slot : Slot) (l : Stmts E) : Prop :=
  ∃ tail, Returns (lastSlot · h slot) tail ∧ h.get tail = l.last ∧ (l = nil → tail = slot)

theorem findsLast_cons {i : ℕ} {slot : Slot} {m : Stmts E} (hslot : h.get slot = some i) (hnext : (h i).next = l.first)
    (hm : m.last = some (l.last.getD i)) (ih : FindsLast h (.next i) l) : FindsLast h slot m := by
  have hne : m ≠ nil := by
    intro hnil
    rw [hnil] at hm
    cases hm
  cases hl : l.first with
  | none =>
    -- the last statement
    obtain rfl := first_eq_none.1 hl
    refine ⟨slot, Returns.succ (fun n => ?_) (Returns.const slot), hslot.trans hm.symm, fun _ => rfl⟩
    simp only [lastSlot, hslot, hnext, hl, Option.isSome_none, Bool.false_eq_true, if_false]
  | some x =>
    obtain ⟨tail, htail, hget, -⟩ := ih
    have hlast : l.last ≠ none := by
      rw [Ne, last_eq_none, ← first_eq_none, hl]
      exact Option.some_ne_none x
    obtain ⟨y, hy⟩ := Option.ne_none_iff_exists'.1 hlast
    refine ⟨tail, Returns.succ (fun n => ?_) htail, ?_, fun h => absurd h hne⟩
    · simp only [lastSlot, hslot, hnext, hl, Option.isSome_some, if_true]
    · rw [hget, hm, hy, Option.getD_some]

theorem findsLast (hl : l.Holds j h) {slot : Slot} (hslot : h.get slot = l.first) : FindsLast h slot l := by
  induction l generalizing slot with
  | nil =>
    refine ⟨slot, Returns.succ (fun n => ?_) (Returns.const slot), hslot, fun _ => rfl⟩
    simp only [lastSlot, hslot, first]
  | assign i e l ih =>
    have hnext : h.get (.next i) = l.first := congrArg CHtfeStatement.next hl.1
    exact findsLast_cons hslot hnext rfl (ih hl.2 hnext)
  | jump i e l ih =>
    have hnext : h.get (.next i) = l.first := congrArg CHtfeStatement.next hl.1
    exact findsLast_cons hslot hnext rfl (ih hl.2 hnext)
  | ite i e a b l iha ihb ihl =>
    have hnext : h.get (.next i) = l.first := congrArg CHtfeStatement.next hl.1
    exact findsLast_cons hslot hnext rfl (ihl hl.2.2.2 hnext)

theorem getD_last {i x : ℕ} (hx : some (l.last.getD i) = some x) : l = nil ∧ x = i ∨ l.last = some x := by
  have hx := Option.some.inj hx
  cases hl : l.last with
  | none =>
    rw [hl] at hx
    exact .inl ⟨last_eq_none.1 hl, hx.symm⟩
  | some y =>
    rw [hl] at hx
    exact .inr (congrArg some hx)

theorem last_mem {x : ℕ} (hx : l.last = some x) : x ∈ l.ids := by
  induction l with
  | nil => cases hx
  | assign i e l ih =>
    obtain ⟨-, rfl⟩ | hl := getD_last hx
    · exact .head _
    · exact .tail _ (ih hl)
  | jump i e l ih =>
    obtain ⟨-, rfl⟩ | hl := getD_last hx
    · exact .head _
    · exact .tail _ (ih hl)
  | ite i e a b l iha ihb ihl =>
    obtain ⟨-, rfl⟩ | hl := getD_last hx
    · exact .head _
    · exact .tail _ (List.mem_append_right _ (ihl hl))

/-- Whether the last statement is a jump. -/
theorem last_stType {x : ℕ} (hl : l.Holds j h) (hx : l.last = some x) : (h x).stType = j.stType ↔ l.endsInJump := by
  induction l with
  | nil => cases hx
  | assign i e l ih =>
    obtain ⟨rfl, rfl⟩ | hlast := getD_last hx
    · rw [hl.1]
      cases j <;> simp [Jump.stType, endsInJump]
    · exact ih hl.2 hlast
  | jump i e l ih =>
    obtain ⟨rfl, rfl⟩ | hlast := getD_last hx
    · rw [hl.1]
      simp [endsInJump]
    · cases l with
      | nil => cases hlast
      | _ => exact ih hl.2 hlast
  | ite i e a b l iha ihb ihl =>
    obtain ⟨rfl, rfl⟩ | hlast := getD_last hx
    · rw [hl.1]
      cases j <;> simp [Jump.stType, endsInJump]
    · exact ihl hl.2.2.2 hlast

@[simp] theorem setNext_self (h : Heap E) (i : ℕ) (p : Option ℕ) : h.setNext i p i = { h i with next := p } :=
  Function.update_self ..

theorem setNext_ne {i x : ℕ} (p : Option ℕ) (hx : x ≠ i) : h.setNext i p x = h x :=
  Function.update_of_ne hx ..

theorem setNext_next (h : Heap E) (i : ℕ) : h.setNext i (h i).next = h :=
  Function.update_eq_self ..

theorem set_get (h : Heap E) (slot : Slot) : h.set slot (h.get slot) = h := by
  cases slot with
  | compound1 i => exact Function.update_eq_self ..
  | compound2 i => exact Function.update_eq_self ..
  | next i => exact setNext_next h i

@[simp] theorem get_set (h : Heap E) (slot : Slot) (p : Option ℕ) : (h.set slot p).get slot = p := by
  cases slot <;> simp [Heap.set, Heap.get, setNext]

theorem set_ne {slot : Slot} {x : ℕ} (p : Option ℕ) (hx : x ≠ slot.owner) : h.set slot p x = h x := by
  cases slot with
  | compound1 i => exact Function.update_of_ne hx ..
  | compound2 i => exact Function.update_of_ne hx ..
  | next i => exact setNext_ne p hx

/-- A pointer is read off the node that it is in. -/
theorem get_congr {slot : Slot} (heq : h' slot.owner = h slot.owner) : h'.get slot = h.get slot := by
  cases slot with
  | compound1 i => exact congrArg CHtfeStatement.compound1 heq
  | compound2 i => exact congrArg CHtfeStatement.compound2 heq
  | next i => exact congrArg CHtfeStatement.next heq

/-- The last statement points to what stands behind the list. -/
theorem last_next {x : ℕ} (hl : (l.append k).Holds j h) (hx : l.last = some x) : (h x).next = k.first := by
  induction l with
  | nil => cases hx
  | assign i e l ih =>
    obtain ⟨rfl, rfl⟩ | hlast := getD_last hx
    · exact congrArg CHtfeStatement.next hl.1
    · exact ih hl.2 hlast
  | jump i e l ih =>
    obtain ⟨rfl, rfl⟩ | hlast := getD_last hx
    · exact congrArg CHtfeStatement.next hl.1
    · exact ih hl.2 hlast
  | ite i e a b l iha ihb ihl =>
    obtain ⟨rfl, rfl⟩ | hlast := getD_last hx
    · exact congrArg CHtfeStatement.next hl.1
    · exact ihl hl.2.2.2 hlast

theorem Stmts.Holds.right (hl : (l.append k).Holds j h) : k.Holds j h := by
  induction l with
  | nil => exact hl
  | assign i e l ih => exact ih hl.2
  | jump i e l ih => exact ih hl.2
  | ite i e a b l iha ihb ihl => exact ihl hl.2.2.2

theorem append_nil (l : Stmts E) : l.append nil = l := by
  induction l with
  | nil => rfl
  | assign i e l ih => exact congrArg (assign i e) ih
  | jump i e l ih => exact congrArg (jump i e) ih
  | ite i e a b l iha ihb ihl => exact congrArg (Stmts.ite i e a b) ihl

theorem first_append (hl : l ≠ nil) : (l.append k).first = l.first := by
  cases l with
  | nil => exact absurd rfl hl
  | _ => rfl

/-- **Appending**: the last statement of `l` is made to point to `k`. -/
theorem Stmts.Holds.append {x : ℕ} (hl : l.Holds j h) (hlast : l.last = some x) (hids : l.ids.Nodup) (hk : k.Holds j h)
    (hx : x ∉ k.ids) : (l.append k).Holds j (h.setNext x k.first) := by
  have hk' : k.Holds j (h.setNext x k.first) := hk.frame fun y hy => setNext_ne _ (ne_of_mem_of_not_mem hy hx)
  have tail_ne : ∀ {l : Stmts E}, l.last = some x → l ≠ nil := by
    intro l h hnil
    rw [hnil] at h
    cases h
  induction l with
  | nil => cases hlast
  | assign i e l ih =>
    obtain ⟨hi, hl⟩ := hl
    obtain ⟨hni, hnd⟩ := List.nodup_cons.1 hids
    obtain ⟨rfl, rfl⟩ | hlast := getD_last hlast
    · exact ⟨by rw [setNext_self, hi]; rfl, hk'⟩
    · refine ⟨?_, ih hl hlast hnd⟩
      rw [setNext_ne _ (ne_of_mem_of_not_mem (last_mem hlast) hni).symm, hi, first_append (tail_ne hlast)]
  | jump i e l ih =>
    obtain ⟨hi, hl⟩ := hl
    obtain ⟨hni, hnd⟩ := List.nodup_cons.1 hids
    obtain ⟨rfl, rfl⟩ | hlast := getD_last hlast
    · exact ⟨by rw [setNext_self, hi]; rfl, hk'⟩
    · refine ⟨?_, ih hl hlast hnd⟩
      rw [setNext_ne _ (ne_of_mem_of_not_mem (last_mem hlast) hni).symm, hi, first_append (tail_ne hlast)]
  | ite i e a b l iha ihb ihl =>
    obtain ⟨hi, ha, hb, hl⟩ := hl
    simp only [ids, List.nodup_cons, List.nodup_append, List.mem_append, not_or] at hids
    obtain ⟨⟨⟨hia, hib⟩, hil⟩, ⟨hnda, hndb, hdab⟩, hndl, hd⟩ := hids
    obtain ⟨rfl, rfl⟩ | hlast := getD_last hlast
    · refine ⟨by rw [setNext_self, hi]; rfl, ?_, ?_, hk'⟩
      · exact ha.frame fun y hy => setNext_ne _ (ne_of_mem_of_not_mem hy hia)
      · exact hb.frame fun y hy => setNext_ne _ (ne_of_mem_of_not_mem hy hib)
    · have hxl := last_mem hlast
      refine ⟨?_, ?_, ?_, ihl hl hlast hndl⟩
      · rw [setNext_ne _ (ne_of_mem_of_not_mem hxl hil).symm, hi, first_append (tail_ne hlast)]
      · exact ha.frame fun y hy => setNext_ne _ (hd y (.inl hy) x hxl)
      · exact hb.frame fun y hy => setNext_ne _ (hd y (.inr hy) x hxl)

end

end OpenHT.Htfe
