import OpenHT.Htfe.Statement

/-!
# Lists with embedded jumps

The passes that take returns out of functions and breaks out of cases move what follows an if with such a jump into
both of its branches, which then share it.

* `transformList`: the pass, on the heap of statements; `transformReturns` and `transformBreaks`.
* `Stmts.push`: what it makes of a list.
* `transformList_pushes`: that it does, and comes to an end.
-/

namespace OpenHT.Htfe

open Fuel

variable {E : Type}

namespace Heap

variable (j : Jump)

/-- What `TransformFunctionIfStatementList` and `TransformCaseIfStatementList` do at the tail: a return stays, a break
is removed. -/
def appendPost (h : Heap E) (ppTail : Slot) (postList : Option ℕ) : Heap E :=
  match h.get ppTail with
  | none => h.set ppTail postList
  | some i =>
    if (h i).stType ≠ j.stType then h.setNext i postList
    else match j with
      | .ret => h
      | .brk => h.set ppTail none

/-- The statement before the next break, or the last one. -/
def beforeBreak : ℕ → Heap E → ℕ → Option ℕ
  | 0, _, _ => none
  | n + 1, h, i =>
    match (h i).next with
    | none => some i
    | some k => if (h k).stType ≠ .stBreak then beforeBreak n h k else some i

/-- What follows the if is taken off; a break behind it stays. -/
def detach (n : ℕ) (h : Heap E) (stIf : ℕ) : Option (Heap E × Option ℕ) :=
  match j with
  | .ret => some (h.setNext stIf none, (h stIf).next)
  | .brk => do
    let stmt ← beforeBreak n h stIf
    some ((h.setNext stmt none).setNext stIf (h stmt).next, (h.setNext stmt none stIf).next)

variable (transform : Heap E → Option ℕ → Option (Heap E))

/-- `TransformFunctionIfStatementList` and `TransformCaseIfStatementList` -/
def transformIfList (n : ℕ) (h : Heap E) (ppList : Slot) (postList : Option ℕ) : Option (Heap E) := do
  let ppTail ← lastSlot n h ppList
  transform (h.appendPost j ppTail postList) ((h.appendPost j ppTail postList).get ppList)

/-- The ifs behind the first one with an embedded jump come first. -/
def transformLater (n : ℕ) (h : Heap E) (stIf : ℕ) : Option (Heap E) := do
  match ← firstIf j n h (h stIf).next with
  | none => some h
  | some stmt2 => transform h (some stmt2)

/-- What follows the if goes into its branches. -/
def transformIf (n : ℕ) (h : Heap E) (stIf : ℕ) : Option (Heap E) := do
  let h ← transformLater j transform n h stIf
  if ← isEmbedded j n h (some stIf) then
    let r ← detach j n h stIf
    let h' ← transformIfList j transform n r.1 (.compound1 stIf) r.2
    transformIfList j transform n h' (.compound2 stIf) r.2
  else some h

/-- The two passes. -/
def transformList : ℕ → Heap E → Option ℕ → Option (Heap E)
  | 0, _, _ => none
  | n + 1, h, stmtHead => do
    match ← firstIf j n h stmtHead with
    | none => some h
    | some stIf => transformIf j (transformList n) n h stIf

/-- `TransformFunctionStatementListForReturns`, where no error was reported. -/
def transformReturns : ℕ → Heap E → Option ℕ → Option (Heap E) := transformList .ret

/-- `TransformCaseStatementListToRemoveBreaks` -/
def transformBreaks : ℕ → Heap E → Option ℕ → Option (Heap E) := transformList .brk

end Heap

open Heap Stmts

/-! ## Lists after the pass -/

namespace Stmts

variable (j : Jump)

/-- `k` behind `l`, unless `l` ends in a jump. -/
def join : Stmts E → Stmts E → Stmts E
  | nil, k => k
  | assign i e l, k => assign i e (l.join k)
  | jump i e nil, _ => if j = .ret then jump i e nil else nil
  | jump i e l, k => jump i e (l.join k)
  | ite i e a b l, k => ite i e a b (l.join k)

/-- `l` before `k`, with what follows an if with a jump moved into its branches. -/
def push : Stmts E → Stmts E → Stmts E
  | nil, k => k
  | assign i e l, k => assign i e (l.push k)
  | jump i e nil, _ => if j = .ret then jump i e nil else nil
  | jump i e l, k => jump i e (l.push k)
  | ite i e a b l, k =>
    if a.hasJump || b.hasJump then ite i e (a.push (l.push k)) (b.push (l.push k)) nil
    else ite i e a b (l.push k)

/-- The list without the jump at its end. -/
def dropJump : Stmts E → Stmts E
  | nil => nil
  | assign i e l => assign i e l.dropJump
  | jump _ _ nil => nil
  | jump i e l => jump i e l.dropJump
  | ite i e a b l => ite i e a b l.dropJump

/-- The pass has nothing to do. -/
def Stable : Stmts E → Prop
  | nil => True
  | assign _ _ l | jump _ _ l => l.Stable
  | ite _ _ a b l => if a.hasJump || b.hasJump then l = nil ∧ a.Stable ∧ b.Stable else l.Stable

/-- Every jump is the last statement of its list. -/
def Clean : Stmts E → Prop
  | nil => True
  | assign _ _ l => l.Clean
  | jump _ _ l => l = nil
  | ite _ _ a b l => a.Clean ∧ b.Clean ∧ l.Clean

end Stmts

variable {j : Jump} {h h' : Heap E} {l k t : Stmts E}

theorem push_jump (i : ℕ) (e : Option E) (hl : l ≠ nil) (k : Stmts E) :
    (jump i e l).push j k = jump i e (l.push j k) := by
  cases l with
  | nil => exact absurd rfl hl
  | _ => rfl

theorem join_jump (i : ℕ) (e : Option E) (hl : l ≠ nil) (k : Stmts E) :
    (jump i e l).join j k = jump i e (l.join j k) := by
  cases l with
  | nil => exact absurd rfl hl
  | _ => rfl

theorem push_ite (i : ℕ) (e : E) (a b l k : Stmts E) :
    (ite i e a b l).push j k = if a.hasJump || b.hasJump then
      ite i e (a.push j (l.push j k)) (b.push j (l.push j k)) nil else ite i e a b (l.push j k) := rfl

theorem first_append_congr {l l' : Stmts E} (h : l.first = l'.first) (k : Stmts E) :
    (l.append k).first = (l'.append k).first := by
  by_cases hl : l = nil
  · have hl' : l' = nil := by rw [← first_eq_none, ← h, first_eq_none, hl]
    rw [hl, hl']
  · have hl' : l' ≠ nil := by rwa [Ne, ← first_eq_none, ← h, first_eq_none]
    rw [first_append hl, first_append hl', h]

theorem first_push (j : Jump) (l k : Stmts E) : (l.push j k).first = (l.join j k).first := by
  cases l with
  | nil => rfl
  | assign i e l => rfl
  | jump i e l => cases l <;> rfl
  | ite i e a b l =>
    rw [push_ite]
    split <;> rfl

theorem join_append (he : l.endsInJump = false) (k : Stmts E) : l.join j k = l.append k := by
  induction l with
  | nil => rfl
  | assign i e l ih => exact congrArg (assign i e) (ih he)
  | jump i e l ih =>
    cases l with
    | nil => cases he
    | _ => exact congrArg (jump i e) (ih he)
  | ite i e a b l iha ihb ihl => exact congrArg (Stmts.ite i e a b) (ihl he)

theorem join_endsInJump (he : l.endsInJump) (k : Stmts E) : l.join j k = if j = .ret then l else l.dropJump := by
  induction l with
  | nil => cases he
  | assign i e l ih =>
    unfold join dropJump
    rw [ih he, apply_ite (assign i e)]
  | jump i e l ih =>
    cases l with
    | nil => rfl
    | _ =>
      rw [join_jump _ _ (by simp), ih he, apply_ite (jump i e)]
      rfl
  | ite i e a b l iha ihb ihl =>
    unfold join dropJump
    rw [ihl he, apply_ite (Stmts.ite i e a b)]

theorem push_ids {x : ℕ} (hx : x ∈ (l.push j k).ids) : x ∈ l.ids ∨ x ∈ k.ids := by
  induction l generalizing k with
  | nil => exact .inr hx
  | assign i e l ih =>
    obtain _ | ⟨_, hx⟩ := hx
    · exact .inl (.head _)
    · exact (ih hx).imp_left (.tail _)
  | jump i e l ih =>
    by_cases hl : l = nil
    · subst hl
      unfold push at hx
      split at hx
      · exact .inl hx
      · cases hx
    · rw [push_jump i e hl] at hx
      obtain _ | ⟨_, hx⟩ := hx
      · exact .inl (.head _)
      · exact (ih hx).imp_left (.tail _)
  | ite i e a b l iha ihb ihl =>
    rw [push_ite] at hx
    simp only [ids, List.mem_cons, List.mem_append]
    split at hx
    next =>
      simp only [ids, List.mem_cons, List.mem_append, List.not_mem_nil, or_false] at hx
      obtain rfl | hx | hx := hx
      · exact .inl (.inl rfl)
      · obtain hx | hx := iha hx
        · exact .inl (.inr (.inl (.inl hx)))
        · exact (ihl hx).imp_left fun hx => .inr (.inr hx)
      · obtain hx | hx := ihb hx
        · exact .inl (.inr (.inl (.inr hx)))
        · exact (ihl hx).imp_left fun hx => .inr (.inr hx)
    next =>
      simp only [ids, List.mem_cons, List.mem_append] at hx
      obtain rfl | hx | hx := hx
      · exact .inl (.inl rfl)
      · exact .inl (.inr (.inl hx))
      · exact (ihl hx).imp_left fun hx => .inr (.inr hx)

theorem stable_push (hk : k.Stable) : (l.push j k).Stable := by
  induction l generalizing k with
  | nil => exact hk
  | assign i e l ih => exact ih hk
  | jump i e l ih =>
    by_cases hl : l = nil
    · subst hl
      unfold push
      split <;> exact trivial
    · rw [push_jump i e hl]
      exact ih hk
  | ite i e a b l iha ihb ihl =>
    rw [push_ite]
    split
    next =>
      unfold Stable
      split
      · exact ⟨rfl, iha (ihl hk), ihb (ihl hk)⟩
      · exact trivial
    next hj =>
      unfold Stable
      rw [if_neg hj]
      exact ihl hk

/-- No break is left. -/
theorem push_hasJump (hl : l.Clean) (hk : k.hasJump = false) : (l.push .brk k).hasJump = false := by
  induction l generalizing k with
  | nil => exact hk
  | assign i e l ih => exact ih hl hk
  | jump i e l ih =>
    obtain rfl : l = nil := hl
    rfl
  | ite i e a b l iha ihb ihl =>
    obtain ⟨ha, hb, hl⟩ := hl
    have hrest := ihl hl hk
    rw [push_ite]
    split
    next =>
      unfold hasJump
      rw [iha ha hrest, ihb hb hrest]
      rfl
    next hj =>
      unfold hasJump
      rw [hrest, Bool.or_false]
      exact Bool.eq_false_iff.2 hj

/-! ## The pass ends -/

/-- The pass starts at the first if with a jump. -/
theorem transformList_skip {p q x : Option ℕ} (hp : Returns (firstIf j · h p) x) (hq : Returns (firstIf j · h q) x)
    (hT : Returns (transformList j · h q) h') : Returns (transformList j · h p) h' := by
  obtain ⟨N, hN⟩ := hp
  obtain ⟨M, hM⟩ := hq
  refine Returns.congr ⟨max N M + 1, fun n hn => ?_⟩ hT
  obtain ⟨m, rfl⟩ : ∃ m, n = m + 1 := ⟨n - 1, by omega⟩
  have h₁ := hN m (by omega)
  have h₂ := hM m (by omega)
  simp only [transformList, h₁, h₂]

theorem transformList_none {p : Option ℕ} (hp : Returns (firstIf j · h p) none) : Returns (transformList j · h p) h := by
  refine Returns.succ (fun n => rfl) (Returns.bind hp ?_)
  exact Returns.const h

theorem transformList_some {p : Option ℕ} {i : ℕ} (hp : Returns (firstIf j · h p) (some i))
    (hT : Returns (fun n => transformIf j (transformList j n) n h i) h') : Returns (transformList j · h p) h' := by
  refine Returns.succ (fun n => rfl) (Returns.bind hp ?_)
  exact hT

theorem transformList_nil (j : Jump) (h : Heap E) : Returns (transformList j · h none) h :=
  transformList_none (firstIf_returns (l := nil) trivial)

/-- Only ifs with a jump in them matter to the call for those behind. -/
theorem transformLater_returns {i : ℕ} (hl : l.Holds j h) (hnext : (h i).next = l.first)
    (hT : Returns (transformList j · h l.first) h') :
    Returns (fun n => transformLater j (transformList j n) n h i) h' := by
  unfold transformLater
  rw [hnext]
  refine Returns.bind (firstIf_returns hl) ?_
  have hself := firstIf_returns hl.fromIf
  rw [fromIf_fromIf] at hself
  cases hf : l.fromIf.first with
  | none =>
    have hnone := firstIf_returns hl
    rw [hf] at hnone
    obtain rfl := Returns.unique hT (transformList_none hnone)
    exact Returns.const h'
  | some x =>
    have hx := transformList_skip hself (firstIf_returns hl) hT
    rw [hf] at hx
    exact hx

/-- No list is appended to a branch that is done. -/
theorem transformIfList_none {slot : Slot} (hl : l.Holds .ret h) (hslot : h.get slot = l.first)
    (hT : Returns (transformList .ret · h l.first) h) :
    Returns (fun n => transformIfList .ret (transformList .ret n) n h slot none) h := by
  obtain ⟨tail, htail, hget, -⟩ := findsLast hl hslot
  have happend : h.appendPost .ret tail none = h := by
    unfold appendPost
    cases hlast : l.last with
    | none =>
      rw [hget, hlast]
      dsimp only
      rw [← hlast, ← hget, set_get]
    | some x =>
      rw [hget, hlast]
      dsimp only
      have hnone : (h x).next = none := last_next (k := nil) (by rw [append_nil]; exact hl) hlast
      rw [← hnone, setNext_next, ite_self]
  refine Returns.bind htail ?_
  rw [happend, hslot]
  exact hT

theorem hasJump_ite {i : ℕ} {e : E} {a b : Stmts E} (hj : a.hasJump || b.hasJump) : (ite i e a b l).hasJump = true := by
  unfold hasJump
  rw [hj, Bool.true_or]

/-- A list that is done stays as it is. -/
theorem transformList_stable (hk : k.Holds j h) (hstable : k.Stable) (hjump : j = .brk → k.hasJump = false) :
    Returns (transformList j · h k.first) h := by
  induction k with
  | nil => exact transformList_nil j h
  | assign i e l ih =>
    have hfirst := firstIf_returns hk
    have hrest := firstIf_returns hk.2
    exact transformList_skip hfirst hrest (ih hk.2 hstable hjump)
  | jump i e l ih =>
    have hfirst := firstIf_returns hk
    have hrest := firstIf_returns hk.2
    refine transformList_skip hfirst hrest (ih hk.2 hstable fun h => ?_)
    cases hjump h
  | ite i e a b l iha ihb ihl =>
    have hfirst := firstIf_returns hk
    rw [fromIf_ite] at hfirst
    obtain ⟨hi, ha, hb, hl⟩ := hk
    unfold Stable at hstable
    split at hstable
    next hj =>
      obtain ⟨rfl, hsa, hsb⟩ := hstable
      cases j with
      | brk => exact absurd (hjump rfl) (by rw [hasJump_ite hj]; exact Bool.noConfusion)
      | ret =>
        rw [if_pos hj] at hfirst
        have hnext : (h i).next = none := congrArg CHtfeStatement.next hi
        have hlater := transformLater_returns (l := nil) trivial hnext (transformList_nil .ret h)
        have hemb := isEmbedded_returns (l := .ite i e a b nil) ⟨hi, ha, hb, trivial⟩
        rw [hasJump_ite hj] at hemb
        have hsame : h.setNext i none = h := by rw [← hnext, setNext_next]
        have hdetach : Returns (detach .ret · h i) (h, none) := by
          unfold detach
          rw [hsame, hnext]
          exact Returns.const _
        have hret : ∀ l : Stmts E, Jump.ret = .brk → l.hasJump = false := fun _ h => by cases h
        have hslot₁ : h.get (.compound1 i) = a.first := congrArg CHtfeStatement.compound1 hi
        have hslot₂ : h.get (.compound2 i) = b.first := congrArg CHtfeStatement.compound2 hi
        have hbranch₁ := transformIfList_none ha hslot₁ (iha ha hsa (hret a))
        have hbranch₂ := transformIfList_none hb hslot₂ (ihb hb hsb (hret b))
        refine transformList_some hfirst (Returns.bind hlater (Returns.bind hemb (Returns.bind hdetach ?_)))
        exact Returns.bind hbranch₁ hbranch₂
    next hj =>
      have hskip : Returns (firstIf j · h (some i)) l.fromIf.first := by
        rw [if_neg hj] at hfirst
        exact hfirst
      refine transformList_skip hskip (firstIf_returns hl) (ihl hl hstable fun h => ?_)
      have hno := hjump h
      unfold hasJump at hno
      exact (Bool.or_eq_false_iff.1 hno).2

/-! ## Branches -/

/-- What removing the jump at the end of `l` leaves. -/
def Drops (j : Jump) (h : Heap E) (slot tail : Slot) (l : Stmts E) : Prop :=
  l.dropJump.Holds j (h.set tail none) ∧ h.set tail none slot.owner = h.set slot l.dropJump.first slot.owner ∧
    ∀ x, x ∉ l.ids → x ≠ slot.owner → h.set tail none x = h x

theorem lastSlot_next {slot tail : Slot} {i : ℕ} (hslot : h.get slot = some i) (hnext : (h i).next = l.first)
    (hl : l ≠ nil) (htail : Returns (lastSlot · h slot) tail) : Returns (lastSlot · h (.next i)) tail := by
  have hsome : l.first.isSome := by
    rw [Option.isSome_iff_ne_none, Ne, first_eq_none]
    exact hl
  refine Returns.of_succ (fun n => ?_) htail
  simp only [lastSlot, hslot, hnext, hsome, if_true]

/-- The statements before the last one keep their place. -/
theorem drops_cons {slot tail : Slot} {i : ℕ} (hslot : h.get slot = some i) (hi : slot.owner ≠ i)
    (hl : slot.owner ∉ l.ids) (h' : Drops j h (.next i) tail l) :
    h.set tail none i = { h i with next := l.dropJump.first } ∧
      h.set tail none slot.owner = h.set slot (some i) slot.owner ∧
        ∀ x, x ≠ i → x ∉ l.ids → h.set tail none x = h x := by
  obtain ⟨-, hnode, hframe⟩ := h'
  refine ⟨hnode.trans (setNext_self h i _), ?_, fun x hxi hx => hframe x hx hxi⟩
  rw [hframe _ hl hi, ← hslot, set_get]

/-- **Removing**: the jump at the end of a list is taken off. -/
theorem drops {slot tail : Slot} (hl : l.Holds j h) (hslot : h.get slot = l.first) (hids : l.ids.Nodup)
    (howner : slot.owner ∉ l.ids) (hends : l.endsInJump) (htail : Returns (lastSlot · h slot) tail) :
    Drops j h slot tail l := by
  induction l generalizing slot with
  | nil => cases hends
  | assign i e l ih =>
    obtain ⟨hi, hl⟩ := hl
    obtain ⟨hni, hnd⟩ := List.nodup_cons.1 hids
    simp only [ids, List.mem_cons, not_or] at howner
    have hnext : h.get (.next i) = l.first := congrArg CHtfeStatement.next hi
    have hne : l ≠ nil := by
      rintro rfl
      cases hends
    have hdrop := ih hl hnext hnd hni hends (lastSlot_next hslot hnext hne htail)
    obtain ⟨hnode, hown, hframe⟩ := drops_cons hslot howner.1 howner.2 hdrop
    refine ⟨⟨by rw [hnode, hi], hdrop.1⟩, hown, fun x hx _ => ?_⟩
    simp only [ids, List.mem_cons, not_or] at hx
    exact hframe x hx.1 hx.2
  | jump i e l ih =>
    obtain ⟨hi, hl⟩ := hl
    obtain ⟨hni, hnd⟩ := List.nodup_cons.1 hids
    simp only [ids, List.mem_cons, not_or] at howner
    have hnext : h.get (.next i) = l.first := congrArg CHtfeStatement.next hi
    by_cases hnil : l = nil
    · subst hnil
      have hlast : Returns (lastSlot · h slot) slot := by
        refine Returns.succ (fun n => ?_) (Returns.const slot)
        simp only [lastSlot, hslot, first, hi, Option.isSome_none, Bool.false_eq_true, if_false]
      obtain rfl := Returns.unique hlast htail
      exact ⟨trivial, rfl, fun x _ hx => set_ne none hx⟩
    · have hends' : l.endsInJump := by
        cases l with
        | nil => exact absurd rfl hnil
        | _ => exact hends
      have hdrop := ih hl hnext hnd hni hends' (lastSlot_next hslot hnext hnil htail)
      obtain ⟨hnode, hown, hframe⟩ := drops_cons hslot howner.1 howner.2 hdrop
      have hdropJump : (jump i e l).dropJump = jump i e l.dropJump := by
        cases l with
        | nil => exact absurd rfl hnil
        | _ => rfl
      unfold Drops
      rw [hdropJump]
      refine ⟨⟨by rw [hnode, hi], hdrop.1⟩, hown, fun x hx _ => ?_⟩
      simp only [ids, List.mem_cons, not_or] at hx
      exact hframe x hx.1 hx.2
  | ite i e a b l iha ihb ihl =>
    obtain ⟨hi, ha, hb, hl⟩ := hl
    simp only [ids, List.nodup_cons, List.nodup_append, List.mem_append, not_or] at hids
    obtain ⟨⟨⟨hia, hib⟩, hil⟩, ⟨hnda, hndb, hdab⟩, hndl, hdl⟩ := hids
    simp only [ids, List.mem_cons, List.mem_append, not_or] at howner
    have hnext : h.get (.next i) = l.first := congrArg CHtfeStatement.next hi
    have hne : l ≠ nil := by
      rintro rfl
      cases hends
    have hdrop := ihl hl hnext hndl hil hends (lastSlot_next hslot hnext hne htail)
    obtain ⟨hnode, hown, hframe⟩ := drops_cons hslot howner.1 howner.2.2 hdrop
    refine ⟨⟨by rw [hnode, hi], ?_, ?_, hdrop.1⟩, hown, fun x hx _ => ?_⟩
    · exact ha.frame fun x hx => hframe x (ne_of_mem_of_not_mem hx hia) fun hxl => hdl x (.inl hx) x hxl rfl
    · exact hb.frame fun x hx => hframe x (ne_of_mem_of_not_mem hx hib) fun hxl => hdl x (.inr hx) x hxl rfl
    · simp only [ids, List.mem_cons, List.mem_append, not_or] at hx
      exact hframe x hx.1 hx.2.2

/-- What the pass leaves of a heap with `l`, behind it `k` and then `t`: the list, and all other nodes as they were. -/
def Pushes (j : Jump) (h : Heap E) (l k t : Stmts E) (h' : Heap E) : Prop :=
  Returns (transformList j · h ((l.join j k).append t).first) h' ∧ ((l.push j k).append t).Holds j h' ∧
    ∀ x, x ∉ l.ids → h' x = h x

/-- **A branch** gets the list `k`. -/
theorem appendPost_holds {slot : Slot} (hslot : h.get slot = l.first) (hl : l.Holds j h) (hk : k.Holds j h)
    (hids : l.ids.Nodup) (hd : ∀ x ∈ l.ids, x ∉ k.ids) (hol : slot.owner ∉ l.ids) (hok : slot.owner ∉ k.ids) :
    ∃ tail, Returns (lastSlot · h slot) tail ∧ (l.join j k).Holds j (h.appendPost j tail k.first) ∧
      h.appendPost j tail k.first slot.owner = h.set slot (l.join j k).first slot.owner ∧
        ∀ x, x ∉ l.ids → x ≠ slot.owner → h.appendPost j tail k.first x = h x := by
  obtain ⟨tail, htail, hget, hnil⟩ := findsLast hl hslot
  refine ⟨tail, htail, ?_⟩
  unfold appendPost
  rw [hget]
  cases hlast : l.last with
  | none =>
    obtain rfl := last_eq_none.1 hlast
    obtain rfl := hnil rfl
    exact ⟨hk.frame fun x hx => set_ne _ (ne_of_mem_of_not_mem hx hok), rfl, fun x _ hx => set_ne _ hx⟩
  | some x =>
    have hxl := last_mem hlast
    have hne : l ≠ nil := by
      rintro rfl
      cases hlast
    have hset : h.set slot l.first = h := by rw [← hslot, set_get]
    have hends := last_stType hl hlast
    dsimp only
    by_cases he : l.endsInJump
    · rw [if_neg (not_not.2 (hends.2 he)), join_endsInJump he]
      cases j with
      | ret =>
        rw [if_pos rfl, hset]
        exact ⟨hl, rfl, fun _ _ _ => rfl⟩
      | brk => exact drops hl hslot hids hol he htail
    · have hstay : (h x).stType ≠ j.stType := fun h => he (hends.1 h)
      rw [if_pos hstay, join_append (Bool.eq_false_iff.2 he), first_append hne, hset]
      refine ⟨hl.append hlast hids hk (hd x hxl), setNext_ne _ (ne_of_mem_of_not_mem hxl hol).symm, ?_⟩
      exact fun y hy _ => setNext_ne _ (ne_of_mem_of_not_mem hxl hy).symm

/-- A branch gets the list `k` and is then transformed. -/
theorem transformIfList_returns {slot : Slot} (hslot : h.get slot = l.first) (hl : l.Holds j h) (hk : k.Holds j h)
    (hids : l.ids.Nodup) (hd : ∀ x ∈ l.ids, x ∉ k.ids) (hol : slot.owner ∉ l.ids) (hok : slot.owner ∉ k.ids)
    (ih : ∀ g : Heap E, (l.join j k).Holds j g → k.Holds j g → ∃ g', Pushes j g l k nil g') :
    ∃ h', Returns (fun n => transformIfList j (transformList j n) n h slot k.first) h' ∧ (l.push j k).Holds j h' ∧
      h' slot.owner = h.set slot (l.push j k).first slot.owner ∧ ∀ x, x ∉ l.ids → x ≠ slot.owner → h' x = h x := by
  obtain ⟨tail, htail, hjoin, howner, hframe⟩ := appendPost_holds hslot hl hk hids hd hol hok
  have hkg : k.Holds j (h.appendPost j tail k.first) := hk.frame fun x hx =>
    hframe x (fun hxl => hd x hxl hx) (ne_of_mem_of_not_mem hx hok)
  obtain ⟨h', hT, hpush, hrest⟩ := ih _ hjoin hkg
  rw [append_nil] at hT hpush
  refine ⟨h', Returns.bind htail ?_, hpush, ?_, ?_⟩
  · rw [get_congr howner, get_set]
    exact hT
  · rw [hrest _ hol, howner, first_push]
  · intro x hx hxo
    rw [hrest x hx, hframe x hx hxo]

/-! ## Detaching -/

/-- What may stand behind a list that is transformed: nothing, or the break of the case. -/
def Tail (j : Jump) (t : Stmts E) : Prop := t = nil ∨ j = .brk ∧ ∃ i e, t = jump i e nil

theorem beforeBreak_returns {i : ℕ} (hl : (l.append t).Holds .brk h) (hjump : l.hasJump = false) (ht : Tail .brk t)
    (hnext : (h i).next = (l.append t).first) : Returns (beforeBreak · h i) (l.last.getD i) := by
  have hpast : ∀ {i k : ℕ}, (h i).next = some k → (h k).stType ≠ .stBreak → ∀ {x}, Returns (beforeBreak · h k) x →
      Returns (beforeBreak · h i) x := by
    intro i k hnext htype x hx
    refine Returns.succ (fun n => ?_) hx
    simp only [beforeBreak, hnext, if_pos htype]
  induction l generalizing i with
  | nil =>
    refine Returns.succ (fun n => ?_) (Returns.const i)
    obtain rfl | ⟨-, k, e, rfl⟩ := ht
    · have hnone : (h i).next = none := hnext
      simp only [beforeBreak, hnone]
    · have hsome : (h i).next = some k := hnext
      have htype : (h k).stType = .stBreak := congrArg CHtfeStatement.stType hl.1
      simp only [beforeBreak, hsome, htype, ne_eq, not_true_eq_false, if_false]
  | assign i' e l ih =>
    refine hpast hnext ?_ (ih hl.2 hjump (congrArg CHtfeStatement.next hl.1))
    rw [hl.1]
    exact EStType.noConfusion
  | jump i' e l ih => cases hjump
  | ite i' e a b l iha ihb ihl =>
    unfold hasJump at hjump
    refine hpast hnext ?_ (ihl hl.2.2.2 (Bool.or_eq_false_iff.1 hjump).2 (congrArg CHtfeStatement.next hl.1))
    rw [hl.1]
    exact EStType.noConfusion

/-- The break behind a list is cut off. -/
theorem cut_holds {x : ℕ} (hl : ((l.push .brk nil).append t).Holds .brk h) (hclean : l.Clean) (hids : l.ids.Nodup)
    (hx : (l.push .brk nil).last = some x) : (l.push .brk nil).Holds .brk (h.setNext x none) ∧ x ∈ l.ids := by
  have tail_ne : ∀ {l : Stmts E}, l.last = some x → l ≠ nil := by
    intro l h hnil
    rw [hnil] at h
    cases h
  induction l with
  | nil => cases hx
  | assign i e l ih =>
    obtain ⟨hi, hl⟩ := hl
    obtain ⟨hni, hnd⟩ := List.nodup_cons.1 hids
    obtain ⟨hnil, rfl⟩ | hlast := getD_last hx
    · refine ⟨⟨?_, by rw [hnil]; exact trivial⟩, .head _⟩
      rw [setNext_self, hi, hnil]
      rfl
    · obtain ⟨hrest, hxl⟩ := ih hl hclean hnd hlast
      refine ⟨⟨?_, hrest⟩, .tail _ hxl⟩
      rw [setNext_ne _ (ne_of_mem_of_not_mem hxl hni).symm, hi, first_append (tail_ne hlast)]
  | jump i e l ih =>
    obtain rfl : l = nil := hclean
    cases hx
  | ite i e a b l iha ihb ihl =>
    simp only [ids, List.nodup_cons, List.nodup_append, List.mem_append, not_or] at hids
    obtain ⟨⟨⟨hia, hib⟩, hil⟩, ⟨hnda, hndb, hdab⟩, hndl, hdl⟩ := hids
    rw [push_ite] at hl hx ⊢
    have keep : ∀ {m : Stmts E}, (m.push .brk (l.push .brk nil)).Holds .brk h → i ∉ m.ids →
        (m.push .brk (l.push .brk nil)).Holds .brk (h.setNext i none) := by
      intro m hm him
      refine hm.frame fun y hy => setNext_ne _ ?_
      rintro rfl
      obtain hy | hy := push_ids hy
      · exact him hy
      · exact (push_ids hy).elim hil List.not_mem_nil
    split at hl
    next hj =>
      rw [if_pos hj] at hx ⊢
      obtain ⟨hi, ha, hb, -⟩ := hl
      obtain rfl : i = x := Option.some.inj hx
      refine ⟨⟨?_, keep ha hia, keep hb hib, trivial⟩, .head _⟩
      rw [setNext_self, hi]
      rfl
    next hj =>
      rw [if_neg hj] at hx ⊢
      obtain ⟨hi, ha, hb, hl⟩ := hl
      obtain ⟨hnil, rfl⟩ | hlast := getD_last hx
      · refine ⟨⟨?_, ?_, ?_, by rw [hnil]; exact trivial⟩, .head _⟩
        · rw [setNext_self, hi, hnil]
          rfl
        · exact ha.frame fun y hy => setNext_ne _ (ne_of_mem_of_not_mem hy hia)
        · exact hb.frame fun y hy => setNext_ne _ (ne_of_mem_of_not_mem hy hib)
      · obtain ⟨hrest, hxl⟩ := ihl hl hclean.2.2 hndl hlast
        refine ⟨⟨?_, ?_, ?_, hrest⟩, .tail _ (List.mem_append_right _ hxl)⟩
        · rw [setNext_ne _ (ne_of_mem_of_not_mem hxl hil).symm, hi, first_append (tail_ne hlast)]
        · exact ha.frame fun y hy => setNext_ne _ fun h => hdl y (.inl hy) x hxl h
        · exact hb.frame fun y hy => setNext_ne _ fun h => hdl y (.inr hy) x hxl h

/-- **Detaching**: the list behind the if is taken off it, a break behind that list is left. -/
theorem detach_returns {i : ℕ} (hnext : (h i).next = ((l.push j k).append t).first)
    (hl : ((l.push j k).append t).Holds j h) (hids : l.ids.Nodup) (hip : i ∉ (l.push j k).ids)
    (ht : Tail j t) (htk : t = nil ∨ k = nil) (hbrk : j = .brk → l.Clean ∧ k.hasJump = false) :
    ∃ h', Returns (detach j · h i) (h', (l.push j k).first) ∧ h' i = { h i with next := t.first } ∧
      (l.push j k).Holds j h' ∧ ∀ x, x ∉ l.ids → x ≠ i → h' x = h x := by
  cases j with
  | ret =>
    obtain rfl | ⟨h, -⟩ := ht
    · rw [append_nil] at hnext hl
      refine ⟨h.setNext i none, ?_, setNext_self h i none, ?_, fun x _ hx => setNext_ne none hx⟩
      · unfold detach
        rw [hnext]
        exact Returns.const _
      · exact hl.frame fun x hx => setNext_ne none (ne_of_mem_of_not_mem hx hip)
    · cases h
  | brk =>
    obtain ⟨hclean, hkjump⟩ := hbrk rfl
    have hjump := push_hasJump hclean hkjump
    have hbefore := beforeBreak_returns hl hjump ht hnext
    cases hlast : (l.push .brk k).last with
    | none =>
      have hnil := last_eq_none.1 hlast
      rw [hnil] at hnext hl ⊢
      rw [hlast] at hbefore
      refine ⟨(h.setNext i none).setNext i (h i).next, ?_, ?_, trivial, ?_⟩
      · refine Returns.bind hbefore ?_
        rw [Option.getD_none, setNext_self]
        exact Returns.const _
      · rw [setNext_self, setNext_self, hnext]
        rfl
      · intro x _ hx
        rw [setNext_ne _ hx, setNext_ne _ hx]
    | some x =>
      rw [hlast, Option.getD_some] at hbefore
      have hne : l.push .brk k ≠ nil := by
        intro h
        rw [h] at hlast
        cases hlast
      have hxi : i ≠ x := fun h => hip (h ▸ last_mem hlast)
      have hxnext := last_next hl hlast
      -- the list once the break behind it is cut off
      obtain ⟨hcut, hframe⟩ : (l.push .brk k).Holds .brk (h.setNext x none) ∧ ∀ y, y ∉ l.ids → h.setNext x none y = h y := by
        obtain rfl | rfl := htk
        · rw [append_nil] at hl
          rw [show h.setNext x none = h by rw [← show (h x).next = none from hxnext, setNext_next]]
          exact ⟨hl, fun _ _ => rfl⟩
        · obtain ⟨hcut, hxl⟩ := cut_holds hl hclean hids hlast
          exact ⟨hcut, fun y hy => setNext_ne _ (ne_of_mem_of_not_mem hxl hy).symm⟩
      refine ⟨(h.setNext x none).setNext i (h x).next, ?_, ?_, ?_, ?_⟩
      · refine Returns.bind hbefore ?_
        rw [setNext_ne _ hxi, hnext, first_append hne]
        exact Returns.const _
      · rw [setNext_self, setNext_ne _ hxi, hxnext]
      · exact hcut.frame fun y hy => setNext_ne _ (ne_of_mem_of_not_mem hy hip)
      · intro y hy hyi
        rw [setNext_ne _ hyi, hframe y hy]

/-- **The pass** on a list with `k` and then `t` behind it: induction on the list, where `k` has been transformed. -/
theorem transformList_pushes (l : Stmts E) {h : Heap E} {k t : Stmts E} (hl : ((l.join j k).append t).Holds j h)
    (hk : k.Holds j h) (hstable : k.Stable) (hids : l.ids.Nodup) (hd : ∀ x ∈ l.ids, x ∉ k.ids) (ht : Tail j t)
    (htd : ∀ x ∈ l.ids, x ∉ t.ids) (htk : t = nil ∨ k = nil) (hbrk : j = .brk → l.Clean ∧ k.hasJump = false) :
    ∃ h', Pushes j h l k t h' := by
  induction l generalizing h k t with
  | nil =>
    refine ⟨h, ?_, hl, fun _ _ => rfl⟩
    obtain rfl | rfl := htk
    · rw [append_nil]
      exact transformList_stable hk hstable fun hj => (hbrk hj).2
    · have hnone := firstIf_returns hl
      obtain rfl | ⟨-, i, e, rfl⟩ := ht
      · exact transformList_none hnone
      · exact transformList_none hnone
  | assign i e l ih =>
    obtain ⟨hni, hnd⟩ := List.nodup_cons.1 hids
    obtain ⟨h', hT, hpush, hrest⟩ := ih hl.2 hk hstable hnd (fun x hx => hd x (.tail _ hx)) ht
      (fun x hx => htd x (.tail _ hx)) htk hbrk
    have hfirst := firstIf_returns hl
    have hlater := firstIf_returns hl.2
    refine ⟨h', transformList_skip hfirst hlater hT, ⟨?_, hpush⟩, fun x hx => hrest x fun h => hx (.tail _ h)⟩
    rw [hrest i hni, hl.1, first_append_congr (first_push j l k)]
  | jump i e l ih =>
    obtain ⟨hni, hnd⟩ := List.nodup_cons.1 hids
    by_cases hnil : l = nil
    · subst hnil
      have hsame : (jump i e nil).push j k = (jump i e nil).join j k := rfl
      refine ⟨h, transformList_none ?_, by rw [hsame]; exact hl, fun _ _ => rfl⟩
      have hfirst := firstIf_returns hl
      have hnone : (((jump i e nil).join j k).append t).fromIf = nil := by
        unfold join
        obtain rfl | ⟨-, i', e', rfl⟩ := ht <;> split <;> rfl
      rw [hnone] at hfirst
      exact hfirst
    · rw [join_jump i e hnil] at hl
      have hbrk' : j = .brk → l.Clean ∧ k.hasJump = false := fun hj => absurd (hbrk hj).1 hnil
      obtain ⟨h', hT, hpush, hrest⟩ := ih hl.2 hk hstable hnd (fun x hx => hd x (.tail _ hx)) ht
        (fun x hx => htd x (.tail _ hx)) htk hbrk'
      have hfirst := firstIf_returns hl
      have hlater := firstIf_returns hl.2
      refine ⟨h', ?_, ?_, fun x hx => hrest x fun h => hx (.tail _ h)⟩
      · rw [join_jump i e hnil]
        exact transformList_skip hfirst hlater hT
      · rw [push_jump i e hnil]
        exact ⟨by rw [hrest i hni, hl.1, first_append_congr (first_push j l k)], hpush⟩
  | ite i e a b l iha ihb ihl =>
    have hfirst := firstIf_returns hl
    have hfrom : (((Stmts.ite i e a b l).join j k).append t).fromIf =
        if a.hasJump || b.hasJump then ((Stmts.ite i e a b l).join j k).append t else ((l.join j k).append t).fromIf := rfl
    rw [hfrom] at hfirst
    obtain ⟨hi, ha, hb, hl⟩ := hl
    simp only [ids, List.nodup_cons, List.nodup_append, List.mem_append, not_or] at hids
    obtain ⟨⟨⟨hia, hib⟩, hil⟩, ⟨hnda, hndb, hdab⟩, hndl, hdl⟩ := hids
    simp only [ids, List.mem_cons, List.mem_append] at hd htd
    have hclean : j = .brk → a.Clean ∧ b.Clean ∧ l.Clean := fun hj => (hbrk hj).1
    obtain ⟨h₁, hT, hpush, hrest⟩ := ihl hl hk hstable hndl (fun x hx => hd x (.inr (.inr hx))) ht
      (fun x hx => htd x (.inr (.inr hx))) htk fun hj => ⟨(hclean hj).2.2, (hbrk hj).2⟩
    have ha₁ : a.Holds j h₁ := ha.frame fun x hx => hrest x fun hxl => hdl x (.inl hx) x hxl rfl
    have hb₁ : b.Holds j h₁ := hb.frame fun x hx => hrest x fun hxl => hdl x (.inr hx) x hxl rfl
    have hi₁ : h₁ i = ⟨.stIf, some e, a.first, b.first, ((l.push j k).append t).first⟩ := by
      rw [hrest i hil, hi, first_append_congr (first_push j l k)]
    by_cases hj : a.hasJump || b.hasJump
    · rw [if_pos hj] at hfirst
      have hnext : (h i).next = ((l.join j k).append t).first := congrArg CHtfeStatement.next hi
      have hlater := transformLater_returns hl hnext hT
      have hemb := isEmbedded_returns (l := .ite i e a b ((l.push j k).append t)) ⟨hi₁, ha₁, hb₁, hpush⟩
      rw [hasJump_ite hj] at hemb
      -- no node of a branch is in the list that both branches get
      have hip : i ∉ (l.push j k).ids := fun h => (push_ids h).elim hil (hd i (.inl rfl))
      have hap : ∀ x ∈ a.ids, x ∉ (l.push j k).ids := fun x hx h =>
        (push_ids h).elim (fun hxl => hdl x (.inl hx) x hxl rfl) (hd x (.inr (.inl (.inl hx))))
      have hbp : ∀ x ∈ b.ids, x ∉ (l.push j k).ids := fun x hx h =>
        (push_ids h).elim (fun hxl => hdl x (.inr hx) x hxl rfl) (hd x (.inr (.inl (.inr hx))))
      have hrestJump : j = .brk → (l.push j k).hasJump = false := by
        rintro rfl
        exact push_hasJump (hclean rfl).2.2 (hbrk rfl).2
      have htailSame : ∀ x ∈ t.ids, x ∉ l.ids ∧ x ≠ i ∧ x ∉ a.ids ∧ x ∉ b.ids := fun x hx =>
        ⟨fun h => htd x (.inr (.inr h)) hx, fun h => htd x (.inl h) hx, fun h => htd x (.inr (.inl (.inl h))) hx,
          fun h => htd x (.inr (.inl (.inr h))) hx⟩
      have hnext₁ : (h₁ i).next = ((l.push j k).append t).first := congrArg CHtfeStatement.next hi₁
      obtain ⟨h₂, hD, hi₂, hpush₂, hrest₂⟩ := detach_returns hnext₁ hpush hndl hip ht htk fun hj =>
        ⟨(hclean hj).2.2, (hbrk hj).2⟩
      rw [hi₁] at hi₂
      have hslot₂ : h₂.get (.compound1 i) = a.first := congrArg CHtfeStatement.compound1 hi₂
      have ha₂ : a.Holds j h₂ := ha₁.frame fun x hx =>
        hrest₂ x (fun hxl => hdl x (.inl hx) x hxl rfl) (ne_of_mem_of_not_mem hx hia)
      obtain ⟨h₃, hT₃, hpush₃, hi₃, hrest₃⟩ := transformIfList_returns hslot₂ ha₂ hpush₂ hnda hap hia hip
        fun g hg hpg => iha (t := nil) (by rw [append_nil]; exact hg) hpg (stable_push hstable) hnda hap (.inl rfl)
          (fun _ _ => List.not_mem_nil) (.inl rfl) fun hj => ⟨(hclean hj).1, hrestJump hj⟩
      replace hi₃ : h₃ i = ⟨.stIf, some e, (a.push j (l.push j k)).first, b.first, t.first⟩ := by
        refine Eq.trans hi₃ ?_
        simp [Heap.set, Slot.owner, hi₂]
      have hslot₃ : h₃.get (.compound2 i) = b.first := congrArg CHtfeStatement.compound2 hi₃
      have hb₃ : b.Holds j h₃ := hb₁.frame fun x hx => by
        have hxi := ne_of_mem_of_not_mem hx hib
        rw [hrest₃ x (fun hxa => hdab x hxa x hx rfl) hxi, hrest₂ x (fun hxl => hdl x (.inr hx) x hxl rfl) hxi]
      have hpushed₃ : (l.push j k).Holds j h₃ := hpush₂.frame fun x hx =>
        hrest₃ x (fun hxa => hap x hxa hx) (ne_of_mem_of_not_mem hx hip)
      obtain ⟨h₄, hT₄, hpush₄, hi₄, hrest₄⟩ := transformIfList_returns hslot₃ hb₃ hpushed₃ hndb hbp hib hip
        fun g hg hpg => ihb (t := nil) (by rw [append_nil]; exact hg) hpg (stable_push hstable) hndb hbp (.inl rfl)
          (fun _ _ => List.not_mem_nil) (.inl rfl) fun hj => ⟨(hclean hj).2.1, hrestJump hj⟩
      replace hi₄ : h₄ i = ⟨.stIf, some e, (a.push j (l.push j k)).first, (b.push j (l.push j k)).first, t.first⟩ := by
        refine Eq.trans hi₄ ?_
        simp [Heap.set, Slot.owner, hi₃]
      have hframe : ∀ x, x ∉ a.ids → x ∉ b.ids → x ∉ l.ids → x ≠ i → h₄ x = h₁ x := fun x hxa hxb hxl hxi => by
        rw [hrest₄ x hxb hxi, hrest₃ x hxa hxi, hrest₂ x hxl hxi]
      refine ⟨h₄, ?_, ?_, fun x hx => ?_⟩
      · refine transformList_some hfirst (Returns.bind hlater (Returns.bind hemb (Returns.bind hD ?_)))
        exact Returns.bind hT₃ hT₄
      · rw [push_ite, if_pos hj]
        refine ⟨hi₄, hpush₃.frame fun x hx => hrest₄ x ?_ ?_, hpush₄, ?_⟩
        · intro hxb
          exact (push_ids hx).elim (fun hxa => hdab x hxa x hxb rfl) (hbp x hxb)
        · rintro rfl
          exact (push_ids hx).elim hia hip
        · refine hpush.right.frame fun x hx => ?_
          obtain ⟨hxl, hxi, hxa, hxb⟩ := htailSame x hx
          exact hframe x hxa hxb hxl hxi
      · simp only [ids, List.mem_cons, List.mem_append, not_or] at hx
        rw [hframe x hx.2.1.1 hx.2.1.2 hx.2.2 hx.1, hrest x hx.2.2]
    · rw [if_neg hj] at hfirst
      have hpush' : (Stmts.ite i e a b l).push j k = Stmts.ite i e a b (l.push j k) := if_neg hj
      have hlater := firstIf_returns hl
      refine ⟨h₁, transformList_skip hfirst hlater hT, ?_, fun x hx => hrest x fun hxl => hx ?_⟩
      · rw [hpush']
        exact ⟨hi₁, ha₁, hb₁, hpush⟩
      · exact .tail _ (List.mem_append_right _ hxl)

end OpenHT.Htfe
