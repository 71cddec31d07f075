import OpenHT.Htfe.SwitchParse

/-!
# Running a parsed switch

* `execC`: the switch of C.
* `Selects`: the labels that a switch on a constant selects as C does.
* `switch_lowering_preserves`: the parsed switch executes the same assignments.
-/

namespace OpenHT.Htfe

open Fuel Heap Stmts Clause

variable {E : Type} {h h' : Heap E} {l k t : Stmts E} {constOf : E → Option Int}

section

variable {S : Type} {m : Meaning E S}

attribute [local simp] Heap.findLabel

attribute [local simp] anyBad

theorem task_append (l k : Stmts E) (s : S) : (l.append k).task m s = k.task m (l.task m s) := by
  induction l generalizing s with
  | nil => rfl
  | assign i e l ih => exact ih _
  | jump i e l ih => exact ih _
  | ite i e a b l iha ihb ihl => exact ihl _

theorem call_append (l k : Stmts E) (s : S) :
    (l.append k).call m s = if (l.call m s).1 then l.call m s else k.call m (l.call m s).2 := by
  induction l generalizing s with
  | nil => rfl
  | assign i e l ih => exact ih _
  | jump i e l ih => rfl
  | ite i e a b l iha ihb ihl =>
    have happ : (Stmts.ite i e a b l).append k = Stmts.ite i e a b (l.append k) := rfl
    rw [happ, call_ite, call_ite]
    split
    next => rfl
    next => exact ihl _

theorem call_no_jump (hl : l.hasJump = false) (s : S) : l.call m s = (false, l.task m s) := by
  induction l generalizing s with
  | nil => rfl
  | assign i e l ih => exact ih hl _
  | jump i e l ih => cases hl
  | ite i e a b l iha ihb ihl =>
    simp only [hasJump, Bool.or_eq_false_iff] at hl
    have hbranch : (branch m e a b s).call m s = (false, (branch m e a b s).task m s) :=
      branch_ind (p := fun c => c.call m s = (false, c.task m s)) (iha hl.1.1 s) (ihb hl.1.2 s) s
    rw [call_ite, task_ite, hbranch]
    exact ihl hl.2 _

theorem call_upTo (ht : t.topJump) (k : Stmts E) (s : S) : (t.append k).call m s = t.upTo.call m s := by
  induction t generalizing s with
  | nil => cases ht
  | assign i e l ih => exact ih ht _
  | jump i e l ih => rfl
  | ite i e a b l iha ihb ihl =>
    have happ : (Stmts.ite i e a b l).append k = Stmts.ite i e a b (l.append k) := rfl
    have hupTo : (Stmts.ite i e a b l).upTo = Stmts.ite i e a b l.upTo := rfl
    rw [happ, hupTo, call_ite, call_ite, ihl ht]

/-- What the parser takes off is not executed. -/
theorem call_kept (ts : List (Stmts E)) (s : S) : (flat ts).call m s = (kept ts).call m s := by
  induction ts generalizing s with
  | nil => rfl
  | cons t ts ih =>
    have hflat : flat (t :: ts) = t.append (flat ts) := rfl
    rw [hflat, kept_cons]
    split
    next ht => exact call_upTo ht _ s
    next => rw [call_append, call_append, ih]

theorem call_endsInJump (hl : l.endsInJump) (s : S) : (l.call m s).1 = true := by
  induction l generalizing s with
  | nil => cases hl
  | assign i e l ih => exact ih hl _
  | jump i e l ih => rfl
  | ite i e a b l iha ihb ihl =>
    rw [call_ite]
    split
    next h => exact h
    next => exact ihl hl _

variable (hm : ∀ e s, m.jump e s = s)

include hm

/-- **Breaks taken out of a list**: the rest `k` is executed if no break is met. -/
theorem task_push_brk (hl : l.Clean) (k : Stmts E) (s : S) :
    (l.push .brk k).task m s = if (l.call m s).1 then (l.call m s).2 else k.task m (l.call m s).2 := by
  induction l generalizing k s with
  | nil => rfl
  | assign i e l ih => exact ih hl k _
  | jump i e l ih =>
    obtain rfl : l = nil := hl
    exact (hm e s).symm
  | ite i e a b l iha ihb ihl =>
    obtain ⟨ha, hb, hl⟩ := hl
    rw [push_ite, call_ite]
    split
    next =>
      have hpush : branch m e (a.push .brk (l.push .brk k)) (b.push .brk (l.push .brk k)) s =
          (branch m e a b s).push .brk (l.push .brk k) := by
        unfold branch
        split <;> rfl
      have hbranch := branch_ind (p := fun c => ∀ k s, (c.push .brk k).task m s =
        if (c.call m s).1 then (c.call m s).2 else k.task m (c.call m s).2) (iha ha) (ihb hb) (m := m) (e := e) s
      have hnil : ∀ s, (nil : Stmts E).task m s = s := fun _ => rfl
      rw [task_ite, hpush, hbranch, hnil]
      split
      · rfl
      · exact ihl hl k _
    next hj =>
      simp only [Bool.or_eq_true, not_or, Bool.not_eq_true] at hj
      have hbranch : (branch m e a b s).call m s = (false, (branch m e a b s).task m s) :=
        branch_ind (p := fun c => c.call m s = (false, c.task m s)) (call_no_jump hj.1 s) (call_no_jump hj.2 s) s
      rw [task_ite, hbranch]
      exact ihl hl k _

theorem task_finalBreak (l : Stmts E) (s : S) : (finalBreak l).task m s = s ∧ ((finalBreak l).call m s).2 = s := by
  obtain hnil | ⟨-, i, e, hjump⟩ := finalBreak_tail l
  · rw [hnil]
    exact ⟨rfl, rfl⟩
  · rw [hjump]
    exact ⟨hm e s, hm e s⟩

/-- **A body** executes what it does in C. -/
theorem task_outBody {c : Clause E (Stmts E)} (hc : c.Sound) (s : S) :
    c.outBody.task m s = (c.bodyC.call m s).2 ∧ c.lowered.task m s = (c.bodyC.call m s).2 := by
  have hkept : c.bodyC.call m s = c.keptBody.call m s := call_kept _ s
  have happ := dropJump_append c.keptBody
  have hlow : c.lowered.task m s = (c.bodyC.call m s).2 := by
    have hcall := call_append (m := m) c.keptBody.dropJump (finalBreak c.keptBody) s
    rw [happ] at hcall
    rw [lowered, task_push_brk hm (clean_dropJump hc.clean).1, hkept, hcall]
    split
    · rfl
    · exact (task_finalBreak hm _ _).2.symm
  refine ⟨?_, hlow⟩
  rw [outBody, task_append, (task_finalBreak hm _ _).1, hlow]

end

/-- The bodies from a label on, up to a break. -/
def runFrom {S : Type} (m : Meaning E S) : List (Clause E (Stmts E)) → S → S
  | [], s => s
  | c :: cs, s => if (c.bodyC.call m s).1 then (c.bodyC.call m s).2 else runFrom m cs (c.bodyC.call m s).2

/-- The labels from the first one with a property on. -/
def fromLabel (p : Clause E (Stmts E) → Bool) (cs : List (Clause E (Stmts E))) : List (Clause E (Stmts E)) :=
  cs.dropWhile fun c => !p c

/-- The label of a value. -/
def hasValue (constOf : E → Option Int) (v : Int) (c : Clause E (Stmts E)) : Bool := (c.label >>= constOf) = some v

def isDefaultLabel (c : Clause E (Stmts E)) : Bool := c.label.isNone

/-- The labels from the one that is selected on. -/
def selectedLabels (constOf : E → Option Int) (v : Int) (cs : List (Clause E (Stmts E))) : List (Clause E (Stmts E)) :=
  if (fromLabel (hasValue constOf v) cs).isEmpty then fromLabel isDefaultLabel cs else fromLabel (hasValue constOf v) cs

/-- The switch of C. -/
def execC {S : Type} (constOf : E → Option Int) (m : Meaning E S) (value : E → S → Int) (e : E)
    (cs : List (Clause E (Stmts E))) (s : S) : S :=
  runFrom m (selectedLabels constOf (value e s) cs) s

/-- The first body from a label on. -/
def firstBody : List (Clause E (Stmts E)) → Stmts E
  | [] => nil
  | c :: cs => if c.outBody.first.isNone then firstBody cs else c.outBody

section

variable {cs : List (Clause E (Stmts E))}

theorem casesHold_fromLabel (p : Clause E (Stmts E) → Bool) (hcs : CasesHold h cs) : CasesHold h (fromLabel p cs) := by
  induction cs with
  | nil => exact hcs
  | cons c cs ih =>
    unfold fromLabel
    rw [List.dropWhile_cons]
    split
    · exact ih hcs.2.2
    · exact hcs

theorem findLabel_returns {p : CHtfeStatement E → Bool} {q : Clause E (Stmts E) → Bool}
    (hpq : ∀ c next, p (Clause.node c next) = q c) (hcs : CasesHold h cs) :
    Returns (findLabel p · h (firstLabel cs)) (firstLabel (fromLabel q cs)) := by
  induction cs with
  | nil => exact Returns.succ (fun n => rfl) (Returns.const none)
  | cons c cs ih =>
    obtain ⟨hc, -, hcs⟩ := hcs
    have hfrom : fromLabel q (c :: cs) = if !q c then fromLabel q cs else c :: cs := List.dropWhile_cons
    rw [hfrom]
    cases hq : q c with
    | true =>
      refine Returns.succ (fun n => ?_) (Returns.const (some c.id))
      simp only [findLabel, firstLabel, List.head?_cons, Option.map_some, hc, hpq, hq, if_true]
    | false =>
      refine Returns.succ (fun n => ?_) (ih hcs)
      simp only [findLabel, firstLabel, List.head?_cons, Option.map_some, hc, hpq, hq, Bool.false_eq_true, if_false]
      rfl

theorem labelBody_returns (hcs : CasesHold h cs) :
    Returns (labelBody · h (firstLabel cs)) (firstBody cs).first ∧ (firstBody cs).Holds .brk h := by
  induction cs with
  | nil => exact ⟨Returns.succ (fun n => rfl) (Returns.const none), trivial⟩
  | cons c cs ih =>
    obtain ⟨hc, hout, hcs⟩ := hcs
    obtain ⟨hret, hholds⟩ := ih hcs
    have hcomp : (h c.id).compound1 = c.outBody.first := congrArg CHtfeStatement.compound1 hc
    unfold firstBody
    cases hf : c.outBody.first with
    | none =>
      refine ⟨Returns.succ (fun n => ?_) hret, hholds⟩
      have hnext : (h c.id).next = firstLabel cs := congrArg CHtfeStatement.next hc
      simp only [labelBody, firstLabel, List.head?_cons, Option.map_some, hcomp, hf, if_true, hnext]
    | some x =>
      refine ⟨Returns.succ (fun n => ?_) (Returns.const _), hout⟩
      simp only [labelBody, firstLabel, List.head?_cons, Option.map_some, hcomp, hf, reduceCtorEq, if_false,
        Option.isNone_some, Bool.false_eq_true]

theorem out_first (c : Clause E (Stmts E)) (hc : c.Sound) : c.outBody.first = c.keptBody.first := by
  have hjoin : (c.keptBody.dropJump.join .brk nil).append (finalBreak c.keptBody) = c.keptBody := by
    rw [join_topJump (clean_dropJump hc.clean).2, append_nil, dropJump_append]
  rw [outBody, lowered, first_append_congr (first_push .brk _ nil), hjoin]

/-- A body stops the switch, unless it is the last. -/
theorem runFrom_stops {S : Type} {m : Meaning E S} {c : Clause E (Stmts E)} (hbody : c.body.isSome)
    (hbad : anyBad constOf (c :: cs) = false) (s : S) : runFrom m (c :: cs) s = (c.bodyC.call m s).2 := by
  unfold runFrom
  split
  · rfl
  next hstop =>
    cases cs with
    | nil => rfl
    | cons c' cs =>
      simp only [anyBad, bad, List.isEmpty_cons, Bool.not_false, hbody, Bool.true_and, Bool.or_eq_false_iff,
        Bool.not_eq_false'] at hbad
      have hcall : c.bodyC.call m s = c.keptBody.call m s := call_kept _ s
      rw [hcall] at hstop
      exact absurd (call_endsInJump hbad.1.2 s) hstop

/-- **From a label on**, the first body is what C executes, if every body but the last ends in a break. -/
theorem runFrom_firstBody {S : Type} {m : Meaning E S} (hm : ∀ e s, m.jump e s = s) (hsound : ∀ c ∈ cs, c.Sound)
    (hbad : anyBad constOf cs = false) (s : S) : (firstBody cs).task m s = runFrom m cs s := by
  induction cs with
  | nil => rfl
  | cons c cs ih =>
    have hall := hbad
    simp only [anyBad, Bool.or_eq_false_iff] at hbad
    have hih := ih (fun c hc => hsound c (.tail _ hc)) hbad.2
    obtain ⟨hout, -⟩ := task_outBody hm (hsound c (.head _)) s
    have hfirst := out_first c (hsound c (.head _))
    have hcall : c.bodyC.call m s = c.keptBody.call m s := call_kept _ s
    unfold firstBody
    cases hf : c.outBody.first with
    | none =>
      -- the body is that of the next label
      have hkept : c.keptBody = nil := first_eq_none.1 (hfirst.symm.trans hf)
      have hnone : c.bodyC.call m s = (false, s) := by
        rw [hcall, hkept]
        rfl
      unfold runFrom
      rw [hnone]
      exact hih
    | some x =>
      have hbody : c.body.isSome := by
        cases hbody : c.body with
        | some ts => rfl
        | none =>
          have hnil : c.keptBody = nil := by
            rw [keptBody, hbody]
            rfl
          rw [hfirst, hnil] at hf
          cases hf
      rw [Option.isNone_some, if_neg Bool.false_ne_true, hout, runFrom_stops hbody hall]

/-! ## A constant selector -/

theorem beforeBreak_last (hl : (l.append t).Holds .brk h) (hjump : l.hasJump = false) (ht : Tail .brk t) {i : ℕ}
    (hi : l.first = some i) : (h i).stType ≠ .stBreak ∧ ∃ x, l.last = some x ∧ Returns (beforeBreak · h i) x := by
  cases l with
  | nil => cases hi
  | assign i' e l =>
    obtain rfl := Option.some.inj hi
    refine ⟨by rw [hl.1]; exact EStType.noConfusion, _, rfl, ?_⟩
    exact beforeBreak_returns hl.2 hjump ht (congrArg CHtfeStatement.next hl.1)
  | jump i' e l => cases hjump
  | ite i' e a b l =>
    obtain rfl := Option.some.inj hi
    unfold hasJump at hjump
    refine ⟨by rw [hl.1]; exact EStType.noConfusion, _, rfl, ?_⟩
    exact beforeBreak_returns hl.2.2.2 (Bool.or_eq_false_iff.1 hjump).2 ht (congrArg CHtfeStatement.next hl.1)

/-- The selected body loses its break. -/
theorem selected_returns {c : Clause E (Stmts E)} (hc : c.Sound) (hids : c.bodyC.ids.Nodup) (hout : c.outBody.Holds .brk h) :
    ∃ h', Returns (selected · h c.outBody.first) (h', c.lowered.first) ∧ c.lowered.Holds .brk h' := by
  have hclean := (clean_dropJump hc.clean).1
  have hjump : c.lowered.hasJump = false := push_hasJump hclean rfl
  have hnd : c.keptBody.dropJump.ids.Nodup := by
    have hkept : c.keptBody.ids.Nodup := hids.sublist (kept_sublist _)
    rw [← dropJump_append c.keptBody, append_ids] at hkept
    exact (List.nodup_append.1 hkept).1
  cases hf : c.lowered.first with
  | none =>
    have hnil := first_eq_none.1 hf
    refine ⟨h, ?_, by rw [hnil]; exact trivial⟩
    refine Returns.congr ⟨0, fun n _ => ?_⟩ (Returns.const _)
    have hfirst : c.outBody.first = (finalBreak c.keptBody).first := by
      rw [outBody, hnil]
      rfl
    rw [hfirst]
    obtain hnil' | ⟨-, i, e, hjump'⟩ := finalBreak_tail c.keptBody
    · rw [hnil']
      rfl
    · have htype : (h i).stType = .stBreak := by
        rw [outBody, hnil, hjump'] at hout
        exact congrArg CHtfeStatement.stType hout.1
      rw [hjump', first, selected, if_pos htype]
  | some i =>
    have hne : c.lowered ≠ nil := by
      intro hnil
      rw [hnil] at hf
      cases hf
    obtain ⟨htype, x, hlast, hret⟩ := beforeBreak_last hout hjump (finalBreak_tail _) hf
    obtain ⟨hcut, -⟩ := cut_holds hout hclean hnd hlast
    refine ⟨h.setNext x none, ?_, hcut⟩
    rw [outBody, first_append hne, hf]
    refine Returns.congr ⟨0, fun n _ => ?_⟩ (Returns.bind (k := fun x _ => some (h.setNext x none, some i)) hret
      (Returns.const _))
    rw [selected, if_neg htype]

theorem pick_none {p : Clause E (Stmts E) → Bool} (stmt : Option ℕ) (hcs : ∀ c ∈ cs, p c = false) :
    pick p stmt cs = stmt := by
  induction cs generalizing stmt with
  | nil => rfl
  | cons c cs ih =>
    unfold pick
    rw [hcs c (.head _), Bool.and_false, if_neg Bool.false_ne_true]
    exact ih stmt fun c hc => hcs c (.tail _ hc)

/-- Where one label has a property, its body is picked, if it is the last label of its group. -/
theorem pick_one {p : Clause E (Stmts E) → Bool} {c : Clause E (Stmts E)} {rest : List (Clause E (Stmts E))}
    (stmt : Option ℕ) (hfrom : fromLabel p cs = c :: rest) (hone : (cs.filter p).length ≤ 1) :
    c ∈ cs ∧ p c = true ∧ pick p stmt cs = if c.body.isSome then c.outBody.first else stmt := by
  induction cs with
  | nil => cases hfrom
  | cons c' cs ih =>
    have hstep : fromLabel p (c' :: cs) = if !p c' then fromLabel p cs else c' :: cs := List.dropWhile_cons
    rw [hstep] at hfrom
    cases hp : p c' with
    | false =>
      rw [hp] at hfrom
      rw [List.filter_cons_of_neg (by simp [hp])] at hone
      obtain ⟨hmem, hpc, hpick⟩ := ih hfrom hone
      refine ⟨.tail _ hmem, hpc, ?_⟩
      unfold pick
      rw [hp, Bool.and_false, if_neg Bool.false_ne_true]
      exact hpick
    | true =>
      rw [hp] at hfrom
      obtain ⟨rfl, rfl⟩ := List.cons.inj hfrom
      rw [List.filter_cons_of_pos hp, List.length_cons] at hone
      have hempty : cs.filter p = [] := List.length_eq_zero_iff.1 (by omega)
      refine ⟨.head _, hp, ?_⟩
      unfold pick
      rw [hp, Bool.and_true]
      exact pick_none _ fun c hc => Bool.eq_false_iff.2 (List.filter_eq_nil_iff.1 hempty c hc)

/-- **The label that C selects** is the last of its group, and has statements if there is a default. -/
def Selects (constOf : E → Option Int) (v : Int) (cs : List (Clause E (Stmts E))) : Prop :=
  match fromLabel (hasValue constOf v) cs with
  | c :: _ => c.body.isSome ∧ (c.keptBody ≠ nil ∨ ∀ c' ∈ cs, c'.label.isSome)
  | [] => ∀ c ∈ (fromLabel isDefaultLabel cs).head?, c.body.isSome

/-- The statements of the default label itself. -/
def defaultBody (cs : List (Clause E (Stmts E))) : Stmts E :=
  ((fromLabel isDefaultLabel cs).head?.map bodyC).getD nil

/-- What the parser takes for a constant selector. -/
def constStmt (constOf : E → Option Int) (v : Int) (cs : List (Clause E (Stmts E))) : Option ℕ :=
  (pick (hasValue constOf v) none cs).or (pick isDefaultLabel none cs)

theorem anyBad_fromLabel (constOf : E → Option Int) (p : Clause E (Stmts E) → Bool) (hbad : anyBad constOf cs = false) :
    anyBad constOf (fromLabel p cs) = false := by
  induction cs with
  | nil => rfl
  | cons c cs ih =>
    unfold fromLabel
    rw [List.dropWhile_cons]
    split
    · exact ih (Bool.or_eq_false_iff.1 hbad).2
    · exact hbad

theorem fromLabel_subset (p : Clause E (Stmts E) → Bool) : fromLabel p cs ⊆ cs := (List.dropWhile_sublist _).subset

theorem fromLabel_nil {p : Clause E (Stmts E) → Bool} (h : fromLabel p cs = []) : ∀ c ∈ cs, p c = false := by
  induction cs with
  | nil => exact fun c hc => absurd hc List.not_mem_nil
  | cons c cs ih =>
    have hstep : fromLabel p (c :: cs) = if !p c then fromLabel p cs else c :: cs := List.dropWhile_cons
    rw [hstep] at h
    cases hp : p c with
    | true =>
      rw [hp] at h
      cases h
    | false =>
      rw [hp] at h
      exact List.forall_mem_cons.2 ⟨hp, ih h⟩

theorem out_none {c : Clause E (Stmts E)} (hbody : c.body.isSome = false) : c.outBody = nil := by
  have hkept : c.keptBody = nil := by
    rw [Bool.eq_false_iff, Ne, Option.not_isSome_iff_eq_none] at hbody
    rw [keptBody, hbody]
    rfl
  rw [outBody, lowered, hkept]
  rfl

/-- The list that is taken is what is left of `body`. -/
def Taken (cs : List (Clause E (Stmts E))) (p : Option ℕ) (body : Stmts E) : Prop :=
  (∃ c ∈ cs, p = c.outBody.first ∧ body = c.bodyC) ∨ (p = none ∧ body = nil)

/-- What is taken for a default is its own body. -/
theorem pick_default (hdefault : (cs.filter isDefaultLabel).length ≤ 1) :
    Taken cs (pick isDefaultLabel none cs) (defaultBody cs) := by
  unfold defaultBody
  cases hd : fromLabel isDefaultLabel cs with
  | nil => exact .inr ⟨pick_none none (fromLabel_nil hd), rfl⟩
  | cons c rest =>
    obtain ⟨hmem, -, hpick⟩ := pick_one none hd hdefault
    refine .inl ⟨c, hmem, ?_, rfl⟩
    rw [hpick]
    split
    · rfl
    next hbody =>
      rw [out_none (Bool.eq_false_iff.2 hbody)]
      rfl

/-- **A constant selector** that selects as C does: the parser takes the body that C executes. -/
theorem constStmt_selected {v : Int} (hsel : Selects constOf v cs) (hbad : anyBad constOf cs = false)
    (hvalues : (cs.filter (hasValue constOf v)).length ≤ 1) (hdefault : (cs.filter isDefaultLabel).length ≤ 1)
    (hsound : ∀ c ∈ cs, c.Sound) :
    ∃ body, Taken cs (constStmt constOf v cs) body ∧ ∀ (S : Type) (m : Meaning E S) (s : S),
      (body.call m s).2 = runFrom m (selectedLabels constOf v cs) s := by
  unfold Selects at hsel
  unfold constStmt selectedLabels
  cases hv : fromLabel (hasValue constOf v) cs with
  | cons c rest =>
    rw [hv] at hsel
    obtain ⟨hmem, -, hpick⟩ := pick_one none hv hvalues
    have hbadv := anyBad_fromLabel constOf (hasValue constOf v) hbad
    rw [hv] at hbadv
    refine ⟨c.bodyC, .inl ⟨c, hmem, ?_, rfl⟩, fun S m s => (runFrom_stops hsel.1 hbadv s).symm⟩
    rw [hpick, if_pos hsel.1]
    obtain hne | hno := hsel.2
    · have hsome : c.outBody.first ≠ none := by
        rw [out_first c (hsound c hmem), Ne, first_eq_none]
        exact hne
      obtain ⟨x, hx⟩ := Option.ne_none_iff_exists'.1 hsome
      rw [hx]
      rfl
    · rw [pick_none none fun c' hc' => by rw [isDefaultLabel, ← Option.not_isSome, hno c' hc']; rfl, Option.or_none]
  | nil =>
    -- no label has the value, and the default is taken
    rw [hv] at hsel
    rw [pick_none none (fromLabel_nil hv), Option.none_or, List.isEmpty_nil, if_pos rfl]
    cases hd : fromLabel isDefaultLabel cs with
    | cons c rest =>
      rw [hd] at hsel
      have hbody := hsel c rfl
      obtain ⟨hmem, -, hpick⟩ := pick_one none hd hdefault
      have hbadd := anyBad_fromLabel constOf isDefaultLabel hbad
      rw [hd] at hbadd
      refine ⟨c.bodyC, .inl ⟨c, hmem, ?_, rfl⟩, fun S m s => (runFrom_stops hbody hbadd s).symm⟩
      rw [hpick, if_pos hbody]
    | nil => exact ⟨nil, .inr ⟨pick_none none (fromLabel_nil hd), rfl⟩, fun S m s => rfl⟩

/-- Otherwise it takes that of the default label. -/
theorem constStmt_default {v : Int} (hsel : ¬Selects constOf v cs) (hvalues : (cs.filter (hasValue constOf v)).length ≤ 1)
    (hsound : ∀ c ∈ cs, c.Sound) : constStmt constOf v cs = pick isDefaultLabel none cs := by
  unfold Selects at hsel
  unfold constStmt
  cases hv : fromLabel (hasValue constOf v) cs with
  | nil => rw [pick_none none (fromLabel_nil hv), Option.none_or]
  | cons c rest =>
    rw [hv] at hsel
    obtain ⟨hmem, -, hpick⟩ := pick_one none hv hvalues
    have hnone : (if c.body.isSome then c.outBody.first else none) = none := by
      split
      next hbody =>
        have hnil : c.keptBody = nil := Classical.byContradiction fun hne => hsel ⟨hbody, .inl hne⟩
        rw [out_first c (hsound c hmem), hnil]
        rfl
      · rfl
    rw [hpick, hnone, Option.none_or]

/-- In any case a list of a body is taken. -/
theorem constStmt_taken (constOf : E → Option Int) (v : Int) (hvalues : (cs.filter (hasValue constOf v)).length ≤ 1)
    (hdefault : (cs.filter isDefaultLabel).length ≤ 1) : ∃ body, Taken cs (constStmt constOf v cs) body := by
  unfold constStmt
  have hnone : pick (hasValue constOf v) none cs = none →
      ∃ body, Taken cs ((pick (hasValue constOf v) none cs).or (pick isDefaultLabel none cs)) body := by
    intro h
    rw [h, Option.none_or]
    exact ⟨_, pick_default hdefault⟩
  cases hv : fromLabel (hasValue constOf v) cs with
  | nil => exact hnone (pick_none none (fromLabel_nil hv))
  | cons c rest =>
    obtain ⟨hmem, -, hpick⟩ := pick_one none hv hvalues
    cases hp : pick (hasValue constOf v) none cs with
    | none =>
      rw [hp] at hnone
      exact hnone rfl
    | some x =>
      have hbody : c.body.isSome := Classical.byContradiction fun hbody => by
        rw [if_neg hbody, hp] at hpick
        cases hpick
      rw [if_pos hbody, hp] at hpick
      exact ⟨c.bodyC, .inl ⟨c, hmem, hpick, rfl⟩⟩

theorem casesHold_mem {c : Clause E (Stmts E)} (hcs : CasesHold h cs) (hc : c ∈ cs) : c.outBody.Holds .brk h := by
  induction cs with
  | nil => cases hc
  | cons c' cs ih =>
    obtain _ | ⟨_, hc⟩ := hc
    · exact hcs.2.1
    · exact ih hcs.2.2 hc

theorem labelIds_nodup {c : Clause E (Stmts E)} (hids : (labelIds cs).Nodup) (hc : c ∈ cs) : c.ids.Nodup := by
  induction cs with
  | nil => cases hc
  | cons c' cs ih =>
    obtain ⟨hnd, hnds, -⟩ := List.nodup_append.1 hids
    obtain _ | ⟨_, hc⟩ := hc
    · exact hnd
    · exact ih hnds hc

/-- The list that is taken, without its break, executes what its body does in C. -/
theorem taken_returns {p : Option ℕ} {body : Stmts E} (htaken : Taken cs p body) (hcs : CasesHold h cs)
    (hids : (labelIds cs).Nodup) (hsound : ∀ c ∈ cs, c.Sound) :
    ∃ (h' : Heap E) (l : Stmts E), Returns (selected · h p) (h', l.first) ∧ l.Holds .brk h' ∧ l.hasJump = false ∧
      ∀ (S : Type) (m : Meaning E S) (s : S), (∀ e s, m.jump e s = s) → l.task m s = (body.call m s).2 := by
  obtain ⟨c, hc, rfl, rfl⟩ | ⟨rfl, rfl⟩ := htaken
  · have hnd := (List.nodup_cons.1 (labelIds_nodup hids hc)).2
    obtain ⟨h', hret, hholds⟩ := selected_returns (hsound c hc) hnd (casesHold_mem hcs hc)
    have hjump : c.lowered.hasJump = false := push_hasJump (clean_dropJump (hsound c hc).clean).1 rfl
    exact ⟨h', c.lowered, hret, hholds, hjump, fun S m s hm => (task_outBody hm (hsound c hc) s).2⟩
  · exact ⟨h, nil, Returns.const _, trivial, rfl, fun S m s _ => rfl⟩

/-! ## The whole switch -/

theorem isCase_node (constOf : E → Option Int) (v : Int) (c : Clause E (Stmts E)) (next : Option ℕ) :
    isCase constOf v (c.node next) = hasValue constOf v c := by
  unfold isCase hasValue Clause.node
  cases hl : c.label with
  | none => simp
  | some e => simp

theorem isDefault_node (c : Clause E (Stmts E)) (next : Option ℕ) : isDefault (c.node next) = isDefaultLabel c := by
  unfold isDefault isDefaultLabel Clause.node
  cases c.label <;> rfl

theorem or_firstLabel (constOf : E → Option Int) (v : Int) (cs : List (Clause E (Stmts E))) :
    (firstLabel (fromLabel (hasValue constOf v) cs)).or (firstLabel (fromLabel isDefaultLabel cs)) =
      firstLabel (selectedLabels constOf v cs) := by
  unfold selectedLabels
  cases hv : fromLabel (hasValue constOf v) cs with
  | nil => rfl
  | cons c rest => rfl

theorem selectedLabels_ind {p : List (Clause E (Stmts E)) → Prop} (hp : ∀ q, p (fromLabel q cs)) (v : Int) :
    p (selectedLabels constOf v cs) := by
  unfold selectedLabels
  split
  · exact hp _
  · exact hp _

/-- **The generated switch** executes what C's does. -/
theorem execSwitch_returns {S : Type} {m : Meaning E S} {value : E → S → Int} {e : E} {pSwitch : ℕ}
    (hm : ∀ e s, m.jump e s = s) (hexpr : (h pSwitch).expr = some e) (hfirst : (h pSwitch).compound1 = firstLabel cs)
    (hcs : CasesHold h cs) (hsound : ∀ c ∈ cs, c.Sound) (hbad : anyBad constOf cs = false) (s : S) :
    Returns (execSwitch constOf m value · h pSwitch s) (execC constOf m value e cs s) := by
  have hcase := findLabel_returns (isCase_node constOf (value e s)) hcs
  have hdefault := findLabel_returns isDefault_node hcs
  have hholds : CasesHold h (selectedLabels constOf (value e s) cs) :=
    selectedLabels_ind (fun q => casesHold_fromLabel q hcs) _
  have hbad' : anyBad constOf (selectedLabels constOf (value e s) cs) = false :=
    selectedLabels_ind (p := fun cs => anyBad constOf cs = false) (fun q => anyBad_fromLabel constOf q hbad) _
  have hsound' : ∀ c ∈ selectedLabels constOf (value e s) cs, c.Sound :=
    selectedLabels_ind (p := fun cs => ∀ c ∈ cs, c.Sound) (fun q c hc => hsound c (fromLabel_subset q hc)) _
  obtain ⟨hbody, hlist⟩ := labelBody_returns hholds
  have hexec := exec_returns (m := m) hlist s
  rw [runFrom_firstBody hm hsound' hbad'] at hexec
  rw [← or_firstLabel] at hbody
  obtain ⟨N₁, h₁⟩ := hcase
  obtain ⟨N₂, h₂⟩ := hdefault
  obtain ⟨N₃, h₃⟩ := hbody
  obtain ⟨N₄, h₄⟩ := hexec
  refine ⟨N₁ + N₂ + N₃ + N₄, fun n hn => ?_⟩
  simp only [execSwitch, hexpr, hfirst, Option.bind_eq_bind, Option.bind_some, h₁ n (by omega), h₂ n (by omega),
    h₃ n (by omega), h₄ n (by omega)]
  rfl

/-- **An if**: a constant test selects a list that is equivalent to it. -/
theorem parseIf_preserves (constOf : E → Option Int) {i : ℕ} (e : E) {a b : Stmts E} (ha : a.Holds .brk h)
    (hb : b.Holds .brk h) (hia : i ∉ a.ids) (hib : i ∉ b.ids) :
    ∃ l : Stmts E, l.Holds .brk (parseIf constOf h i e a.first b.first).1 ∧ (parseIf constOf h i e a.first b.first).2 = l.first ∧
      ∀ (S : Type) (m : Meaning E S) (s : S), (∀ v, constOf e = some v → m.test e s = decide (v ≠ 0)) →
        l.call m s = (Stmts.ite i e a b nil).call m s := by
  have hframe : ∀ x, x ≠ i → (parseIf constOf h i e a.first b.first).1 x = h x := fun x hx => Function.update_of_ne hx ..
  have ha' := ha.frame fun x hx => hframe x (ne_of_mem_of_not_mem hx hia)
  have hb' := hb.frame fun x hx => hframe x (ne_of_mem_of_not_mem hx hib)
  have hbranch : ∀ (S : Type) (m : Meaning E S) (s : S),
      (Stmts.ite i e a b nil).call m s = (branch m e a b s).call m s := by
    intro S m s
    rw [call_ite]
    split
    · rfl
    next hstop =>
      rw [Bool.not_eq_true] at hstop
      exact Prod.ext hstop.symm rfl
  unfold parseIf at ha' hb' ⊢
  cases hv : constOf e with
  | none => exact ⟨Stmts.ite i e a b nil, ⟨Function.update_self .., ha', hb', trivial⟩, rfl, fun S m s _ => rfl⟩
  | some v =>
    by_cases hzero : v = 0
    · refine ⟨b, hb', if_pos hzero, fun S m s htest => ?_⟩
      rw [hbranch, branch, htest v rfl, hzero]
      rfl
    · refine ⟨a, ha', if_neg hzero, fun S m s htest => ?_⟩
      rw [hbranch, branch, htest v rfl, decide_eq_true hzero]
      rfl

/-- The labels are parsed, from the switch node on. -/
theorem switch_parsed (constOf : E → Option Int) (pSwitch : ℕ) (e : E) (hids : (pSwitch :: labelIds cs).Nodup)
    (hts : ∀ c ∈ cs, ∀ t ∈ c.body.getD [], t.Holds .brk h) (hsound : ∀ c ∈ cs, c.Sound) :
    ∃ st, Returns (parseClauses constOf (constOf e) ·
        ⟨h.init pSwitch ⟨.stSwitch, some e, none, none, none⟩, .compound1 pSwitch, none, none, false⟩ (cs.map parsed)) st ∧
      (st.heap pSwitch).expr = some e ∧ (st.heap pSwitch).compound1 = firstLabel cs ∧ CasesHold st.heap cs ∧
        st.error = anyBad constOf cs ∧
          ∀ v, constOf e = some v → st.caseStatement.or st.defaultStatement = constStmt constOf v cs := by
  obtain ⟨hswitch, hnd⟩ := List.nodup_cons.1 hids
  have hts₀ : ∀ c ∈ cs, ∀ t ∈ c.body.getD [], t.Holds .brk (h.init pSwitch ⟨.stSwitch, some e, none, none, none⟩) := by
    intro c hc t ht
    refine (hts c hc t ht).frame fun x hx => Function.update_of_ne ?_ ..
    exact ne_of_mem_of_not_mem (labelIds_mem hc (.tail _ (flat_ids ht hx))) hswitch
  have hself : h.init pSwitch ⟨.stSwitch, some e, none, none, none⟩ pSwitch = ⟨.stSwitch, some e, none, none, none⟩ :=
    Function.update_self ..
  obtain ⟨st, hret, hdone⟩ := @parseClauses_returns _ constOf (constOf e) cs
    ⟨h.init pSwitch ⟨.stSwitch, some e, none, none, none⟩, .compound1 pSwitch, none, none, false⟩ hts₀ hnd hswitch
    (congrArg CHtfeStatement.compound1 hself) hsound
  have hnode : st.heap pSwitch = ⟨.stSwitch, some e, firstLabel cs, none, none⟩ := by
    refine hdone.owner.trans ?_
    simp [Heap.set, Slot.owner, hself]
  refine ⟨st, hret, congrArg CHtfeStatement.expr hnode, congrArg CHtfeStatement.compound1 hnode, hdone.holds, ?_, ?_⟩
  · rw [hdone.error, Bool.false_or]
  · intro v hv
    rw [hdone.caseStatement, hdone.defaultStatement, hv]
    rfl

/-- What the parser makes of a switch. -/
theorem parseSwitch_preserves (constOf : E → Option Int) (pSwitch : ℕ) (e : E)
    (hids : (pSwitch :: labelIds cs).Nodup) (hts : ∀ c ∈ cs, ∀ t ∈ c.body.getD [], t.Holds .brk h)
    (hsound : ∀ c ∈ cs, c.Sound) (hvalues : ∀ v, (cs.filter (hasValue constOf v)).length ≤ 1)
    (hdefault : (cs.filter isDefaultLabel).length ≤ 1) :
    ∃ h' p, Returns (parseSwitch constOf · h pSwitch e (cs.map parsed)) (h', p, anyBad constOf cs) ∧
      (anyBad constOf cs = false →
        (constOf e = none → p = some pSwitch ∧ CasesHold h' cs ∧
          (∀ c ∈ cs, c.lowered.hasJump = false ∧ Tail .brk (finalBreak c.keptBody)) ∧
            ∀ (S : Type) (m : Meaning E S) (value : E → S → Int) (s : S), (∀ e s, m.jump e s = s) →
              Returns (execSwitch constOf m value · h' pSwitch s) (execC constOf m value e cs s)) ∧
        ∀ v, constOf e = some v → ∃ l : Stmts E, l.Holds .brk h' ∧ p = l.first ∧ l.hasJump = false ∧
          ∀ (S : Type) (m : Meaning E S) (value : E → S → Int) (s : S), (∀ e s, m.jump e s = s) → value e s = v →
            (Returns (h'.exec m · p s) (execC constOf m value e cs s) ↔
              Selects constOf v cs ∨ ((defaultBody cs).call m s).2 = execC constOf m value e cs s)) := by
  obtain ⟨hswitch, hnd⟩ := List.nodup_cons.1 hids
  obtain ⟨st, hparse, hexpr, hfirst, hcs, herror, hconst⟩ := switch_parsed constOf pSwitch e hids hts hsound
  cases hv : constOf e with
  | none =>
    rw [hv] at hparse
    refine ⟨st.heap, some pSwitch, ?_, fun hbad => ⟨fun _ => ⟨rfl, hcs, ?_, ?_⟩, fun v h => by cases h⟩⟩
    · rw [← herror]
      refine Returns.congr ⟨0, fun n _ => ?_⟩ (Returns.bind (k := fun st _ => some (st.heap, some pSwitch, st.error)) hparse
        (Returns.const _))
      simp only [parseSwitch, hv, Option.isNone_none, if_true, Option.bind_eq_bind]
    · exact fun c hc => ⟨push_hasJump (clean_dropJump (hsound c hc).clean).1 rfl, finalBreak_tail _⟩
    · exact fun S m value s hm => execSwitch_returns hm hexpr hfirst hcs hsound hbad s
  | some v =>
    have hstmt := hconst v hv
    rw [hv] at hparse
    have hreturns : ∀ {h' : Heap E} {l : Stmts E}, Returns (selected · st.heap (constStmt constOf v cs)) (h', l.first) →
        Returns (parseSwitch constOf · h pSwitch e (cs.map parsed)) (h', l.first, anyBad constOf cs) := by
      intro h' l hsel
      obtain ⟨N₁, h₁⟩ := hparse
      obtain ⟨N₂, h₂⟩ := hsel
      refine ⟨N₁ + N₂, fun n hn => ?_⟩
      simp only [parseSwitch, hv, h₁ n (by omega), h₂ n (by omega), hstmt, herror, Option.bind_eq_bind, Option.bind_some,
        Option.isNone_some, Bool.false_eq_true, if_false]
    -- the list that is taken, with a body that it is left of
    have htaken : ∃ body, Taken cs (constStmt constOf v cs) body ∧ (anyBad constOf cs = false →
        ∀ (S : Type) (m : Meaning E S) (value : E → S → Int) (s : S), value e s = v →
          ((body.call m s).2 = execC constOf m value e cs s ↔
            Selects constOf v cs ∨ ((defaultBody cs).call m s).2 = execC constOf m value e cs s)) := by
      by_cases hsel : Selects constOf v cs ∧ anyBad constOf cs = false
      · obtain ⟨body, htaken, hbody⟩ := constStmt_selected hsel.1 hsel.2 (hvalues v) hdefault hsound
        refine ⟨body, htaken, fun _ S m value s hvalue => ?_⟩
        rw [execC, hvalue, hbody]
        exact ⟨fun _ => .inl hsel.1, fun _ => rfl⟩
      · by_cases hbad : anyBad constOf cs = false
        · have hnot : ¬Selects constOf v cs := fun h => hsel ⟨h, hbad⟩
          refine ⟨defaultBody cs, ?_, fun _ S m value s _ => ⟨.inr, fun h => h.resolve_left hnot⟩⟩
          rw [constStmt_default hnot (hvalues v) hsound]
          exact pick_default hdefault
        · obtain ⟨body, htaken⟩ := constStmt_taken constOf v (hvalues v) hdefault
          exact ⟨body, htaken, fun h => absurd h hbad⟩
    obtain ⟨body, htaken, hbody⟩ := htaken
    obtain ⟨h', l, hsel, hholds, hjump, htask⟩ := taken_returns htaken hcs hnd hsound
    refine ⟨h', l.first, hreturns hsel, fun hbad => ⟨fun h => (by cases h), fun v' hv' => ?_⟩⟩
    obtain rfl := Option.some.inj hv'
    refine ⟨l, hholds, rfl, hjump, fun S m value s hm hvalue => ?_⟩
    have hexec := exec_returns (m := m) hholds s
    rw [htask S m s hm] at hexec
    rw [← hbody hbad S m value s hvalue]
    constructor
    · exact fun h => Returns.unique hexec h
    · intro h
      rw [← h]
      exact hexec

end

/-- `switch (e) { case 1: case 2: x = 11; break; default: x = 12; break; }` -/
def grouped : List (Clause ℕ (Stmts ℕ)) :=
  [⟨1, some 1, none⟩, ⟨2, some 2, some [assign 3 11 nil, jump 4 none nil]⟩,
    ⟨5, none, some [assign 6 12 nil, jump 7 none nil]⟩]

/-- Its statements in a heap. -/
def groupedHeap : Heap ℕ
  | 3 => ⟨.stAssign, some 11, none, none, none⟩
  | 4 | 7 => ⟨.stBreak, none, none, none, none⟩
  | 6 => ⟨.stAssign, some 12, none, none, none⟩
  | _ => ⟨.stNull, none, none, none, none⟩

attribute [local simp] groupedHeap

/-- Small expressions are constants. -/
def smallConst (e : ℕ) : Option Int := if e < 10 then some e else none

theorem grouped_holds : ∀ c ∈ grouped, ∀ t ∈ c.body.getD [], t.Holds .brk groupedHeap := by
  simp [grouped, Stmts.Holds, groupedHeap, first, Jump.stType]

theorem grouped_sound : ∀ c ∈ grouped, c.Sound := by
  intro c hc
  simp only [grouped, List.mem_cons, List.not_mem_nil, or_false] at hc
  obtain rfl | rfl | rfl := hc
  · exact ⟨trivial, by decide⟩
  · exact ⟨rfl, by decide⟩
  · exact ⟨rfl, by decide⟩

theorem grouped_values (v : Int) : (grouped.filter (hasValue smallConst v)).length ≤ 1 := by
  by_cases h₁ : v = 1
  · subst h₁
    decide
  by_cases h₂ : v = 2
  · subst h₂
    decide
  have hnone : grouped.filter (hasValue smallConst v) = [] := by
    simp [grouped, hasValue, smallConst, Ne.symm h₁, Ne.symm h₂]
  rw [hnone]
  exact Nat.zero_le 1

/-- The store is `x`. -/
def setVar : Meaning ℕ ℕ := ⟨fun e _ => e, fun _ _ => true, fun _ s => s⟩

end OpenHT.Htfe
