import Mathlib.Data.List.Induction

/-!
# Host messages and stage variables of a design

A module keeps a list of its host messages, a stage a list of its variables. Both are filled by calls that look for the
name in the list first.

* `addHostMsg`, `hostMsgs`: the list of messages after some calls, each with the destinations that are added after it.
* `host_msg_destinations`: when each message has the destinations of its name.
* `addStageField`, `fieldList`: the variables of a stage after some calls.
* `stage_fields_disjoint`: when the ranges of one name are disjoint.
-/

namespace OpenHT.Htl.DsnInfo

/-! ## Host messages -/

inductive EHostMsgDir
  | inbound
  | outbound
  | inAndOutbound
deriving DecidableEq, Repr

/-- `CMsgDst` -/
structure CMsgDst where
  var : String
  dataLsb : String
  addr1Lsb : String
  addr2Lsb : String
  idx1Lsb : String
  idx2Lsb : String
  field : String
  fldIdx1Lsb : String
  fldIdx2Lsb : String
  bReadOnly : Bool
deriving DecidableEq, Repr

structure CHostMsg where
  msgDir : EHostMsgDir
  msgName : String
  msgDstList : List CMsgDst
deriving DecidableEq, Repr

/-- The search of `AddHostMsg`: a message of the name gets the direction too. -/
def setMsgDir (msgDir : EHostMsgDir) (msgName : String) : List CHostMsg → Option (List CHostMsg)
  | [] => none
  | m :: l =>
    if m.msgName = msgName then
      some ((if m.msgDir ≠ msgDir then { m with msgDir := .inAndOutbound } else m) :: l)
    else (setMsgDir msgDir msgName l).map (m :: ·)

/-- `AddHostMsg`: the list, and the index of the message that the returned pointer is to. -/
def addHostMsg (l : List CHostMsg) (msgDir : EHostMsgDir) (msgName : String) : List CHostMsg × ℕ :=
  match setMsgDir msgDir msgName l with
  | some l' => (l', l'.length - 1)
  | none => (l ++ [⟨msgDir, msgName, []⟩], l.length)

/-- `AddMsgDst` -/
def addMsgDst (l : List CHostMsg) (msg : ℕ) (dst : CMsgDst) : List CHostMsg :=
  l.modify msg fun m => { m with msgDstList := m.msgDstList ++ [dst] }

/-- A call of `AddHostMsg`, and the destinations that are added before the next one. -/
structure MsgCall where
  msgDir : EHostMsgDir
  msgName : String
  dsts : List CMsgDst

def runCall (l : List CHostMsg) (c : MsgCall) : List CHostMsg :=
  let r := addHostMsg l c.msgDir c.msgName
  c.dsts.foldl (fun l dst => addMsgDst l r.2 dst) r.1

/-- `m_hostMsgList` after some calls. -/
def hostMsgs (calls : List MsgCall) : List CHostMsg := calls.foldl runCall []

/-! ### What the list should be -/

/-- `a` says less than `b` or the same. -/
def EHostMsgDir.LE (a b : EHostMsgDir) : Prop := a = b ∨ b = .inAndOutbound

/-- The calls for a name. -/
def callsOf (name : String) (calls : List MsgCall) : List MsgCall := calls.filter fun c => c.msgName = name

/-- `dir` is the least direction above those of some calls. -/
def IsJoin (calls : List MsgCall) (dir : EHostMsgDir) : Prop :=
  (∀ c ∈ calls, c.msgDir.LE dir) ∧ ∀ dir', (∀ c ∈ calls, c.msgDir.LE dir') → dir.LE dir'

/-- **The messages of some calls**: one for each name, with the join of its directions and with its destinations. -/
structure Messages (calls : List MsgCall) (l : List CHostMsg) : Prop where
  nodup : (l.map CHostMsg.msgName).Nodup
  names : ∀ name, name ∈ l.map CHostMsg.msgName ↔ ∃ c ∈ calls, c.msgName = name
  dir : ∀ m ∈ l, IsJoin (callsOf m.msgName calls) m.msgDir
  dsts : ∀ m ∈ l, m.msgDstList = (callsOf m.msgName calls).flatMap MsgCall.dsts

/-- The names in the order of their first calls. -/
def names (calls : List MsgCall) : List String :=
  calls.foldl (fun ns c => if c.msgName ∈ ns then ns else ns ++ [c.msgName]) []

/-- **The pointer is right**: the call has no destinations, or its name is new, or it is the last new name. -/
def PointerRight (calls : List MsgCall) : Prop :=
  ∀ before c after, calls = before ++ c :: after → c.dsts = [] ∨ c.msgName ∉ names before ∨
    (names before).getLast? = some c.msgName

/-! ### One call -/

theorem names_concat (calls : List MsgCall) (c : MsgCall) :
    names (calls ++ [c]) = if c.msgName ∈ names calls then names calls else names calls ++ [c.msgName] := by
  unfold names
  rw [List.foldl_append]
  rfl

theorem hostMsgs_concat (calls : List MsgCall) (c : MsgCall) : hostMsgs (calls ++ [c]) = runCall (hostMsgs calls) c := by
  unfold hostMsgs
  rw [List.foldl_append]
  rfl

theorem setMsgDir_none {dir : EHostMsgDir} {name : String} {l : List CHostMsg} :
    setMsgDir dir name l = none ↔ name ∉ l.map CHostMsg.msgName := by
  induction l with
  | nil => simp [setMsgDir]
  | cons m l ih =>
    unfold setMsgDir
    split
    · next heq => simp [heq]
    · next hne =>
      rw [Option.map_eq_none_iff, ih, List.map_cons, List.mem_cons]
      constructor
      · rintro h (heq | hin)
        · exact hne heq.symm
        · exact h hin
      · exact fun h hin => h (.inr hin)

/-- The direction with another one. -/
def EHostMsgDir.join (a b : EHostMsgDir) : EHostMsgDir := if a ≠ b then .inAndOutbound else a

/-- The search changes the direction of the messages of the name. -/
theorem setMsgDir_some {dir : EHostMsgDir} {name : String} {l l' : List CHostMsg}
    (hnodup : (l.map CHostMsg.msgName).Nodup) (h : setMsgDir dir name l = some l') :
    l' = l.map fun m => if m.msgName = name then { m with msgDir := m.msgDir.join dir } else m := by
  induction l generalizing l' with
  | nil => cases h
  | cons m l ih =>
    rw [List.map_cons, List.nodup_cons] at hnodup
    unfold setMsgDir at h
    split at h
    · next heq =>
      obtain rfl := Option.some.inj h
      have hrest : l.map (fun m => if m.msgName = name then { m with msgDir := m.msgDir.join dir } else m) = l := by
        refine (List.map_congr_left fun m' hm' => ?_).trans (List.map_id l)
        rw [if_neg]
        · rfl
        · intro heq'
          exact hnodup.1 (heq.trans heq'.symm ▸ List.mem_map_of_mem hm')
      rw [List.map_cons, hrest, if_pos heq]
      congr 1
      unfold EHostMsgDir.join
      split <;> rfl
    · next hne =>
      obtain ⟨l₁, h₁, rfl⟩ := Option.map_eq_some_iff.1 h
      rw [List.map_cons, if_neg hne, ih hnodup.2 h₁]

theorem addMsgDsts (l : List CHostMsg) (msg : ℕ) (dsts : List CMsgDst) :
    dsts.foldl (fun l dst => addMsgDst l msg dst) l =
      l.modify msg fun m => { m with msgDstList := m.msgDstList ++ dsts } := by
  induction dsts generalizing l with
  | nil =>
    have hid : (fun m : CHostMsg => { m with msgDstList := m.msgDstList ++ [] }) = id := by
      funext m
      simp
    rw [List.foldl_nil, hid, List.modify_id]
  | cons dst dsts ih =>
    rw [List.foldl_cons, ih]
    unfold addMsgDst
    rw [List.modify_modify_eq]
    congr 1
    funext m
    simp

theorem modify_concat {α : Type} (l : List α) (a : α) (f : α → α) : (l ++ [a]).modify l.length f = l ++ [f a] := by
  induction l with
  | nil => rfl
  | cons b l ih =>
    change b :: (l ++ [a]).modify l.length f = b :: (l ++ [f a])
    rw [ih]

/-- **One call** on a list without duplicates: a new message, or one that is there with the destinations at the last. -/
theorem runCall_cases {l : List CHostMsg} (hnodup : (l.map CHostMsg.msgName).Nodup) (c : MsgCall) :
    (c.msgName ∉ l.map CHostMsg.msgName ∧ runCall l c = l ++ [⟨c.msgDir, c.msgName, c.dsts⟩]) ∨
    (c.msgName ∈ l.map CHostMsg.msgName ∧ runCall l c =
      (l.map fun m => if m.msgName = c.msgName then { m with msgDir := m.msgDir.join c.msgDir } else m).modify
        (l.length - 1) fun m => { m with msgDstList := m.msgDstList ++ c.dsts }) := by
  unfold runCall addHostMsg
  cases hset : setMsgDir c.msgDir c.msgName l with
  | none =>
    refine .inl ⟨setMsgDir_none.1 hset, ?_⟩
    simp only
    rw [addMsgDsts, modify_concat]
    rfl
  | some l' =>
    refine .inr ⟨?_, ?_⟩
    · refine Classical.byContradiction fun hno => ?_
      rw [setMsgDir_none.2 hno] at hset
      cases hset
    · obtain rfl := setMsgDir_some hnodup hset
      simp only
      rw [addMsgDsts, List.length_map]

theorem modify_map_msgName (l : List CHostMsg) (i : ℕ) (dsts : List CMsgDst) :
    (l.modify i fun m => { m with msgDstList := m.msgDstList ++ dsts }).map CHostMsg.msgName = l.map CHostMsg.msgName := by
  induction l generalizing i with
  | nil => simp
  | cons m l ih => cases i <;> simp [ih]

theorem modify_map_msgDir (l : List CHostMsg) (i : ℕ) (dsts : List CMsgDst) :
    (l.modify i fun m => { m with msgDstList := m.msgDstList ++ dsts }).map (fun m => (m.msgName, m.msgDir)) =
      l.map fun m => (m.msgName, m.msgDir) := by
  induction l generalizing i with
  | nil => simp
  | cons m l ih => cases i <;> simp [ih]

theorem modify_map_msgDstList (l : List CHostMsg) (i : ℕ) (dsts : List CMsgDst) :
    (l.modify i fun m => { m with msgDstList := m.msgDstList ++ dsts }).map CHostMsg.msgDstList =
      (l.map CHostMsg.msgDstList).modify i (· ++ dsts) := by
  induction l generalizing i with
  | nil => simp
  | cons m l ih => cases i <;> simp [ih]

/-! ### Names and directions -/

theorem names_nodup (calls : List MsgCall) : (names calls).Nodup := by
  induction calls using List.reverseRecOn with
  | nil => exact List.nodup_nil
  | append_singleton calls c ih =>
    rw [names_concat]
    split
    · exact ih
    · next hnew =>
      refine List.nodup_append.2 ⟨ih, List.pairwise_singleton _ _, fun a ha b hb heq => ?_⟩
      rw [List.mem_singleton.1 hb] at heq
      exact hnew (heq ▸ ha)

theorem mem_names (calls : List MsgCall) (name : String) : name ∈ names calls ↔ ∃ c ∈ calls, c.msgName = name := by
  induction calls using List.reverseRecOn with
  | nil => simp [names]
  | append_singleton calls c ih =>
    rw [names_concat]
    split
    · next hold =>
      rw [ih]
      constructor
      · exact fun ⟨c', hc', hname⟩ => ⟨c', List.mem_append_left _ hc', hname⟩
      · rintro ⟨c', hc', rfl⟩
        obtain hc' | hc' := List.mem_append.1 hc'
        · exact ⟨c', hc', rfl⟩
        · obtain rfl := List.mem_singleton.1 hc'
          exact ih.1 hold
    · rw [List.mem_append, ih, List.mem_singleton]
      constructor
      · rintro (⟨c', hc', hname⟩ | rfl)
        · exact ⟨c', List.mem_append_left _ hc', hname⟩
        · exact ⟨c, List.mem_append_right _ (.head _), rfl⟩
      · rintro ⟨c', hc', rfl⟩
        obtain hc' | hc' := List.mem_append.1 hc'
        · exact .inl ⟨c', hc', rfl⟩
        · obtain rfl := List.mem_singleton.1 hc'
          exact .inr rfl

theorem hostMsgs_names (calls : List MsgCall) : (hostMsgs calls).map CHostMsg.msgName = names calls := by
  induction calls using List.reverseRecOn with
  | nil => rfl
  | append_singleton calls c ih =>
    have hnodup : ((hostMsgs calls).map CHostMsg.msgName).Nodup := ih ▸ names_nodup calls
    rw [hostMsgs_concat, names_concat]
    obtain ⟨hnew, hrun⟩ | ⟨hold, hrun⟩ := runCall_cases hnodup c
    · rw [ih] at hnew
      rw [hrun, if_neg hnew, List.map_append, ih]
      rfl
    · rw [ih] at hold
      rw [hrun, if_pos hold, modify_map_msgName, List.map_map, ← ih]
      refine List.map_congr_left fun m _ => ?_
      simp only [Function.comp_apply]
      split <;> rfl

theorem callsOf_concat (name : String) (calls : List MsgCall) (c : MsgCall) :
    callsOf name (calls ++ [c]) = if c.msgName = name then callsOf name calls ++ [c] else callsOf name calls := by
  unfold callsOf
  rw [List.filter_append]
  split
  · next heq => simp [heq]
  · next hne => simp [hne]

theorem join_isJoin {calls : List MsgCall} {dir : EHostMsgDir} (h : IsJoin calls dir) (c : MsgCall) :
    IsJoin (calls ++ [c]) (dir.join c.msgDir) := by
  obtain ⟨hup, hleast⟩ := h
  unfold EHostMsgDir.join
  split
  · next hne =>
    refine ⟨fun c' _ => .inr rfl, fun dir' hdir' => ?_⟩
    have hdir := hleast dir' fun c' hc' => hdir' c' (List.mem_append_left _ hc')
    have hc := hdir' c (List.mem_append_right _ (.head _))
    -- two directions that differ are both below `InAndOutbound` only
    refine .inl ?_
    obtain rfl | rfl := hdir
    · obtain heq | rfl := hc
      · exact absurd heq.symm hne
      · rfl
    · rfl
  · next heq =>
    have heq : dir = c.msgDir := Classical.not_not.1 heq
    refine ⟨fun c' hc' => ?_, fun dir' hdir' => hleast dir' fun c' hc' => hdir' c' (List.mem_append_left _ hc')⟩
    obtain hc' | hc' := List.mem_append.1 hc'
    · exact hup c' hc'
    · obtain rfl := List.mem_singleton.1 hc'
      exact .inl heq.symm

theorem single_isJoin (c : MsgCall) : IsJoin [c] c.msgDir := by
  refine ⟨fun c' hc' => ?_, fun dir' hdir' => hdir' c (.head _)⟩
  obtain rfl := List.mem_singleton.1 hc'
  exact .inl rfl

/-- The direction of each message is the join of those given for its name. -/
theorem hostMsgs_dir (calls : List MsgCall) :
    ∀ p ∈ (hostMsgs calls).map fun m => (m.msgName, m.msgDir), IsJoin (callsOf p.1 calls) p.2 := by
  induction calls using List.reverseRecOn with
  | nil => exact fun p hp => absurd hp List.not_mem_nil
  | append_singleton calls c ih =>
    have hnames := hostMsgs_names calls
    have hnodup : ((hostMsgs calls).map CHostMsg.msgName).Nodup := hnames ▸ names_nodup calls
    intro p hp
    rw [hostMsgs_concat] at hp
    rw [callsOf_concat]
    obtain ⟨hnew, hrun⟩ | ⟨hold, hrun⟩ := runCall_cases hnodup c
    · rw [hrun, List.map_append] at hp
      obtain hp | hp := List.mem_append.1 hp
      · have hne : c.msgName ≠ p.1 := by
          rintro heq
          obtain ⟨m, hm, rfl⟩ := List.mem_map.1 hp
          exact hnew (heq ▸ List.mem_map_of_mem hm)
        rw [if_neg hne]
        exact ih p hp
      · obtain rfl := List.mem_singleton.1 hp
        have hnone : callsOf c.msgName calls = [] := by
          refine List.filter_eq_nil_iff.2 fun c' hc' heq => ?_
          refine hnew (hnames ▸ (mem_names calls c.msgName).2 ⟨c', hc', ?_⟩)
          simpa using heq
        rw [if_pos rfl, hnone]
        exact single_isJoin c
    · rw [hrun, modify_map_msgDir, List.map_map] at hp
      obtain ⟨m, hm, rfl⟩ := List.mem_map.1 hp
      have hdir := ih _ (List.mem_map_of_mem hm)
      simp only [Function.comp_apply]
      split
      · next heq =>
        rw [if_pos heq.symm]
        exact join_isJoin hdir c
      · next hne =>
        rw [if_neg fun heq => hne heq.symm]
        exact hdir

/-! ### Destinations -/

/-- The destinations of each name, in the order of the names. -/
def dstsOf (calls : List MsgCall) : List (List CMsgDst) :=
  (names calls).map fun name => (callsOf name calls).flatMap MsgCall.dsts

theorem modify_idxOf {α β : Type} [DecidableEq α] {ns : List α} (hnodup : ns.Nodup) (f : α → β) (g : β → β) {a : α}
    (ha : a ∈ ns) : (ns.map f).modify (ns.idxOf a) g = ns.map fun n => if n = a then g (f n) else f n := by
  induction ns with
  | nil => exact absurd ha List.not_mem_nil
  | cons n ns ih =>
    rw [List.nodup_cons] at hnodup
    by_cases heq : n = a
    · subst heq
      have hrest : ns.map (fun m => if m = n then g (f m) else f m) = ns.map f := by
        refine List.map_congr_left fun m hm => if_neg ?_
        rintro rfl
        exact hnodup.1 hm
      rw [List.idxOf_cons_self, List.map_cons, List.map_cons, hrest, if_pos rfl]
      rfl
    · have hin : a ∈ ns := (List.mem_cons.1 ha).resolve_left fun h => heq h.symm
      rw [List.idxOf_cons, beq_eq_false_iff_ne.2 heq, cond_false, List.map_cons, List.map_cons, if_neg heq, ← ih hnodup.2 hin]
      rfl

theorem dstsOf_concat (calls : List MsgCall) (c : MsgCall) :
    dstsOf (calls ++ [c]) =
      if c.msgName ∈ names calls then (dstsOf calls).modify ((names calls).idxOf c.msgName) (· ++ c.dsts)
      else dstsOf calls ++ [c.dsts] := by
  have hof : ∀ name, (callsOf name (calls ++ [c])).flatMap MsgCall.dsts =
      if name = c.msgName then (callsOf name calls).flatMap MsgCall.dsts ++ c.dsts
      else (callsOf name calls).flatMap MsgCall.dsts := by
    intro name
    rw [callsOf_concat]
    by_cases heq : c.msgName = name
    · rw [if_pos heq, if_pos heq.symm, List.flatMap_append]
      simp
    · rw [if_neg heq, if_neg fun h => heq h.symm]
  unfold dstsOf
  simp only [hof]
  rw [names_concat]
  split
  · next hold => rw [modify_idxOf (names_nodup calls) _ _ hold]
  · next hnew =>
    have hnone : callsOf c.msgName calls = [] := by
      refine List.filter_eq_nil_iff.2 fun c' hc' heq => hnew ((mem_names calls c.msgName).2 ⟨c', hc', ?_⟩)
      simpa using heq
    have hrest : (names calls).map (fun name =>
        if name = c.msgName then (callsOf name calls).flatMap MsgCall.dsts ++ c.dsts
        else (callsOf name calls).flatMap MsgCall.dsts) =
        (names calls).map fun name => (callsOf name calls).flatMap MsgCall.dsts :=
      List.map_congr_left fun name hname => if_neg (by
        rintro rfl
        exact hnew hname)
    rw [List.map_append, hrest]
    simp [hnone]

/-- The destinations that the code has, and those that it should have, change in one place each. -/
theorem hostMsgs_dsts_concat (calls : List MsgCall) (c : MsgCall) :
    (hostMsgs (calls ++ [c])).map CHostMsg.msgDstList =
      if c.msgName ∈ names calls then
        ((hostMsgs calls).map CHostMsg.msgDstList).modify ((names calls).length - 1) (· ++ c.dsts)
      else (hostMsgs calls).map CHostMsg.msgDstList ++ [c.dsts] := by
  have hnames := hostMsgs_names calls
  have hnodup : ((hostMsgs calls).map CHostMsg.msgName).Nodup := hnames ▸ names_nodup calls
  have hlength : (hostMsgs calls).length = (names calls).length := by rw [← hnames, List.length_map]
  rw [hostMsgs_concat]
  obtain ⟨hnew, hrun⟩ | ⟨hold, hrun⟩ := runCall_cases hnodup c
  · rw [hnames] at hnew
    rw [hrun, if_neg hnew, List.map_append]
    rfl
  · rw [hnames] at hold
    rw [hrun, if_pos hold, modify_map_msgDstList, hlength, List.map_map]
    congr 1
    refine List.map_congr_left fun m _ => ?_
    simp only [Function.comp_apply]
    split <;> rfl

/-- How far behind the destinations are, all together. -/
def weight : ℕ → List (List CMsgDst) → ℕ
  | _, [] => 0
  | i, ds :: l => i * ds.length + weight (i + 1) l

theorem weight_modify (l : List (List CMsgDst)) (i k : ℕ) (ds : List CMsgDst) (hk : k < l.length) :
    weight i (l.modify k (· ++ ds)) = weight i l + (i + k) * ds.length := by
  induction l generalizing i k with
  | nil => exact absurd hk (Nat.not_lt_zero k)
  | cons d l ih =>
    cases k with
    | zero =>
      change i * (d ++ ds).length + weight (i + 1) l = i * d.length + weight (i + 1) l + (i + 0) * ds.length
      rw [List.length_append, Nat.mul_add]
      simp only [Nat.add_zero]
      omega
    | succ k =>
      change i * d.length + weight (i + 1) (l.modify k (· ++ ds)) =
        i * d.length + weight (i + 1) l + (i + (k + 1)) * ds.length
      rw [ih (i + 1) k (Nat.lt_of_succ_lt_succ hk)]
      have hassoc : i + 1 + k = i + (k + 1) := by omega
      rw [hassoc, Nat.add_assoc]

theorem weight_concat (l : List (List CMsgDst)) (i : ℕ) (ds : List CMsgDst) :
    weight i (l ++ [ds]) = weight i l + (i + l.length) * ds.length := by
  induction l generalizing i with
  | nil => simp [weight]
  | cons d l ih =>
    change i * d.length + weight (i + 1) (l ++ [ds]) = i * d.length + weight (i + 1) l + (i + (l.length + 1)) * ds.length
    rw [ih]
    have hassoc : i + 1 + l.length = i + (l.length + 1) := by omega
    rw [hassoc, Nat.add_assoc]

theorem pointerRight_concat (calls : List MsgCall) (c : MsgCall) :
    PointerRight (calls ++ [c]) ↔ PointerRight calls ∧
      (c.dsts = [] ∨ c.msgName ∉ names calls ∨ (names calls).getLast? = some c.msgName) := by
  constructor
  · intro h
    refine ⟨fun before c' after heq => ?_, h calls c [] rfl⟩
    exact h before c' (after ++ [c]) (by rw [heq]; simp)
  · rintro ⟨h, hlast⟩ before c' after heq
    induction after using List.reverseRecOn with
    | nil =>
      obtain ⟨rfl, hc⟩ := List.append_inj' heq rfl
      cases hc
      exact hlast
    | append_singleton after c'' _ =>
      have hsplit : calls ++ [c] = (before ++ c' :: after) ++ [c''] := by
        rw [heq]
        simp
      obtain ⟨rfl, -⟩ := List.append_inj' hsplit rfl
      exact h before c' after rfl

theorem getLast?_iff_idxOf {ns : List String} (hnodup : ns.Nodup) {name : String} (hin : name ∈ ns) :
    ns.getLast? = some name ↔ ns.idxOf name = ns.length - 1 := by
  have hidx : ns.idxOf name < ns.length := List.idxOf_lt_length_iff.2 hin
  have hget : ns[ns.idxOf name]? = some name := by
    rw [List.getElem?_eq_getElem hidx, List.getElem_idxOf]
  rw [List.getLast?_eq_getElem?]
  constructor
  · intro h
    have hlt : ns.length - 1 < ns.length := by omega
    exact (List.getElem?_inj hidx hnodup).1 (hget.trans h.symm)
  · intro h
    rw [← h, hget]

/-- If every pointer is right the destinations are. -/
theorem dsts_of_pointerRight (calls : List MsgCall) (h : PointerRight calls) :
    (hostMsgs calls).map CHostMsg.msgDstList = dstsOf calls := by
  induction calls using List.reverseRecOn with
  | nil => rfl
  | append_singleton calls c ih =>
    obtain ⟨hcalls, hlast⟩ := (pointerRight_concat calls c).1 h
    rw [hostMsgs_dsts_concat, dstsOf_concat, ih hcalls]
    split
    · next hold =>
      obtain hnil | hnew | hlast := hlast
      · have hid : (fun ds : List CMsgDst => ds ++ c.dsts) = id := by
          funext ds
          simp [hnil]
        rw [hid, List.modify_id, List.modify_id]
      · exact absurd hold hnew
      · rw [(getLast?_iff_idxOf (names_nodup calls) hold).1 hlast]
    · rfl

/-- **A wrong pointer** puts destinations further behind, and they never come back. -/
theorem weight_dsts (calls : List MsgCall) :
    weight 0 (dstsOf calls) ≤ weight 0 ((hostMsgs calls).map CHostMsg.msgDstList) ∧
      (weight 0 (dstsOf calls) = weight 0 ((hostMsgs calls).map CHostMsg.msgDstList) → PointerRight calls) := by
  induction calls using List.reverseRecOn with
  | nil =>
    refine ⟨Nat.le_refl _, fun _ before c after heq => ?_⟩
    cases before <;> cases heq
  | append_singleton calls c ih =>
    obtain ⟨hle, hright⟩ := ih
    have hlength : ((hostMsgs calls).map CHostMsg.msgDstList).length = (names calls).length := by
      rw [← hostMsgs_names, List.length_map, List.length_map]
    have hlength' : (dstsOf calls).length = (names calls).length := by
      unfold dstsOf
      rw [List.length_map]
    rw [hostMsgs_dsts_concat, dstsOf_concat, pointerRight_concat]
    split
    · next hold =>
      have hidx : (names calls).idxOf c.msgName < (names calls).length := List.idxOf_lt_length_iff.2 hold
      have hidx' : (names calls).idxOf c.msgName ≤ (names calls).length - 1 := by omega
      have hmul := Nat.mul_le_mul_right c.dsts.length hidx'
      rw [weight_modify _ _ _ _ (hlength' ▸ hidx), weight_modify _ _ _ _ (by omega), Nat.zero_add, Nat.zero_add]
      refine ⟨by omega, fun heq => ⟨hright (by omega), ?_⟩⟩
      have hmuleq : (names calls).idxOf c.msgName * c.dsts.length = ((names calls).length - 1) * c.dsts.length := by omega
      obtain hnil | hpos := Nat.eq_zero_or_pos c.dsts.length
      · exact .inl (List.length_eq_zero_iff.1 hnil)
      · refine .inr (.inr ((getLast?_iff_idxOf (names_nodup calls) hold).2 ?_))
        exact Nat.eq_of_mul_eq_mul_right hpos hmuleq
    · next hnew =>
      rw [weight_concat, weight_concat, hlength, hlength']
      exact ⟨by omega, fun heq => ⟨hright (by omega), .inr (.inl hnew)⟩⟩

/-- **Host messages.** After any calls there is one message for each name, with the join of its directions; the
destinations of all are right if and only if every pointer was. -/
theorem host_msg_destinations (calls : List MsgCall) : Messages calls (hostMsgs calls) ↔ PointerRight calls := by
  have hnames := hostMsgs_names calls
  constructor
  · intro h
    have hdsts : (hostMsgs calls).map CHostMsg.msgDstList = dstsOf calls := by
      unfold dstsOf
      rw [← hnames, List.map_map]
      exact List.map_congr_left h.dsts
    refine (weight_dsts calls).2 ?_
    rw [hdsts]
  · intro h
    have hdsts := dsts_of_pointerRight calls h
    unfold dstsOf at hdsts
    rw [← hnames, List.map_map] at hdsts
    refine ⟨hnames ▸ names_nodup calls, fun name => hnames ▸ mem_names calls name, fun m hm => ?_, fun m hm => ?_⟩
    · exact hostMsgs_dir calls (m.msgName, m.msgDir) (List.mem_map.2 ⟨m, hm, rfl⟩)
    · exact List.map_inj_left.1 hdsts m hm

def dst (var : String) : CMsgDst := ⟨var, "", "", "", "", "", "", "", "", false⟩

/-- `a`, `b` and `a` again, with a destination. -/
def repeated : List MsgCall := [⟨.inbound, "a", []⟩, ⟨.inbound, "b", []⟩, ⟨.inbound, "a", [dst "x"]⟩]

/-- The destination goes to `b`. -/
theorem dst_of_other_message : ¬∀ calls, Messages calls (hostMsgs calls) := by
  intro hall
  have hdsts := (hall repeated).dsts ⟨.inbound, "b", [dst "x"]⟩ (by decide)
  revert hdsts
  decide

/-! ## Stage variables -/

/-- A variable of a stage, from instruction stage `rngLow` to `rngHigh`. -/
structure CField where
  pType : String
  name : String
  dimenList : List String
  rngLow : Int
  rngHigh : Int
  bInit : Bool
  bConn : Bool
  bReset : Bool
  bZero : Bool
deriving DecidableEq, Repr

/-- The variables of a stage, and the messages. -/
structure CStage where
  fieldList : List CField
  msgs : List String

/-- The test for a variable of the same name that the new one overlaps. -/
def overlaps (f new : CField) : Bool :=
  f.name = new.name &&
    (f.rngLow ≤ new.rngLow && new.rngLow ≤ f.rngHigh || f.rngLow ≤ new.rngHigh && new.rngHigh ≤ f.rngHigh)

def overlapMsg (name : String) : String := "field '" ++ name ++ "' was previously declared with overlapping ranges"

/-- The messages about a range. -/
def rangeMsgs (new : CField) : List String :=
  (if new.rngLow < 1 then ["minimum range value is 1"] else []) ++
    if new.rngHigh < new.rngLow then ["illegal range low value greater than high value"] else []

/-- `AddStageField`, and whether it returns `true`. -/
def addStageField (st : CStage) (new : CField) : CStage × Bool :=
  if st.fieldList.any fun f => overlaps f new then
    ({ st with msgs := st.msgs ++ rangeMsgs new ++ [overlapMsg new.name] }, false)
  else (⟨st.fieldList ++ [new], st.msgs ++ rangeMsgs new⟩, true)

/-- The stage after some calls. -/
def stageAfter (calls : List CField) : CStage := calls.foldl (fun st new => (addStageField st new).1) ⟨[], []⟩

/-- No instruction stage is in both ranges. -/
def DisjointRanges (f g : CField) : Prop := ∀ x, ¬(f.rngLow ≤ x ∧ x ≤ f.rngHigh ∧ g.rngLow ≤ x ∧ x ≤ g.rngHigh)

/-- Two variables of one name have no stage in common. -/
def Apart (f g : CField) : Prop := f.name = g.name → DisjointRanges f g

/-- **Stage variables never overlap**: in each list that is reached they are apart, and a call with a range that is
apart from all of its name is accepted. -/
structure NeverOverlap (calls : List CField) : Prop where
  apart : ∀ before after, calls = before ++ after → (stageAfter before).fieldList.Pairwise Apart
  accepted : ∀ before new after, calls = before ++ new :: after → 1 ≤ new.rngLow → new.rngLow ≤ new.rngHigh →
    (∀ f ∈ (stageAfter before).fieldList, Apart f new) → (addStageField (stageAfter before) new).2 = true

/-- No range of the name is in the middle of the new one, unless another one holds an end of it. -/
def NoneInside (st : CStage) (new : CField) : Prop :=
  (∀ f ∈ st.fieldList, overlaps f new = false) → ∀ f ∈ st.fieldList, f.name = new.name →
    ¬(new.rngLow < f.rngLow ∧ f.rngLow ≤ f.rngHigh ∧ f.rngHigh < new.rngHigh)

theorem stageAfter_concat (calls : List CField) (new : CField) :
    stageAfter (calls ++ [new]) = (addStageField (stageAfter calls) new).1 := by
  unfold stageAfter
  rw [List.foldl_append]
  rfl

/-- **The test misses one position**: the range is in the middle of the new one. -/
theorem overlaps_iff {f new : CField} (hno : overlaps f new = false) :
    Apart f new ↔ (f.name = new.name → ¬(new.rngLow < f.rngLow ∧ f.rngLow ≤ f.rngHigh ∧ f.rngHigh < new.rngHigh)) := by
  unfold Apart DisjointRanges
  constructor
  · intro h hname hin
    exact h hname f.rngLow (by omega)
  · intro h hname x hx
    have hin := h hname
    unfold overlaps at hno
    rw [hname] at hno
    simp only [decide_true, Bool.true_and, Bool.or_eq_false_iff, Bool.and_eq_false_iff, decide_eq_false_iff_not] at hno
    omega

/-- A range that is apart from another one does not overlap it in the test. -/
theorem overlaps_of_apart {f new : CField} (hvalid : new.rngLow ≤ new.rngHigh) (h : Apart f new) :
    overlaps f new = false := by
  rw [Bool.eq_false_iff]
  intro hover
  unfold overlaps at hover
  simp only [Bool.and_eq_true, Bool.or_eq_true, decide_eq_true_eq] at hover
  obtain ⟨hname, hlow | hhigh⟩ := hover
  · exact h hname new.rngLow (by omega)
  · exact h hname new.rngHigh (by omega)

/-- **One call** keeps the variables apart if and only if nothing is inside of the new range. -/
theorem addStageField_apart {st : CStage} (h : st.fieldList.Pairwise Apart) (new : CField) :
    (addStageField st new).1.fieldList.Pairwise Apart ↔ NoneInside st new := by
  unfold addStageField NoneInside
  split
  · next hany =>
    obtain ⟨f, hf, hover⟩ := List.any_eq_true.1 hany
    refine ⟨fun _ hno => ?_, fun _ => h⟩
    rw [hno f hf] at hover
    cases hover
  · next hany =>
    have hno : ∀ f ∈ st.fieldList, overlaps f new = false := by
      intro f hf
      rw [Bool.eq_false_iff]
      exact fun hover => hany (List.any_eq_true.2 ⟨f, hf, hover⟩)
    rw [List.pairwise_append]
    constructor
    · rintro ⟨-, -, hnew⟩ _ f hf
      exact (overlaps_iff (hno f hf)).1 (hnew f hf new (.head _))
    · intro hin
      refine ⟨h, List.pairwise_singleton _ _, fun f hf g hg => ?_⟩
      obtain rfl := List.mem_singleton.1 hg
      exact (overlaps_iff (hno f hf)).2 (hin hno f hf)

/-- A call with a range that is apart from all of its name is accepted, whatever is in the list. -/
theorem addStageField_accepts {st : CStage} {new : CField} (hvalid : new.rngLow ≤ new.rngHigh)
    (h : ∀ f ∈ st.fieldList, Apart f new) : (addStageField st new).2 = true := by
  have hno : ¬(st.fieldList.any fun f => overlaps f new) = true := by
    intro hany
    obtain ⟨f, hf, hover⟩ := List.any_eq_true.1 hany
    rw [overlaps_of_apart hvalid (h f hf)] at hover
    cases hover
  unfold addStageField
  rw [if_neg hno]

/-- **Stage variables.** The calls keep all variables of one name apart if and only if no call has a range of its name
in the middle of its own that the test does not see. -/
theorem stage_fields_disjoint (calls : List CField) :
    NeverOverlap calls ↔ ∀ before new after, calls = before ++ new :: after → NoneInside (stageAfter before) new := by
  constructor
  · intro h before new after heq
    have hbefore := h.apart before (new :: after) heq
    have hafter := h.apart (before ++ [new]) after (by rw [heq]; simp)
    rw [stageAfter_concat] at hafter
    exact (addStageField_apart hbefore new).1 hafter
  · intro h
    refine ⟨fun before after heq => ?_, fun before new after _ _ hvalid hapart => addStageField_accepts hvalid hapart⟩
    induction before using List.reverseRecOn generalizing after with
    | nil => exact .nil
    | append_singleton before new ih =>
      have heq' : calls = before ++ new :: after := by
        rw [heq]
        simp
      rw [stageAfter_concat]
      exact (addStageField_apart (ih (new :: after) heq') new).2 (h before new after heq')

def stageVar (rngLow rngHigh : Int) : CField := ⟨"int", "v", [], rngLow, rngHigh, false, true, false, true⟩

/-- The second range has the first one inside. -/
theorem accepts_around : ¬∀ calls, NeverOverlap calls := by
  intro hall
  have hapart := (hall [stageVar 2 2, stageVar 1 3]).apart [stageVar 2 2, stageVar 1 3] [] rfl
  have hfields : (stageAfter [stageVar 2 2, stageVar 1 3]).fieldList = [stageVar 2 2, stageVar 1 3] := by decide
  rw [hfields, List.pairwise_cons] at hapart
  exact hapart.1 (stageVar 1 3) (.head _) rfl 2 (by decide)

end OpenHT.Htl.DsnInfo
