import OpenHT.Sysc.QueClock

/-!
# Reset in the middle of traffic

`clock(true)` zeroes the write and the read index. The copy of the write index that `ht_block_que` and `ht_ultra_que`
compare with is zeroed too, and then overwritten with the index of before the call.

* `Que.call`: a design calling `push`, `pop` and `clock` in any order, from the constructor on.
* `Que.reset`: one `clock(true)` and `n` more.
* `QueSys.cycleStep`: the calls behind a reset, with their history.
* `reset_empties`: exactly when the queue is empty behind the reset.
-/

namespace OpenHT.Sysc

/-- A call of a design. -/
inductive QueCall (T : Type)
  | push (data : T)
  | pop
  | clock (bReset : Bool)

namespace Que

variable {T : Type} (c : QueClass) (addrBits : ℕ)

/-- The constructor leaves the array, the data and the two plain indices as they are. -/
def constructed (que : ℕ → T) (pushData : T) (rdIdx wrIdx : ℕ) : Que T :=
  { que, pushData, rdIdx, wrIdx, cmpWrIdx := ⟨0, 0⟩, cmpWrIdx2 := ⟨0, 0⟩, cmpRdIdx := ⟨0, 0⟩
    bPop := false, bPush := false, bPopWasReset := false, bPushWasReset := false }

def call (q : Que T) : QueCall T → Except AssertFail (Que T)
  | .push data => q.push addrBits data
  | .pop => q.pop c
  | .clock bReset => q.clock c addrBits bReset

/-- `clock(true)` and `n` further ones, each followed by the update of the signals. -/
def reset : ℕ → Que T → Except AssertFail (Que T)
  | 0, q => q.clock c addrBits true
  | n + 1, q => do
    let q ← q.clock c addrBits true
    reset n q

end Que

/-- The calls of a design that does not reset. -/
inductive CycleAct (T : Type)
  | push (data : T)
  | pop
  | clock

namespace QueSys

variable {T : Type} (c : QueClass) (addrBits : ℕ)

/-- A call and what it adds to the history. -/
def cycleStep (s : QueSys T) : CycleAct T → Except AssertFail (QueSys T)
  | .push data => QueSys.step c addrBits s (.push data)
  | .pop => QueSys.step c addrBits s .pop
  | .clock => do
    let q ← s.que.clock c addrBits false
    return { s with que := q, committed := s.committed + s.pushUsed.toNat, pushUsed := false
                    taken := s.taken + s.popUsed.toNat, popUsed := false }

end QueSys

/-- What is promised of a queue behind a reset. -/
structure Emptied {T : Type} (c : QueClass) (addrBits : ℕ) (q : Que T) : Prop where
  size : q.size addrBits = 0
  empty : q.empty c = true
  full : q.full addrBits = false
  first : ∀ s, Lts.Reach (QueSys.cycleStep c addrBits) (fun _ _ => True) (QueSys.start q) s →
    ∀ x, s.popped.head? = some x → s.pushed.head? = some x

/-! ## Runs behind a reset -/

namespace QueInv

variable {T : Type} {c : QueClass} {addrBits seen : ℕ} {s : QueSys T}

/-- A push that passes the assertions is one the design may make. -/
theorem push_allowed (inv : QueInv c addrBits seen s) {data : T} {s' : QueSys T}
    (h : QueSys.step c addrBits s (.push data) = .ok s') : QueSys.Allowed c addrBits s (.push data) := by
  obtain ⟨q, hq, -⟩ := bind_ok.1 h
  unfold Que.push at hq
  rw [inv.rstPop, inv.rstPush, if_pos (by decide)] at hq
  obtain ⟨_, hfull, hq⟩ := bind_ok.1 hq
  obtain ⟨_, hpush, -⟩ := bind_ok.1 hq
  refine ⟨?_, ?_⟩
  · cases hf : s.que.full addrBits with
    | false => rfl
    | true =>
      rw [hf] at hfull
      cases hfull
  · rw [← inv.bPush]
    cases hp : s.que.bPush with
    | false => rfl
    | true =>
      rw [hp] at hpush
      cases hpush

theorem pop_allowed (inv : QueInv c addrBits seen s) {s' : QueSys T}
    (h : QueSys.step c addrBits s .pop = .ok s') : QueSys.Allowed c addrBits s .pop := by
  obtain ⟨q, hq, -⟩ := bind_ok.1 h
  unfold Que.pop at hq
  rw [inv.rstPop, inv.rstPush, if_pos (by decide)] at hq
  obtain ⟨_, hempty, hq⟩ := bind_ok.1 hq
  obtain ⟨_, hpop, -⟩ := bind_ok.1 hq
  refine ⟨?_, ?_⟩
  · cases he : s.que.empty c with
    | false => rfl
    | true =>
      rw [he] at hempty
      cases hempty
  · rw [← inv.bPop]
    cases hp : s.que.bPop with
    | false => rfl
    | true =>
      rw [hp] at hpop
      cases hpop

/-- `clock` reaches the state of the two clocks made one after the other. -/
theorem clock (inv : QueInv c addrBits seen s) (hab : addrBits < c.addrLimit) {s' : QueSys T}
    (h : QueSys.cycleStep c addrBits s .clock = .ok s') : ∃ seen', QueInv c addrBits seen' s' := by
  obtain ⟨seen', s₁, h₁, inv₁⟩ := inv.pushClock hab
  obtain ⟨s₂, h₂, inv₂⟩ := inv₁.popClock hab
  obtain rfl := Except.ok.inj h₁
  obtain ⟨q, hq, hs₂⟩ := bind_ok.1 h₂
  obtain rfl := Except.ok.inj hs₂
  obtain ⟨q', hq', hs'⟩ := bind_ok.1 h
  obtain rfl := Except.ok.inj hs'
  refine ⟨seen', ?_⟩
  have hclock := @Que.clock_returns _ c addrBits s.que false inv.pop_not_empty
  rw [hclock] at hq'
  obtain rfl := Except.ok.inj hq'
  obtain rfl := Que.popClock_ok hq
  -- the read index is settled before the call, so the update in between changes nothing
  have hrd := inv.rd
  have hsame : (s.que.pushWrites c addrBits false).setRdIdx addrBits false =
      (s.que.pushClock c addrBits false).setRdIdx addrBits false := by
    unfold Que.setRdIdx Que.nextRdIdx Que.pushClock Que.update Que.pushWrites ScSignal.read ScSignal.update
    simp only [hrd]
  rw [hsame]
  exact inv₂

theorem cycleStep (inv : QueInv c addrBits seen s) (hab : addrBits < c.addrLimit) (a : CycleAct T) {s' : QueSys T}
    (h : QueSys.cycleStep c addrBits s a = .ok s') : ∃ seen', QueInv c addrBits seen' s' := by
  cases a with
  | push data =>
    obtain ⟨s₁, h₁, inv₁⟩ := inv.push hab data (inv.push_allowed h)
    rw [show QueSys.step c addrBits s (.push data) = .ok s' from h] at h₁
    obtain rfl := Except.ok.inj h₁
    exact ⟨seen, inv₁⟩
  | pop =>
    obtain ⟨s₁, h₁, inv₁⟩ := inv.pop (inv.pop_allowed h)
    rw [show QueSys.step c addrBits s .pop = .ok s' from h] at h₁
    obtain rfl := Except.ok.inj h₁
    exact ⟨seen, inv₁⟩
  | clock => exact inv.clock hab h

end QueInv

/-! ## The state behind a reset -/

namespace Que

variable {T : Type} {c : QueClass} {addrBits : ℕ}

theorem Cleared.emptied {q : Que T} (h : Cleared c q) (hab : addrBits < c.addrLimit) : Emptied c addrBits q := by
  have inv : QueInv c addrBits 0 (QueSys.start q) := h.inv
  refine ⟨inv.size_eq hab, inv.empty_iff.2 rfl, ?_, ?_⟩
  · have hpos : 0 < 2 ^ addrBits := Nat.two_pow_pos addrBits
    have hfull : ¬q.full addrBits = true := by
      intro hf
      have hle : 0 + 2 ^ addrBits ≤ 0 := (inv.full_iff hab).1 hf
      omega
    simpa using hfull
  · intro s hs x hx
    have hrun : ∃ seen, QueInv c addrBits seen s := by
      clear hx
      revert s
      apply Lts.Reach.invariant
      · exact ⟨0, inv⟩
      · rintro s s' a - ⟨seen, hinv⟩ - he
        exact hinv.cycleStep hab a he
    obtain ⟨seen, hinv⟩ := hrun
    -- the popped elements are a prefix of the pushed ones
    rw [hinv.popped, List.head?_take] at hx
    split at hx
    · cases hx
    · exact hx

/-- One `clock(true)` leaves only the copy of the write index behind. -/
theorem clock_reset (q : Que T) :
    ∃ q', q.clock c addrBits true = .ok q' ∧ q'.cmpWrIdx = ⟨0, 0⟩ ∧ q'.cmpRdIdx = ⟨0, 0⟩ ∧
      (c.bCmpWrIdx2 = true → q'.cmpWrIdx2 = ⟨q.cmpWrIdx.read, q.cmpWrIdx.read⟩) ∧
      ((c.bCmpWrIdx2 = true → q.cmpWrIdx.read = 0) → Cleared c q') := by
  have hwr2 : c.bCmpWrIdx2 = true →
      ((q.pushWrites c addrBits true).setRdIdx addrBits true).cmpWrIdx2 = ⟨q.cmpWrIdx.read, q.cmpWrIdx.read⟩ := by
    intro hc
    simp [setRdIdx, pushWrites, update, ScSignal.write, ScSignal.update, hc]
  have hzero : ∀ n, scUint n 0 = 0 := fun n => Nat.zero_mod _
  refine ⟨_, rfl, ?_, ?_, hwr2, ?_⟩
  · simp [setRdIdx, pushWrites, update, nextWrIdx, ScSignal.write, ScSignal.update, hzero]
  · simp [setRdIdx, update, nextRdIdx, ScSignal.write, ScSignal.update, hzero]
  · intro hz
    exact
      { rstPop := rfl, rstPush := rfl
        wr := by simp [setRdIdx, pushWrites, update, nextWrIdx, ScSignal.write, ScSignal.update, hzero]
        wr2 := by
          intro hc
          rw [hwr2 hc, hz hc]
        rd := by simp [setRdIdx, update, nextRdIdx, ScSignal.write, ScSignal.update, hzero]
        wrIdx := rfl, rdIdx := rfl, bPush := rfl, bPop := rfl }

/-- From a zero write index on, any number of resets leaves the queue cleared. -/
theorem reset_cleared (n : ℕ) : ∀ q : Que T, q.cmpWrIdx.read = 0 → ∃ q', q.reset c addrBits n = .ok q' ∧ Cleared c q' := by
  induction n with
  | zero =>
    intro q hq
    obtain ⟨q', h, -, -, -, hclear⟩ := @Que.clock_reset _ c addrBits q
    exact ⟨q', h, hclear fun _ => hq⟩
  | succ n ih =>
    intro q _
    obtain ⟨q₁, h₁, hwr, -⟩ := @Que.clock_reset _ c addrBits q
    obtain ⟨q', h, hclear⟩ := ih q₁ (by rw [hwr]; rfl)
    refine ⟨q', ?_, hclear⟩
    rw [reset, h₁]
    exact h

end Que

variable {T : Type} {c : QueClass} {addrBits : ℕ}

/-- **When a reset empties a queue.** In every state of a queue, with whatever is stored and pending: `clock(true)` and
`n` more leave it empty, and what is popped first afterwards is what was pushed first, exactly when the class compares
with the write index itself, a second reset clock follows, or the write index was zero before. -/
theorem reset_empties (c : QueClass) (addrBits : ℕ) (hab : addrBits < c.addrLimit) (q : Que T) (n : ℕ) :
    (∃ q', q.reset c addrBits n = .ok q' ∧ Emptied c addrBits q') ↔
      (c = .htDistQue ∨ 1 ≤ n ∨ q.cmpWrIdx.read = 0) := by
  obtain ⟨q₁, h₁, hwr, hrd, hwr2, hclear⟩ := @Que.clock_reset _ c addrBits q
  constructor
  · rintro ⟨q', hq', hempt⟩
    cases n with
    | succ n => exact .inr (.inl (by omega))
    | zero =>
      rw [Que.reset, h₁] at hq'
      obtain rfl := Except.ok.inj hq'
      have he := hempt.empty
      -- the two classes with the copy compare the old write index with zero
      have hold : c.bCmpWrIdx2 = true → q.cmpWrIdx.read = 0 := by
        intro hc
        unfold Que.empty at he
        cases c with
        | htDistQue => cases hc
        | htBlockQue => simpa [hwr2 hc, hrd, ScSignal.read] using he
        | htUltraQue => simpa [hwr2 hc, hrd, ScSignal.read] using he
      cases c with
      | htDistQue => exact .inl rfl
      | htBlockQue => exact .inr (.inr (hold rfl))
      | htUltraQue => exact .inr (.inr (hold rfl))
  · intro hcond
    cases n with
    | succ n =>
      obtain ⟨q', h, hq'⟩ := @Que.reset_cleared _ c addrBits n q₁ (by rw [hwr]; rfl)
      refine ⟨q', ?_, hq'.emptied hab⟩
      rw [Que.reset, h₁]
      exact h
    | zero =>
      refine ⟨q₁, h₁, (hclear ?_).emptied hab⟩
      intro hc
      rcases hcond with rfl | hn | hz
      · cases hc
      · omega
      · exact hz

theorem reset_empties_dist :
    ∃ q', (Que.constructed (fun _ => 0) 0 5 6).reset .htDistQue 3 0 = .ok q' ∧ Emptied .htDistQue 3 q' :=
  (reset_empties .htDistQue 3 (by decide) (Que.constructed (fun _ => 0) 0 5 6) 0).2 (.inl rfl)

/-- Two reset clocks, a push with its clock, and one reset clock: `empty()` of a block queue is false. -/
theorem not_empty_after_one_reset :
    ¬∀ (c : QueClass) (addrBits : ℕ), addrBits < c.addrLimit → ∀ (que : ℕ → ℕ) (pushData rdIdx wrIdx : ℕ) (q : Que ℕ),
      Lts.Reach (Que.call c addrBits) (fun _ _ => True) (Que.constructed que pushData rdIdx wrIdx) q →
        ∀ n, ∃ q', q.reset c addrBits n = .ok q' ∧ Emptied c addrBits q' := by
  intro hall
  have hrun := @Lts.Reach.run _ _ _ (Que.call .htBlockQue 2) (fun _ _ => True) (Que.constructed (fun _ => 0) 0 0 0)
    [.clock true, .clock true, .push 7, .clock false] _ _ .init (fun _ _ _ => trivial) rfl
  obtain ⟨q', hq', hempt⟩ := hall .htBlockQue 2 (by decide) (fun _ => 0) 0 0 0 _ hrun 0
  obtain rfl := Except.ok.inj hq'
  have he := hempt.empty
  revert he
  decide

end OpenHT.Sysc
