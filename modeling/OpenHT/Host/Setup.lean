import OpenHT.Host.Frames
import OpenHT.Host.Runs

/-!
# Set-up

The host unit is constructed with the addresses and the sizes of both block regions, the
model unit reads them from the first messages of the host. A block can be announced, and
looked at, only when the unit concerned knows where it is:

* `Half`: what half of a unit knows of a block region.
* `Setup`: the set-up messages come first, and the model unit knows what it has read.
* `reach_setup`, `tx_known`, `rx_known`: a sending half that knows its block size, and a
  receiving half with a block at the front, know the address of the current block.
-/

namespace OpenHT.Host

open Host.Core Lts

/-- What half of a unit knows of the blocks written by `p` after `k` messages: message `i`
holds the address, message `j` the sizes. -/
structure Half (cfg : Cfg) (p : Party) (i j k : ℕ) (param : Option BlkParam) (base blk idx : ℕ) : Prop where
  base : i < k → base = cfg.blkBase p
  blk : i < k → blk = cfg.addr p idx
  param : param = if j < k then some (cfg.blkParam p) else none
  idle : k ≤ j → idx = 0

/-- The sending half. -/
def Tx.Half (cfg : Cfg) (p : Party) (i j k : ℕ) (t : Tx) : Prop :=
  Host.Half cfg p i j k t.param t.blkBase t.blk t.blkIdx

/-- The receiving half. -/
def Rx.Half (cfg : Cfg) (p : Party) (i j k : ℕ) (r : Rx) : Prop :=
  Host.Half cfg p i j k r.param r.blkBase r.blk r.blkIdx

section Halves

variable {cfg : Cfg} {p : Party} {i j k : ℕ} {param : Option BlkParam} {base blk idx : ℕ} {b : BlkParam}

/-- A half that knows the sizes knows everything. -/
theorem Half.known (h : Half cfg p i j k param base blk idx) (hij : i ≤ j) (hb : param = some b) :
    b = cfg.blkParam p ∧ base = cfg.blkBase p ∧ blk = cfg.addr p idx := by
  have hk : j < k := by
    by_contra hk
    have hnone := h.param
    rw [if_neg hk, hb] at hnone
    cases hnone
  have hparam := h.param
  rw [if_pos hk, hb] at hparam
  exact ⟨Option.some.inj hparam, h.base (by omega), h.blk (by omega)⟩

/-- Going on to the next block. -/
theorem Half.next (h : Half cfg p i j k param base blk idx) (hij : i ≤ j) (hb : param = some b) :
    Half cfg p i j k param base (b.addr base (idx + 1)) (idx + 1) := by
  obtain ⟨rfl, rfl, -⟩ := h.known hij hb
  refine ⟨fun _ => rfl, fun _ => rfl, h.param, ?_⟩
  intro hk
  have hnone := h.param
  rw [if_neg (by omega), hb] at hnone
  cases hnone

end Halves

/-! ### The set-up messages -/

/-- The constructor's messages without the initial credits. -/
def setupMsgs (cfg : Cfg) : List CtrlMsg := (ctorMsgs cfg).filter (fun m => m.cmd ≠ Party.host.cmdAvl)

variable {cfg : Cfg} {p : Party} {a : Act} {A A' B B' : Lane} {t t' u u' : Thread}

theorem setupMsgs_isSetup {m : CtrlMsg} (h : m ∈ setupMsgs cfg) : m.cmd.isSetup := by
  rw [setupMsgs, List.mem_filter] at h
  rcases mem_ctorMsgs h.1 with hm | hm
  · exact hm
  · simp [hm, Party.cmdAvl] at h

/-- The four messages that configure the model unit come first. -/
theorem setupMsgs_eq (cfg : Cfg) : ∃ rest, (∀ m ∈ rest, m.cmd = .ctlParam ∨ m.cmd = .oblkFlshAdr) ∧
    setupMsgs cfg = [.make HifCmd.iblkAdr.toType (8 * cfg.inBlkBase),
      .make HifCmd.oblkAdr.toType (8 * cfg.outBlkBase),
      .make HifCmd.iblkParam.toType (cfg.params.iBlkSizeW ||| cfg.params.iBlkCntW <<< 8),
      .make HifCmd.oblkParam.toType (cfg.params.oBlkSizeW ||| cfg.params.oBlkCntW <<< 8 |||
        (cfg.params.oBlkTimerUSec * cfg.unitMHz) <<< 16)] ++ rest := by
  have havl : ((List.range (cfg.blkCnt .model)).map
      (fun i => Party.host.avlMsg ((i + 2 ^ 32 - 16) % 2 ^ 32))).filter
        (fun m => m.cmd ≠ Party.host.cmdAvl) = [] := by
    rw [List.filter_eq_nil_iff]
    simp
  refine ⟨[.make HifCmd.ctlParam.toType (cfg.params.ctlTimerUSec * cfg.unitMHz)] ++
    (cfg.flushLinesBase.map (fun a => .make HifCmd.oblkFlshAdr.toType (8 * a))).toList, ?_, ?_⟩
  · intro m hm
    simp only [List.mem_append, List.mem_singleton, Option.mem_toList, Option.map_eq_some_iff] at hm
    rcases hm with rfl | ⟨x, -, rfl⟩
    · exact .inl rfl
    · exact .inr rfl
  · simp only [setupMsgs, ctorMsgs, List.filter_append, havl]
    cases cfg.flushLinesBase <;> rfl

theorem setupMsgs_getElem (k : ℕ) {m : CtrlMsg} (h : (setupMsgs cfg)[k]? = some m) :
    (k = 0 ∧ m = .make HifCmd.iblkAdr.toType (8 * cfg.inBlkBase)) ∨
    (k = 1 ∧ m = .make HifCmd.oblkAdr.toType (8 * cfg.outBlkBase)) ∨
    (k = 2 ∧ m = .make HifCmd.iblkParam.toType (cfg.params.iBlkSizeW ||| cfg.params.iBlkCntW <<< 8)) ∨
    (k = 3 ∧ m = .make HifCmd.oblkParam.toType (cfg.params.oBlkSizeW ||| cfg.params.oBlkCntW <<< 8 |||
      (cfg.params.oBlkTimerUSec * cfg.unitMHz) <<< 16)) ∨
    (4 ≤ k ∧ (m.cmd = .ctlParam ∨ m.cmd = .oblkFlshAdr)) := by
  obtain ⟨rest, hrest, heq⟩ := setupMsgs_eq cfg
  rw [heq] at h
  rcases k with _ | _ | _ | _ | k
  · exact .inl ⟨rfl, (Option.some.inj h).symm⟩
  · exact .inr (.inl ⟨rfl, (Option.some.inj h).symm⟩)
  · exact .inr (.inr (.inl ⟨rfl, (Option.some.inj h).symm⟩))
  · exact .inr (.inr (.inr (.inl ⟨rfl, (Option.some.inj h).symm⟩)))
  · refine .inr (.inr (.inr (.inr ⟨by omega, hrest m ?_⟩)))
    exact List.mem_of_getElem? (i := k) (by simpa using h)

/-- An address message holds its address. -/
theorem adr_data (ty : ℕ) {base : ℕ} (h : 8 * base < 2 ^ 56) : (CtrlMsg.make ty (8 * base)).data / 8 = base := by
  rw [CtrlMsg.data_make]
  omega

/-- A parameter message holds the size and the number of the blocks. -/
theorem param_make (ty : ℕ) {sizeW cntW x : ℕ} (hs : 3 ≤ sizeW) (hs' : sizeW < 256) (hc : cntW < 256)
    (hx : x < 2 ^ 28) : (CtrlMsg.make ty (sizeW ||| cntW <<< 8 ||| x <<< 16)).param =
      ⟨(1 <<< sizeW) / 8, 1 <<< cntW - 1⟩ := by
  have h1 : cntW <<< 8 ||| sizeW = 256 * cntW + sizeW := by
    rw [← Nat.shiftLeft_add_eq_or_of_lt (by simpa using hs'), Nat.shiftLeft_eq]
    omega
  have h2 : x <<< 16 ||| (256 * cntW + sizeW) = 65536 * x + (256 * cntW + sizeW) := by
    rw [← Nat.shiftLeft_add_eq_or_of_lt (by simp only [Nat.reducePow]; omega), Nat.shiftLeft_eq]
    omega
  have hdata : (CtrlMsg.make ty (sizeW ||| cntW <<< 8 ||| x <<< 16)).data =
      65536 * x + (256 * cntW + sizeW) := by
    rw [CtrlMsg.data_make, Nat.or_comm sizeW, h1, Nat.or_comm, h2]
    omega
  have hmask : ∀ n : ℕ, n &&& 0xff = n % 256 := by
    intro n
    rw [show 0xff = 2 ^ 8 - 1 from rfl, Nat.and_two_pow_sub_one_eq_mod]
  have hsize : (65536 * x + (256 * cntW + sizeW)) &&& 0xff = sizeW := by
    rw [hmask]
    omega
  have hcnt : (65536 * x + (256 * cntW + sizeW)) >>> 8 &&& 0xff = cntW := by
    rw [hmask, Nat.shiftRight_eq_div_pow]
    omega
  rw [CtrlMsg.param, hdata, hsize, hcnt]
  congr 1
  obtain ⟨d, rfl⟩ : ∃ d, sizeW = d + 3 := ⟨sizeW - 3, by omega⟩
  rw [Nat.one_shiftLeft, Nat.one_shiftLeft, Nat.pow_add]
  simp

/-- **The model's receiving half reads the next set-up message.** -/
theorem Rx.Half.setup {r : Rx} {k : ℕ} {m : CtrlMsg} (h : r.Half cfg .host 0 2 k)
    (hm : (setupMsgs cfg)[k]? = some m) : (r.setup m).Half cfg .host 0 2 (k + 1) := by
  obtain ⟨-, -, ⟨hs1, hs2⟩, ⟨hc1, hc2⟩, -, -⟩ := HifParams.admitted_iff.1 cfg.admitted
  have hidle := h.idle
  rcases setupMsgs_getElem k hm with ⟨rfl, rfl⟩ | ⟨rfl, rfl⟩ | ⟨rfl, rfl⟩ | ⟨rfl, rfl⟩ | ⟨hk, hcmd⟩
  · have hbase := adr_data HifCmd.iblkAdr.toType cfg.inBlkBase_lt
    have hidx : r.blkIdx = 0 := hidle (by omega)
    refine ⟨fun _ => hbase, fun _ => ?_, h.param, fun _ => hidx⟩
    exact hbase.trans (by rw [show (r.setup _).blkIdx = r.blkIdx from rfl, hidx, addr_zero]; rfl)
  · exact ⟨fun _ => h.base (by omega), fun _ => h.blk (by omega), h.param, fun _ => hidle (by omega)⟩
  · refine ⟨fun _ => h.base (by omega), fun _ => h.blk (by omega), ?_, fun hk => by omega⟩
    rw [if_pos (by omega)]
    have hparam := param_make HifCmd.iblkParam.toType (x := 0) (show 3 ≤ cfg.params.iBlkSizeW by omega)
      (by omega) (show cfg.params.iBlkCntW < 256 by omega) (by omega)
    simp only [Nat.zero_shiftLeft, Nat.or_zero] at hparam
    exact congrArg some hparam
  · exact ⟨fun _ => h.base (by omega), fun _ => h.blk (by omega), h.param, fun hk => by omega⟩
  · have hr : r.setup m = r := by rcases hcmd with hcmd | hcmd <;> simp [Rx.setup, hcmd]
    rw [hr]
    refine ⟨fun _ => h.base (by omega), fun _ => h.blk (by omega), ?_, fun hk => by omega⟩
    rw [h.param, if_pos (by omega), if_pos (by omega)]

/-- **The model's sending half reads the next set-up message.** -/
theorem Tx.Half.setup {x : Tx} {k : ℕ} {m : CtrlMsg} (h : x.Half cfg .model 1 3 k)
    (hm : (setupMsgs cfg)[k]? = some m) : (x.setup m).Half cfg .model 1 3 (k + 1) := by
  obtain ⟨-, -, -, -, ⟨hs1, hs2⟩, ⟨hc1, hc2⟩⟩ := HifParams.admitted_iff.1 cfg.admitted
  have hidle := h.idle
  rcases setupMsgs_getElem k hm with ⟨rfl, rfl⟩ | ⟨rfl, rfl⟩ | ⟨rfl, rfl⟩ | ⟨rfl, rfl⟩ | ⟨hk, hcmd⟩
  · exact ⟨fun hk => by omega, fun hk => by omega, h.param, fun _ => hidle (by omega)⟩
  · have hbase := adr_data HifCmd.oblkAdr.toType cfg.outBlkBase_lt
    have hidx : x.blkIdx = 0 := hidle (by omega)
    refine ⟨fun _ => hbase, fun _ => ?_, h.param, fun _ => hidx⟩
    exact hbase.trans (by rw [show (x.setup _).blkIdx = x.blkIdx from rfl, hidx, addr_zero]; rfl)
  · exact ⟨fun _ => h.base (by omega), fun _ => h.blk (by omega), h.param, fun _ => hidle (by omega)⟩
  · refine ⟨fun _ => h.base (by omega), fun _ => h.blk (by omega), ?_, fun hk => by omega⟩
    rw [if_pos (by omega)]
    have htimer : cfg.params.oBlkTimerUSec * cfg.unitMHz < 2 ^ 28 := cfg.outBlkTimer_lt
    exact congrArg some (param_make HifCmd.oblkParam.toType (by omega) (by omega) (by omega) htimer)
  · have hx : x.setup m = x := by rcases hcmd with hcmd | hcmd <;> simp [Tx.setup, hcmd]
    rw [hx]
    refine ⟨fun _ => h.base (by omega), fun _ => h.blk (by omega), ?_, fun hk => by omega⟩
    rw [h.param, if_pos (by omega), if_pos (by omega)]

/-! ### Moves -/

/-- A move other than set-up keeps what the acting unit knows. -/
structure Advance (cfg : Cfg) (A A' B B' : Lane) : Prop where
  tx : ∀ p i j k, i ≤ j → A.tx.Half cfg p i j k → A'.tx.Half cfg p i j k
  rx : ∀ p i j k, i ≤ j → B.rx.Half cfg p i j k → B'.rx.Half cfg p i j k

theorem Advance.refl (cfg : Cfg) (A B : Lane) : Advance cfg A A B B :=
  ⟨fun _ _ _ _ _ h => h, fun _ _ _ _ _ h => h⟩

/-- Giving up the current block. -/
theorem Advance.next {b : BlkParam} (hb : A.tx.param = some b) (hA : A'.tx.param = A.tx.param ∧
      A'.tx.blkBase = A.tx.blkBase ∧ A'.tx.blk = b.addr A.tx.blkBase (A.tx.blkIdx + 1) ∧
      A'.tx.blkIdx = A.tx.blkIdx + 1) : Advance cfg A A' B B := by
  refine ⟨fun p i j k hij h => ?_, fun _ _ _ _ _ h => h⟩
  obtain ⟨h1, h2, h3, h4⟩ := hA
  rw [Tx.Half, h1, h2, h3, h4]
  exact Half.next h hij hb

/-- Finishing with a received block. -/
theorem Advance.nextRx {b : BlkParam} (hb : B.rx.param = some b) (hA : A'.tx.param = A.tx.param ∧
      A'.tx.blkBase = A.tx.blkBase ∧ A'.tx.blk = A.tx.blk ∧ A'.tx.blkIdx = A.tx.blkIdx)
    (hB : B'.rx.param = B.rx.param ∧ B'.rx.blkBase = B.rx.blkBase ∧
      B'.rx.blk = b.addr B.rx.blkBase (B.rx.blkIdx + 1) ∧ B'.rx.blkIdx = B.rx.blkIdx + 1) :
    Advance cfg A A' B B' := by
  refine ⟨fun p i j k hij h => ?_, fun p i j k hij h => ?_⟩
  · obtain ⟨h1, h2, h3, h4⟩ := hA
    rw [Tx.Half, h1, h2, h3, h4]
    exact h
  · obtain ⟨h1, h2, h3, h4⟩ := hB
    rw [Rx.Half, h1, h2, h3, h4]
    exact Half.next h hij hb

theorem Advance.filled {L : Lane} {b : BlkParam} (hf : L.Filled p b A') (hb : A.tx.param = some b)
    (hL : L.tx.param = A.tx.param ∧ L.tx.blkBase = A.tx.blkBase ∧ L.tx.blk = A.tx.blk ∧
      L.tx.blkIdx = A.tx.blkIdx) : Advance cfg A A' B B := by
  obtain ⟨h1, h2, h3, h4⟩ := hL
  rcases hf with ⟨-, ⟨rfl, -⟩ | ⟨-, -, -, rfl⟩⟩
  · refine ⟨fun p i j k _ h => ?_, fun _ _ _ _ _ h => h⟩
    rw [Tx.Half, h1, h2, h3, h4]
    exact h
  · refine .next hb ⟨h1, h2, ?_, ?_⟩
    · simp only [Lane.flush, Lane.next, Lane.post, h2, h4]
    · simp only [Lane.flush, Lane.next, Lane.post, h4]

/-- The front message of the receiver is a set-up message. -/
def Move.IsSetup (p : Party) (A A' B B' : Lane) : Prop :=
  ∃ m ms, B.rx.msgQue = m :: ms ∧ m.cmd.isSetup ∧ (p = .host → m.cmd = .assert ∨ m.cmd = .assertColl) ∧
    A'.tx = A.tx.setup m ∧ B' = { B with rx := B.rx.setup m }.setQue ms

/-- A move looks at a set-up message, or both halves of the unit only go on to other blocks. -/
theorem Move.advance (cfg : Cfg) (hm : Move p a A B t A' B' t') :
    Move.IsSetup p A A' B B' ∨ Advance cfg A A' B B' := by
  cases hm with
  | skip => exact .inr (.refl ..)
  | exhaust => exact .inr (.refl ..)
  | ctor => exact .inr ⟨fun _ _ _ _ _ h => h, fun _ _ _ _ _ h => h⟩
  | flush _ _ _ _ _ hf =>
    rcases hf with ⟨-, rfl⟩ | ⟨-, -, b, hb, rfl⟩
    · exact .inr (.refl ..)
    · exact .inr (.next hb ⟨rfl, rfl, rfl, rfl⟩)
  | ctl x _ _ _ hb => exact .inr (.next hb ⟨rfl, rfl, rfl, rfl⟩)
  | user => exact .inr ⟨fun _ _ _ _ _ h => h, fun _ _ _ _ _ h => h⟩
  | data _ _ _ hb _ hf => exact .inr (.filled hf hb ⟨rfl, rfl, rfl, rfl⟩)
  | arg _ _ _ hb _ hf => exact .inr (.filled hf hb ⟨rfl, rfl, rfl, rfl⟩)
  | take _ _ hb => exact .inr (.next hb ⟨rfl, rfl, rfl, rfl⟩)
  | postCall => exact .inr ⟨fun _ _ _ _ _ h => h, fun _ _ _ _ _ h => h⟩
  | credit => exact .inr ⟨fun _ _ _ _ _ h => h, fun _ _ _ _ _ h => h⟩
  | que => exact .inr ⟨fun _ _ _ _ _ h => h, fun _ _ _ _ _ h => h⟩
  | setup hq hs hhost => exact .inl ⟨_, _, hq, hs, hhost, rfl, rfl⟩
  | announce => exact .inr ⟨fun _ _ _ _ _ h => h, fun _ _ _ _ _ h => h⟩
  | resume => exact .inr (.refl ..)
  | msg => exact .inr ⟨fun _ _ _ _ _ h => h, fun _ _ _ _ _ h => h⟩
  | ctlBlk x _ _ _ _ _ _ _ _ hb => exact .inr (.nextRx hb ⟨rfl, rfl, rfl, rfl⟩ ⟨rfl, rfl, rfl, rfl⟩)
  | call0 _ _ _ _ _ _ hb => exact .inr (.nextRx hb ⟨rfl, rfl, rfl, rfl⟩ ⟨rfl, rfl, rfl, rfl⟩)
  | callHdr _ _ _ _ _ _ _ hb =>
    refine .inr (.nextRx hb ⟨rfl, rfl, rfl, rfl⟩ ?_)
    simp [Lane.setQue, Lane.nextRx]
  | again _ _ _ hr =>
    refine .inr ⟨fun _ _ _ _ _ h => h, fun _ _ _ _ _ h => ?_⟩
    rcases hr with rfl | rfl <;> exact h
  | abandon => exact .inr (.refl ..)
  | part => exact .inr ⟨fun _ _ _ _ _ h => h, fun _ _ _ _ _ h => h⟩
  | whole _ _ _ hb => exact .inr (.nextRx hb ⟨rfl, rfl, rfl, rfl⟩ ⟨rfl, rfl, rfl, rfl⟩)
  | args _ _ _ _ _ hb =>
    refine .inr (.nextRx hb ⟨rfl, rfl, rfl, rfl⟩ ?_)
    simp [Lane.deliver, Lane.setQue, Lane.nextRx]

/-- The messages of `p` the other party has still to look at. -/
def Lane.todo (p : Party) (A : Lane) (t : Thread) : List CtrlMsg :=
  A.pend p ++ t.pc.view.unsent.filter (fun m => m.cmd ≠ p.cmdAvl)

theorem todo_eq {l : List CtrlMsg} (hrx : A'.rx = A.rx) (hl : A'.live = A.live ++ l)
    (hu : t'.pc.view.unsent = []) (hu' : t.pc.view.unsent = []) :
    A'.todo p t' = A.todo p t ++ l.filter (fun m => m.cmd ≠ p.cmdAvl) := by
  simp [Lane.todo, Lane.pend, hrx, hl, hu, hu', List.filter_append]

/-- The sender adds messages at the end; none of them is for set-up. -/
theorem Move.todo_own (hm : Move p a A B t A' B' t') :
    ∃ l, A'.todo p t' = A.todo p t ++ l ∧ ∀ m ∈ l, m.cmd.isSetup = false := by
  have hrx := hm.rx_own
  have hkeep : A'.live = A.live → t'.pc.view.unsent = t.pc.view.unsent →
      ∃ l, A'.todo p t' = A.todo p t ++ l ∧ ∀ m ∈ l, m.cmd.isSetup = false := by
    intro hl hu
    exact ⟨[], by simp [Lane.todo, Lane.pend, hrx, hl, hu], by simp⟩
  have hpost : ∀ m : CtrlMsg, A'.live = A.live ++ [m] → m.cmd.isSetup = false → t'.pc.view.unsent = [] →
      t.pc.view.unsent = [] → ∃ l, A'.todo p t' = A.todo p t ++ l ∧ ∀ m ∈ l, m.cmd.isSetup = false := by
    intro m hl hm hu hu'
    refine ⟨_, todo_eq hrx hl hu hu', fun x hx => ?_⟩
    obtain rfl := List.mem_singleton.1 (List.mem_of_mem_filter hx)
    exact hm
  have hrdy : ∀ n dq, (p.rdyMsg n dq).cmd.isSetup = false := by
    intro n dq
    rw [Party.cmd_rdyMsg]
    cases p <;> rfl
  have havl : ∀ i, (p.avlMsg i).cmd.isSetup = false := by
    intro i
    rw [Party.cmd_avlMsg]
    cases p <;> rfl
  cases hm with
  | skip hk => exact hkeep rfl hk.unsent
  | exhaust hpc => exact hkeep rfl (by simp [hpc, Pc.view, Thread.goto])
  | ctor hpc =>
    rename_i m ms
    refine ⟨[], ?_, by simp⟩
    by_cases hm : m.cmd = p.cmdAvl <;>
      simp [Lane.todo, Lane.pend, Lane.post, hpc, Pc.view, Thread.goto, hm]
  | flush hk _ _ _ hu hf =>
    rcases hf with ⟨-, rfl⟩ | ⟨-, -, b, -, rfl⟩
    · exact hkeep rfl hk.unsent
    · exact hpost _ rfl (hrdy _ _) (hk.unsent.trans hu) hu
  | ctl x hpc hpc' =>
    refine hpost _ rfl (hrdy _ _) (by simp [hpc', Pc.view]) ?_
    rcases hpc with hpc | hpc <;> simp [hpc, Pc.view]
  | user m hpc =>
    refine hpost _ rfl ?_ rfl (by simp [hpc, Pc.view])
    rw [CtrlMsg.cmd_make_user m.type_ge m.type_lt]
    rfl
  | data hpc _ _ _ _ hf =>
    rcases hf with ⟨-, ⟨rfl, -⟩ | ⟨-, -, -, rfl⟩⟩
    · exact hkeep rfl (by simp [hpc, Pc.view, Thread.goto])
    · exact hpost _ rfl (hrdy _ _) rfl (by simp [hpc, Pc.view])
  | arg hpc _ _ _ _ hf =>
    rcases hf with ⟨-, ⟨rfl, -⟩ | ⟨-, -, -, rfl⟩⟩
    · exact hkeep rfl (by simp [hpc, Pc.view, Thread.goto])
    · exact hpost _ rfl (hrdy _ _) rfl (by simp [hpc, Pc.view])
  | take hpc => exact hkeep rfl (by rcases hpc with hpc | hpc <;> simp [hpc, Pc.view, Thread.goto])
  | postCall hpc => exact hpost _ rfl (hrdy _ _) rfl (by simp [hpc, Pc.view])
  | credit => exact hkeep rfl rfl
  | que => exact hkeep rfl rfl
  | setup => exact hkeep rfl rfl
  | announce hr hk => exact hkeep rfl hk.unsent
  | resume hpc => exact hkeep rfl (by simp [hpc, Pc.view, Thread.goto])
  | msg hr => exact hkeep rfl hr.unsent.symm
  | ctlBlk x hr hk => exact hpost _ rfl (havl _) (hk.unsent.trans hr.unsent) hr.unsent
  | call0 hr => exact hpost _ rfl (havl _) rfl hr.unsent
  | callHdr hr => exact hpost _ rfl (havl _) rfl hr.unsent
  | again _ _ hr => exact hkeep rfl hr.unsent.symm
  | abandon _ hpc => exact hkeep rfl (by simp [hpc, Pc.view, Thread.finish])
  | part hpc => exact hkeep rfl (by simp [hpc, Pc.view, Thread.goto])
  | whole hpc => exact hpost _ rfl (havl _) rfl (by simp [hpc, Pc.view])
  | args hpc => exact hpost _ rfl (havl _) rfl (by simp [hpc, Pc.view])

/-- The receiver looks at the messages in order. -/
theorem Move.pend_peer (hm : Move p.other a B A u B' A' u')
    (hbody : u.pc.view.rxMode = .body → A.DataFront p) :
    A'.pend p = A.pend p ∨ (∃ m, m.cmd.isSetup = false ∧ A.pend p = m :: A'.pend p) ∨
      Move.IsSetup p.other B B' A A' := by
  have hrdy : ∀ m : CtrlMsg, m.cmd = p.cmdRdy → m.cmd.isSetup = false := by
    intro m hm
    rw [hm]
    cases p <;> rfl
  cases hm with
  | credit hlive hcmd =>
    rw [Party.other_other] at hcmd
    exact .inl (pend_fetch hlive hcmd)
  | que hlive hcmd =>
    rw [Party.other_other] at hcmd
    exact .inl (pend_que hlive hcmd)
  | setup hq hs hhost => exact .inr (.inr ⟨_, _, hq, hs, hhost, rfl, rfl⟩)
  | announce => exact .inl (pend_congr rfl rfl)
  | msg hr hq hcmd => exact .inr (.inl ⟨_, by rw [hcmd]; rfl, pend_pop hq rfl rfl⟩)
  | ctlBlk x _ _ _ _ _ hq hcmd =>
    rw [Party.other_other] at hcmd
    exact .inr (.inl ⟨_, hrdy _ hcmd, pend_pop hq rfl rfl⟩)
  | call0 _ _ hq hcmd =>
    rw [Party.other_other] at hcmd
    exact .inr (.inl ⟨_, hrdy _ hcmd, pend_pop hq rfl rfl⟩)
  | callHdr _ _ _ hq _ hcmd =>
    rw [Party.other_other] at hcmd
    exact .inr (.inl ⟨_, hrdy _ hcmd, pend_pop hq rfl rfl⟩)
  | again _ _ _ hr => exact .inl (pend_congr (by rcases hr with rfl | rfl <;> rfl) rfl)
  | part => exact .inl (pend_congr rfl rfl)
  | whole hpc _ hq =>
    obtain ⟨m, ms, hq', hcmd, -⟩ := hbody (by simp [hpc, Pc.view])
    rw [hq] at hq'
    cases hq'
    exact .inr (.inl ⟨_, hrdy _ hcmd, pend_pop hq rfl rfl⟩)
  | args _ hq hcmd =>
    rw [Party.other_other] at hcmd
    exact .inr (.inl ⟨_, hrdy _ hcmd, pend_pop hq (by simp [Lane.deliver, Lane.nextRx, Lane.setQue]) rfl⟩)
  | _ => exact .inl rfl

/-! ### The invariant -/

/-- After `k` set-up messages: `A` is the host's lane, `B` the model's, `t` the host's thread. -/
structure Setup (cfg : Cfg) (k : ℕ) (A B : Lane) (t : Thread) : Prop where
  todo : ∃ rest, A.todo .host t = (setupMsgs cfg).drop k ++ rest ∧ ∀ m ∈ rest, m.cmd.isSetup = false
  modelRx : A.rx.Half cfg .host 0 2 k
  modelTx : B.tx.Half cfg .model 1 3 k
  hostTx : A.tx.Half cfg .host 0 0 1
  hostRx : B.rx.Half cfg .model 0 0 1

variable {k : ℕ}

/-- A move of the host. -/
theorem Setup.own (h : Setup cfg k A B t) (hm : Move .host a A B t A' B' t') :
    Setup cfg k A' B' t' := by
  obtain ⟨rest, htodo, hrest⟩ := h.todo
  obtain ⟨l, hl, hl'⟩ := hm.todo_own
  have hA : A'.tx.Half cfg .host 0 0 1 ∧ B'.rx.Half cfg .model 0 0 1 := by
    rcases hm.advance cfg with ⟨m, ms, -, -, hhost, htx, hB⟩ | hadv
    · -- the host drops an assert message
      obtain ⟨h1, h2⟩ : A.tx.setup m = A.tx ∧ B.rx.setup m = B.rx := by
        rcases hhost rfl with hcmd | hcmd <;> simp [Tx.setup, Rx.setup, hcmd]
      rw [htx, h1, hB, h2]
      exact ⟨h.hostTx, h.hostRx⟩
    · exact ⟨hadv.tx _ _ _ _ le_rfl h.hostTx, hadv.rx _ _ _ _ le_rfl h.hostRx⟩
  refine ⟨⟨rest ++ l, ?_, ?_⟩, by rw [hm.rx_own]; exact h.modelRx, by rw [hm.tx_peer]; exact h.modelTx,
    hA.1, hA.2⟩
  · rw [hl, htodo, List.append_assoc]
  · intro m hm'
    rcases List.mem_append.1 hm' with hm' | hm'
    · exact hrest m hm'
    · exact hl' m hm'

/-- A move of the model unit. -/
theorem Setup.peer (h : Setup cfg k A B t) (hm : Move .model a B A u B' A' u')
    (hbody : u.pc.view.rxMode = .body → A.DataFront .host) : ∃ k, Setup cfg k A' B' t := by
  obtain ⟨rest, htodo, hrest⟩ := h.todo
  have hhost : A'.tx.Half cfg .host 0 0 1 ∧ B'.rx.Half cfg .model 0 0 1 := by
    rw [hm.tx_peer, hm.rx_own]
    exact ⟨h.hostTx, h.hostRx⟩
  -- nothing but the next set-up message is at the front until all are read
  have hpop : ∀ {m}, A.pend .host = m :: A'.pend .host →
      (m.cmd.isSetup = false ∧ ∃ rest', A'.todo .host t = (setupMsgs cfg).drop k ++ rest' ∧
        ∀ m ∈ rest', m.cmd.isSetup = false) ∨
      ((setupMsgs cfg)[k]? = some m ∧ ∃ rest', A'.todo .host t = (setupMsgs cfg).drop (k + 1) ++ rest' ∧
        ∀ m ∈ rest', m.cmd.isSetup = false) := by
    intro m hm'
    rw [Lane.todo, hm', List.cons_append] at htodo
    cases hd : (setupMsgs cfg).drop k with
    | nil =>
      rw [hd, List.nil_append] at htodo
      refine .inl ⟨hrest m (by rw [← htodo]; exact List.mem_cons_self), A'.todo .host t, by simp, ?_⟩
      intro x hx
      exact hrest x (by rw [← htodo]; exact List.mem_cons_of_mem _ hx)
    | cons m' l =>
      rw [hd, List.cons_append] at htodo
      obtain ⟨rfl, htail⟩ := List.cons.inj htodo
      have hget : (setupMsgs cfg)[k]? = some m := by
        have := congrArg (fun l => l[0]?) hd
        simpa using this
      have hdrop : (setupMsgs cfg).drop (k + 1) = l := by rw [← List.tail_drop, hd, List.tail_cons]
      exact .inr ⟨hget, rest, by rw [hdrop]; exact htail, hrest⟩
  have hstay : Advance cfg B B' A A' → (∃ rest', A'.todo .host t = (setupMsgs cfg).drop k ++ rest' ∧
      ∀ m ∈ rest', m.cmd.isSetup = false) → ∃ k, Setup cfg k A' B' t := by
    intro hadv htodo'
    exact ⟨k, htodo', hadv.rx _ _ _ _ (by omega) h.modelRx, hadv.tx _ _ _ _ (by omega) h.modelTx,
      hhost.1, hhost.2⟩
  have hsetup : Move.IsSetup .model B B' A A' → ∃ k, Setup cfg k A' B' t := by
    rintro ⟨m, ms, hq, hs, -, htx, rfl⟩
    obtain ⟨h2, -⟩ := setup_rx A.rx m
    rcases hpop (m := m) (pend_pop hq rfl rfl) with ⟨hns, -⟩ | ⟨hget, htodo'⟩
    · rw [hs] at hns
      cases hns
    · exact ⟨k + 1, htodo', Rx.Half.setup h.modelRx hget, by rw [htx]; exact Tx.Half.setup h.modelTx hget,
        hhost.1, hhost.2⟩
  rcases hm.advance cfg with hs | hadv
  · exact hsetup hs
  · rcases Move.pend_peer (p := .host) hm hbody with hp | ⟨m, hns, hp⟩ | hs
    · exact hstay hadv ⟨rest, by rw [Lane.todo, hp]; exact htodo, hrest⟩
    · rcases hpop hp with ⟨-, htodo'⟩ | ⟨hget, -⟩
      · exact hstay hadv htodo'
      · have := setupMsgs_isSetup (List.mem_of_getElem? hget)
        rw [hns] at this
        cases this
    · exact hsetup hs

theorem init_setup (cfg : Cfg) :
    Setup cfg 0 ((Sys.init cfg).core.lane .host) ((Sys.init cfg).core.lane .model)
      ((Sys.init cfg).thr .host) := by
  have hpend : ((Sys.init cfg).core.lane .host).pend .host = [] := by
    rw [Lane.pend, init_live]
    rfl
  refine ⟨⟨[], ?_, by simp⟩, ?_, ?_, ?_, ?_⟩
  · rw [Lane.todo, hpend]
    simp [Sys.init, Pc.view, setupMsgs]
  · exact ⟨by omega, by omega, rfl, fun _ => rfl⟩
  · exact ⟨by omega, by omega, rfl, fun _ => rfl⟩
  · exact ⟨fun _ => rfl, fun _ => (addr_zero cfg .host).symm, rfl, fun _ => rfl⟩
  · exact ⟨fun _ => rfl, fun _ => (addr_zero cfg .model).symm, rfl, fun _ => rfl⟩

variable {s : Sys} {ok : Sys → Act → Prop}

/-- **Set-up** in every run. -/
theorem reach_setup (h9 : cfg.params.ctlQueW = 9) (hr : Reach (exec cfg) ok (Sys.init cfg) s) :
    ∃ k, Setup cfg k (s.core.lane .host) (s.core.lane .model) (s.thr .host) := by
  refine Reach.invariant
    (I := fun s => ∃ k, Setup cfg k (s.core.lane .host) (s.core.lane .model) (s.thr .host))
    ⟨0, init_setup cfg⟩ ?_ s hr
  rintro s s' a hs ⟨k, h⟩ - he
  have hc : CreditOk cfg .host s := reach_credit h9 (by simp) hs
  rcases exec_dir .host h9 (reach_rings h9 hs) he with ⟨-, -, hm⟩ | ⟨-, ht, hm⟩
  · exact ⟨k, h.own hm⟩
  · rw [ht]
    exact h.peer hm hc.body

/-- A sending half that knows its block size knows where it writes. -/
structure TxKnown (cfg : Cfg) (p : Party) (x : Tx) : Prop where
  known : ∀ b, x.param = some b → b = cfg.blkParam p ∧ x.blkBase = cfg.blkBase p ∧
    x.blk = cfg.addr p x.blkIdx

/-- A receiving half knows where the blocks are once one is at the front. -/
structure RxKnown (cfg : Cfg) (p : Party) (A : Lane) : Prop where
  known : ∀ m ms, A.rx.msgQue = m :: ms → m.cmd = p.cmdRdy →
    A.rx.param = some (cfg.blkParam p) ∧ A.rx.blkBase = cfg.blkBase p ∧ A.rx.blk = cfg.addr p A.rx.blkIdx

theorem reach_txKnown (h9 : cfg.params.ctlQueW = 9) (hr : Reach (exec cfg) ok (Sys.init cfg) s) (p : Party) :
    TxKnown cfg p (s.core.lane p).tx := by
  obtain ⟨k, h⟩ := reach_setup h9 hr
  refine ⟨fun b hb => ?_⟩
  cases p with
  | host => exact Half.known h.hostTx le_rfl hb
  | model => exact Half.known h.modelTx (by omega) hb

theorem reach_rxKnown (h9 : cfg.params.ctlQueW = 9) (hr : Reach (exec cfg) ok (Sys.init cfg) s) (p : Party) :
    RxKnown cfg p (s.core.lane p) := by
  obtain ⟨k, h⟩ := reach_setup h9 hr
  refine ⟨fun m ms hq hcmd => ?_⟩
  cases p with
  | model =>
    exact ⟨h.hostRx.param.trans (if_pos (by omega)), h.hostRx.base (by omega), h.hostRx.blk (by omega)⟩
  | host =>
    -- a block at the front means that all set-up messages were read
    obtain ⟨rest, htodo, -⟩ := h.todo
    have hk : 4 ≤ k := by
      by_contra hk
      obtain ⟨x, hx⟩ : ∃ x, (setupMsgs cfg)[k]? = some x := by
        obtain ⟨l, -, hl⟩ := setupMsgs_eq cfg
        have hlen : k < (setupMsgs cfg).length := by
          rw [hl, List.length_append]
          simp only [List.length_cons, List.length_nil]
          omega
        exact ⟨_, List.getElem?_eq_getElem hlen⟩
      have hhead : ((setupMsgs cfg).drop k ++ rest)[0]? = some x := by
        rw [List.getElem?_append_left]
        · simpa using hx
        · rw [List.length_drop]
          have := (List.getElem?_eq_some_iff.1 hx).1
          omega
      rw [← htodo, Lane.todo, Lane.pend, hq] at hhead
      obtain rfl : m = x := by simpa using hhead
      exact isSetup_ne (setupMsgs_isSetup (List.mem_of_getElem? hx)) hcmd
    exact ⟨h.modelRx.param.trans (if_pos (by omega)), h.modelRx.base (by omega), h.modelRx.blk (by omega)⟩

end OpenHT.Host
