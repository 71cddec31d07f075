import OpenHT.Host.Sender

/-!
# The stream of a direction

* `Stream`: what a sender has taken over is what the receiver got, then what the messages
  on their way stand for, then the rest of the current block; and these messages are
  legal frames.
* `Stream.own`, `Stream.peer`: a move of the sender or of the receiver keeps it.
-/

namespace OpenHT.Host

open Host.Core

variable {cfg : Cfg} {p : Party} {a : Act} {A A' B B' : Lane} {t t' u u' : Thread}

/-- The count of a call message whose arguments are still to be announced. -/
def PcView.hdr (v : PcView) : Option ℕ := v.flushing.bind (fun w => if w = [] then none else some w.length)

/-- The count of a call whose arguments come next. -/
def RxMode.hdr : RxMode → Option ℕ
  | .args _ n => some n
  | .none | .body => Option.none

theorem PcView.hdr_none {v : PcView} (h : v.flushing = none) : v.hdr = none := by simp [hdr, h]

theorem PcView.hdr_some {v : PcView} {n : ℕ} (h : v.hdr = some n) :
    ∃ w, v.flushing = some w ∧ w ≠ [] ∧ w.length = n := by
  cases hv : v.flushing with
  | none => simp [hdr, hv] at h
  | some w =>
    by_cases hw : w = []
    · simp [hdr, hv, hw] at h
    · exact ⟨w, rfl, hw, by simpa [hdr, hv, hw] using h⟩

/-- The items in the current block that no message announces yet. -/
def Lane.tail (cfg : Cfg) (p : Party) (A : Lane) (v : PcView) : List Item :=
  if v.args.isSome then [] else
    match v.hdr with
    | some n => [.call (A.blk cfg p A.tx.blkIdx n)]
    | none => (A.blk cfg p A.tx.blkIdx A.tx.blkWrIdx).map .qw

/-- The stream of direction `p`: `A` is its lane, `t` the sender's thread, `u` the receiver's. -/
structure Stream (cfg : Cfg) (p : Party) (A : Lane) (t u : Thread) : Prop where
  path : ∃ e, (frames p (cfg.blkSize p)).Path ⟨u.pc.view.rxMode.hdr, A.rx.blkIdx⟩ (A.pend p)
    ⟨t.pc.view.hdr, e⟩
  content : ∃ base, A.got = base ++ (A.blk cfg p A.rx.blkIdx A.rx.blkRdIdx).map .qw ∧
    A.acc = base ++ ((frames p (cfg.blkSize p)).output ⟨u.pc.view.rxMode.hdr, A.rx.blkIdx⟩
      (A.pend p)).flatMap (Ref.items (A.blk cfg p)) ++ A.tail cfg p t.pc.view
  held : ∀ w, t.pc.view.args = some w → A.blk cfg p A.tx.blkIdx w.length = w
  body : u.pc.view.rxMode = .body → 0 < A.rx.blkDataSize
  args : ∀ argc n, u.pc.view.rxMode = .args argc n → n ≤ argc

section Tail

variable {v : PcView}

theorem tail_args {w : List Qw} (h : v.args = some w) : A.tail cfg p v = [] := by simp [Lane.tail, h]

theorem tail_hdr {n : ℕ} (ha : v.args = none) (h : v.hdr = some n) :
    A.tail cfg p v = [.call (A.blk cfg p A.tx.blkIdx n)] := by simp [Lane.tail, ha, h]

theorem tail_data (ha : v.args = none) (h : v.hdr = none) :
    A.tail cfg p v = (A.blk cfg p A.tx.blkIdx A.tx.blkWrIdx).map .qw := by simp [Lane.tail, ha, h]

theorem tail_empty (ha : v.args = none) (h : v.hdr = none) (hw : A.tx.blkWrIdx = 0) :
    A.tail cfg p v = [] := by
  rw [tail_data ha h, hw]
  rfl

/-- The rest of the current block depends on that block alone. -/
theorem tail_congr {v' : PcView} (hargs : v'.args = v.args) (hhdr : v'.hdr = v.hdr) (hmem : A'.mem = A.mem)
    (hi : A'.tx.blkIdx = A.tx.blkIdx) (hw : A'.tx.blkWrIdx = A.tx.blkWrIdx) :
    A'.tail cfg p v' = A.tail cfg p v := by
  simp only [Lane.tail, hargs, hhdr, hi, hw, Lane.blk, hmem]

end Tail

namespace Stream

/-- The last frame is for the block before the current one. -/
theorem path_idx (h : Stream cfg p A t u) : (frames p (cfg.blkSize p)).Path
    ⟨u.pc.view.rxMode.hdr, A.rx.blkIdx⟩ (A.pend p) ⟨t.pc.view.hdr, A.rx.blkIdx + A.rdys p⟩ := by
  obtain ⟨e, he⟩ := h.path
  have hidx := frames_idx he
  rw [← rdys_eq] at hidx
  rw [← hidx]
  exact he

/-- While a block is partly read, its message is at the front. -/
theorem front_data (h : Stream cfg p A t u) (hc : Credit cfg p A B t u) (h0 : 0 < A.rx.blkDataSize) :
    ∃ m l, A.pend p = m :: l ∧ m.cmd = p.cmdRdy ∧ m.dq = 0 ∧ A.rx.blkRdIdx + A.rx.blkDataSize = m.cnt ∧
      u.pc.view.rxMode.hdr = none ∧ m.cnt ≤ cfg.blkSize p := by
  obtain ⟨m, ms, hq, hcmd, hdq, hcnt⟩ := hc.front h0
  have hmode : u.pc.view.rxMode.hdr = none := by
    cases hm : u.pc.view.rxMode with
    | args argc n => exact absurd (hc.args argc n hm) (by omega)
    | none => rfl
    | body => rfl
  have hpend : A.pend p = m :: (ms ++ A.live.filter (fun m => m.cmd ≠ p.cmdAvl)) := by
    rw [Lane.pend, hq, List.cons_append]
  refine ⟨m, _, hpend, hcmd, hdq, hcnt, hmode, ?_⟩
  obtain ⟨e, he⟩ := h.path
  rw [hpend, hmode] at he
  have hok := he.1
  simp only [frames, hcmd, hdq, if_true] at hok
  rcases hok with hok | hok | hok | hok
  · exact hok.2.2
  · cases hok
  · cases hok
  · cases hok.1

/-- **What was received is a prefix of what was sent.** -/
theorem isPrefix (h : Stream cfg p A t u) (hc : Credit cfg p A B t u) : A.got <+: A.acc := by
  obtain ⟨base, hgot, hacc⟩ := h.content
  by_cases h0 : A.rx.blkDataSize = 0
  · rw [hc.rdIdx h0] at hgot
    rw [hgot, hacc, List.append_assoc]
    simp [Lane.blk]
  · obtain ⟨m, l, hpend, hcmd, hdq, hcnt, hmode, -⟩ := h.front_data hc (Nat.pos_of_ne_zero h0)
    have hout : (frames p (cfg.blkSize p)).out ⟨none, A.rx.blkIdx⟩ m = [.data A.rx.blkIdx m.cnt] := by
      simp [frames, hcmd, hdq]
    have hblk : A.blk cfg p A.rx.blkIdx m.cnt = A.blk cfg p A.rx.blkIdx A.rx.blkRdIdx ++
        A.mem.read (cfg.addr p A.rx.blkIdx + A.rx.blkRdIdx) A.rx.blkDataSize := by
      rw [Lane.blk, Lane.blk, ← hcnt, Mem.read_add]
    rw [hmode, hpend, Transducer.output_cons, hout, List.flatMap_append] at hacc
    rw [hgot, hacc, List.append_assoc, List.prefix_append_right_inj]
    simp only [List.flatMap_cons, List.flatMap_nil, Ref.items, hblk, List.map_append, List.append_assoc]
    exact List.prefix_append _ _

/-- The sender leaves the blocks alone, or fills its current one. -/
def Fills (cfg : Cfg) (p : Party) (A A' : Lane) : Prop :=
  A'.mem = A.mem ∨ (0 < A.tx.blkAvailCnt ∧ ∃ chunk,
    A'.mem = A.mem.write (cfg.addr p A.tx.blkIdx + A.tx.blkWrIdx) chunk ∧
      A.tx.blkWrIdx + chunk.length ≤ cfg.blkSize p)

/-- With a credit at hand the current block is none of those on their way. -/
theorem room (hc : Credit cfg p A B t u) (h0 : 0 < A.tx.blkAvailCnt) :
    A.rx.blkIdx + A.rdys p ≤ A.tx.blkIdx ∧ A.tx.blkIdx < A.rx.blkIdx + cfg.blkCnt p := by
  have hsum := hc.sum
  have hidx := hc.idx
  omega

/-- What is on its way does not change. -/
theorem fills_items (h : Stream cfg p A t u) (hc : Credit cfg p A B t u) (hf : Fills cfg p A A') :
    A'.blk cfg p A.rx.blkIdx A.rx.blkRdIdx = A.blk cfg p A.rx.blkIdx A.rx.blkRdIdx ∧
    ((frames p (cfg.blkSize p)).output ⟨u.pc.view.rxMode.hdr, A.rx.blkIdx⟩ (A.pend p)).flatMap
        (Ref.items (A'.blk cfg p)) =
      ((frames p (cfg.blkSize p)).output ⟨u.pc.view.rxMode.hdr, A.rx.blkIdx⟩ (A.pend p)).flatMap
        (Ref.items (A.blk cfg p)) := by
  rcases hf with hmem | ⟨h0, chunk, hmem, hle⟩
  · have hblk : A'.blk cfg p = A.blk cfg p := by
      funext i n
      rw [Lane.blk, Lane.blk, hmem]
    rw [hblk]
    exact ⟨rfl, rfl⟩
  · obtain ⟨h1, h2⟩ := room hc h0
    refine ⟨?_, items_write h.path_idx le_rfl h1 h2 hmem hle⟩
    by_cases hrd : A.rx.blkRdIdx = 0
    · rw [hrd]
      rfl
    · have hsize : 0 < A.rx.blkDataSize := by
        by_contra hs
        exact hrd (hc.rdIdx (by omega))
      obtain ⟨m, l, hpend, hcmd, -, hcnt, -, hm⟩ := h.front_data hc hsize
      have hrd1 : 0 < A.rdys p := by
        rw [rdys_eq, hpend, List.countP_cons]
        simp [hcmd]
      refine blk_write hmem hle ?_ (by omega)
      intro hmod
      have := Ring.window_inj le_rfl (show A.rx.blkIdx ≤ A.tx.blkIdx by omega) (by omega) h2 hmod
      omega

/-- What a move of the sender has to show: it sends `l`, takes over `new` and fills its block. -/
theorem of_sender (h : Stream cfg p A t u) (hc : Credit cfg p A B t u) (l : List CtrlMsg) (new : List Item)
    {s : FrameSt} (hrx : A'.rx = A.rx) (hgot : A'.got = A.got) (hpend : A'.pend p = A.pend p ++ l)
    (hpath : (frames p (cfg.blkSize p)).Path ⟨t.pc.view.hdr, A.rx.blkIdx + A.rdys p⟩ l s)
    (hs : s.hdr = t'.pc.view.hdr) (hf : Fills cfg p A A') (hacc : A'.acc = A.acc ++ new)
    (htail : A.tail cfg p t.pc.view ++ new =
      ((frames p (cfg.blkSize p)).output ⟨t.pc.view.hdr, A.rx.blkIdx + A.rdys p⟩ l).flatMap
        (Ref.items (A'.blk cfg p)) ++ A'.tail cfg p t'.pc.view)
    (hheld : ∀ w, t'.pc.view.args = some w → A'.blk cfg p A'.tx.blkIdx w.length = w) :
    Stream cfg p A' t' u := by
  have hpath0 := h.path_idx
  obtain ⟨base, hg, ha⟩ := h.content
  obtain ⟨hblk, hitems⟩ := h.fills_items hc hf
  refine ⟨⟨s.idx, ?_⟩, ⟨base, ?_, ?_⟩, hheld, by rw [hrx]; exact h.body, h.args⟩
  · rw [hrx, hpend, ← hs]
    exact hpath0.append hpath
  · rw [hgot, hrx, hblk, hg]
  · rw [hacc, hrx, hpend, hpath0.output_append, List.flatMap_append, hitems, ha]
    simp only [List.append_assoc]
    rw [htail]

/-- The sender only gives a block back, or sends nothing. -/
theorem of_quiet (h : Stream cfg p A t u) (hc : Credit cfg p A B t u) (hrx : A'.rx = A.rx)
    (hgot : A'.got = A.got) (hpend : A'.pend p = A.pend p) (hmem : A'.mem = A.mem) (hacc : A'.acc = A.acc)
    (htx : A'.tx.blkIdx = A.tx.blkIdx ∧ A'.tx.blkWrIdx = A.tx.blkWrIdx)
    (hargs : t'.pc.view.args = t.pc.view.args) (hhdr : t'.pc.view.hdr = t.pc.view.hdr) :
    Stream cfg p A' t' u := by
  refine h.of_sender hc [] [] hrx hgot (by simp [hpend]) rfl hhdr.symm (.inl hmem) (by simp [hacc]) ?_ ?_
  · rw [tail_congr hargs hhdr hmem htx.1 htx.2]
    simp
  · intro w hw
    rw [htx.1, Lane.blk, hmem]
    exact h.held w (hargs ▸ hw)

/-- The thread's points without call arguments in hand. -/
theorem idx_eq (hc : Credit cfg p A B t u) (hargs : t.pc.view.args = none) :
    A.tx.blkIdx = A.rx.blkIdx + A.rdys p := by
  have hidx := hc.idx
  simpa [PcView.held, hargs] using hidx

/-- **The current block is announced**, after more quadwords were put into it. -/
theorem of_announce (h : Stream cfg p A t u) (hc : Credit cfg p A B t u) (hx : TxKnown cfg p A.tx)
    {b : BlkParam} (chunk : List Qw) (hb : A.tx.param = some b) (h0 : 0 < A.tx.blkAvailCnt)
    (hargs : t.pc.view.args = none) (hpos : 0 < A.tx.blkWrIdx + chunk.length)
    (hle : A.tx.blkWrIdx + chunk.length ≤ cfg.blkSize p)
    (hhdr : ∀ n, t.pc.view.hdr = some n → chunk = [] ∧ A.tx.blkWrIdx = n ∧ n < cfg.blkSize p)
    (hargs' : t'.pc.view.args = none) (hhdr' : t'.pc.view.hdr = none) :
    Stream cfg p (((A.write chunk).accept (chunk.map .qw)).flush p b 0) t' u := by
  have hidx := idx_eq hc hargs
  have hsize := (blkSize_bounds cfg p).2
  have hblk := (hx.known b hb).2.2
  have hcnt : (p.rdyMsg (A.tx.blkWrIdx + chunk.length) 0).cnt = A.tx.blkWrIdx + chunk.length :=
    Party.cnt_rdyMsg p (by omega) (by omega)
  have hdq : (p.rdyMsg (A.tx.blkWrIdx + chunk.length) 0).dq = 0 := Party.dq_rdyMsg p _ (by omega)
  have hmem : (((A.write chunk).accept (chunk.map .qw)).flush p b 0).mem =
      A.mem.write (cfg.addr p A.tx.blkIdx + A.tx.blkWrIdx) chunk := by
    rw [← hblk]
    rfl
  refine h.of_sender hc [p.rdyMsg (A.tx.blkWrIdx + chunk.length) 0] (chunk.map .qw) rfl rfl ?_
    (s := ⟨none, A.rx.blkIdx + A.rdys p + 1⟩) ?_ hhdr'.symm (.inr ⟨h0, chunk, hmem, hle⟩) rfl ?_ ?_
  · exact pend_snoc (by rw [Party.cmd_rdyMsg]; exact Party.cmdRdy_ne_cmdAvl p p) rfl rfl
  · refine ⟨?_, ?_⟩
    · simp only [frames, Party.cmd_rdyMsg, if_true, hcnt, hdq]
      cases hh : t.pc.view.hdr with
      | none => exact .inl ⟨trivial, hpos, hle⟩
      | some n =>
        obtain ⟨rfl, hn, hlt⟩ := hhdr n hh
        exact ⟨trivial, by simpa using hn, hlt⟩
    · simp [frames, Transducer.Path, hdq]
  · rw [tail_empty (A := ((A.write chunk).accept (chunk.map .qw)).flush p b 0) hargs' hhdr' rfl,
      List.append_nil]
    simp only [Transducer.output, frames, Party.cmd_rdyMsg, if_true, hdq, hcnt, List.append_nil]
    cases hh : t.pc.view.hdr with
    | none =>
      rw [tail_data hargs hh, hidx]
      simp only [List.flatMap_cons, List.flatMap_nil, Ref.items, List.append_nil]
      rw [blk_write_self (L := A) (by rw [hmem, hidx]), List.map_append]
    | some n =>
      obtain ⟨rfl, -, -⟩ := hhdr n hh
      have hsame : (((A.write []).accept ([].map .qw)).flush p b 0).blk cfg p = A.blk cfg p := by
        funext i k
        rw [Lane.blk, Lane.blk, hmem, Mem.write_nil]
      rw [tail_hdr hargs hh, hidx]
      simp only [List.flatMap_cons, List.flatMap_nil, Ref.items, List.append_nil, List.map_nil] at hsame ⊢
      rw [hsame]
  · intro w hw
    rw [hargs'] at hw
    cases hw

/-- A message that has nothing to do with the current block. -/
theorem of_post (h : Stream cfg p A t u) (hc : Credit cfg p A B t u) (m : CtrlMsg) (new : List Item)
    (hrx : A'.rx = A.rx) (hgot : A'.got = A.got) (hpend : A'.pend p = A.pend p ++ [m])
    (hok : (frames p (cfg.blkSize p)).ok ⟨t.pc.view.hdr, A.rx.blkIdx + A.rdys p⟩ m)
    (hnext : ((frames p (cfg.blkSize p)).next ⟨t.pc.view.hdr, A.rx.blkIdx + A.rdys p⟩ m).hdr =
      t'.pc.view.hdr)
    (hmem : A'.mem = A.mem) (hacc : A'.acc = A.acc ++ new) (htail : A.tail cfg p t.pc.view = [])
    (hnew : new = ((frames p (cfg.blkSize p)).out ⟨t.pc.view.hdr, A.rx.blkIdx + A.rdys p⟩ m).flatMap
      (Ref.items (A'.blk cfg p)) ++ A'.tail cfg p t'.pc.view)
    (hargs' : t'.pc.view.args = none) : Stream cfg p A' t' u := by
  refine h.of_sender hc [m] new hrx hgot hpend ⟨hok, rfl⟩ hnext (.inl hmem) hacc ?_ ?_
  · rw [htail, hnew]
    simp [Transducer.output]
  · intro w hw
    rw [hargs'] at hw
    cases hw

/-- **A move of the sender keeps the stream.** -/
theorem own (h : Stream cfg p A t u) (hc : Credit cfg p A B t u) (hs : Sender cfg p A t)
    (hx : TxKnown cfg p A.tx) (hm : Move p a A B t A' B' t') : Stream cfg p A' t' u := by
  have hsize := blkSize_bounds cfg p
  have hb_size : ∀ b, A.tx.param = some b → b.size = cfg.blkSize p := by
    intro b hb
    rw [(hx.known b hb).1]
    rfl
  have hne : p.cmdRdy ≠ p.cmdAvl := Party.cmdRdy_ne_cmdAvl p p
  -- a receiving operation: a block may go back, the sending half rests
  have hrecv : (A' = A ∨ ∃ i, A' = A.post (p.avlMsg i)) → t.pc.view.args = none →
      t'.pc.view.args = none → t.pc.view.flushing = none → t'.pc.view.flushing = none →
      Stream cfg p A' t' u := by
    intro hA ha ha' hf hf'
    have hhdr : t'.pc.view.hdr = t.pc.view.hdr := by
      rw [PcView.hdr_none hf, PcView.hdr_none hf']
    rcases hA with rfl | ⟨i, rfl⟩
    · exact h.of_quiet hc rfl rfl rfl rfl rfl ⟨rfl, rfl⟩ (ha'.trans ha.symm) hhdr
    · exact h.of_quiet hc rfl rfl (pend_post_avl A i) rfl rfl ⟨rfl, rfl⟩ (ha'.trans ha.symm) hhdr
  cases hm with
  | skip hk hcl hfl _ =>
    exact h.of_quiet hc rfl rfl rfl rfl rfl ⟨rfl, rfl⟩ hk.args (by rw [PcView.hdr, hfl, PcView.hdr])
  | exhaust hpc hn h0 =>
    rename_i argv n
    have hav := (hs.args (argv.take n) (by simp [hpc, Pc.view])).2
    rw [h0] at hav
    exact absurd hav (lt_irrefl 0)
  | ctor hpc =>
    rename_i m ms
    have hw := hs.clean (by simp [hpc, Pc.view])
    have hhdr : t.pc.view.hdr = none := PcView.hdr_none (by simp [hpc, Pc.view])
    have hargs : t.pc.view.args = none := by simp [hpc, Pc.view]
    rcases hs.unsent m (by simp [hpc, Pc.view]) with hset | havl
    · have hcmd : m.cmd ≠ p.cmdRdy := isSetup_ne hset
      have havl : m.cmd ≠ p.cmdAvl := by
        intro he
        rw [he] at hset
        cases p <;> cases hset
      refine h.of_post hc m [] rfl rfl (pend_snoc havl rfl rfl) ?_ ?_ rfl (by simp [Lane.post])
        (tail_empty hargs hhdr hw) ?_ rfl
      · simp [frames, hcmd, hhdr, hset]
      · simp only [frames, hcmd, if_false, hhdr]
        rfl
      · rw [tail_empty (A := A.post m) rfl rfl hw]
        have hout : (frames p (cfg.blkSize p)).out ⟨t.pc.view.hdr, A.rx.blkIdx + A.rdys p⟩ m = [] := by
          simp only [frames, hcmd, if_false]
          split
          · rename_i hu
            rw [hu] at hset
            cases hset
          · rfl
        rw [hout]
        rfl
    · refine h.of_quiet hc rfl rfl ?_ rfl rfl ⟨rfl, rfl⟩ hargs.symm hhdr.symm
      simp [Lane.pend, Lane.post, List.filter_append, havl]
  | flush hk hfl _ hstuck _ hf =>
    have hargs : t.pc.view.args = none := by
      by_contra hne
      have := hstuck (Option.isSome_iff_ne_none.2 hne)
      rw [hs.stuck] at this
      cases this
    have hhdr' : t'.pc.view.hdr = none := PcView.hdr_none hfl
    rcases hf with ⟨h0, rfl⟩ | ⟨h0, hpos, b, hb, rfl⟩
    · -- an empty block: no arguments are waiting either
      have hhdr : t.pc.view.hdr = none := by
        cases hh : t.pc.view.hdr with
        | none => rfl
        | some n =>
          obtain ⟨w, hw, hne, -⟩ := PcView.hdr_some hh
          have hlen := hs.flushing w hw
          rw [h0] at hlen
          exact absurd (List.length_eq_zero_iff.1 hlen.symm) hne
      exact h.of_quiet hc rfl rfl rfl rfl rfl ⟨rfl, rfl⟩ hk.args (hhdr'.trans hhdr.symm)
    · have hdue : ∀ n, t.pc.view.hdr = some n → ([] : List Qw) = [] ∧ A.tx.blkWrIdx = n ∧ n < cfg.blkSize p := by
        intro n hn
        obtain ⟨w, hw, -, hlen⟩ := PcView.hdr_some hn
        have hw' := hs.flushing w hw
        have hlt := hs.lt
        exact ⟨rfl, by omega, by omega⟩
      have hann : Stream cfg p (((A.write []).accept ([].map .qw)).flush p b 0) t' u :=
        h.of_announce hc hx [] hb hpos hargs (by simpa using Nat.pos_of_ne_zero h0)
          (by simpa using hs.lt.le) hdue (hk.args.trans hargs) hhdr'
      simpa [Lane.write, Lane.accept, Mem.write_nil] using hann
  | ctl x hpc hpc' hpos hb hdone hret =>
    rename_i b k
    have hclean : t.pc.view.clean := by rcases hpc with hpc | hpc <;> simp [hpc, Pc.view]
    have hargs : t.pc.view.args = none := by rcases hpc with hpc | hpc <;> simp [hpc, Pc.view]
    have hhdr : t.pc.view.hdr = none := PcView.hdr_none (by rcases hpc with hpc | hpc <;> simp [hpc, Pc.view])
    have hw := hs.clean hclean
    have hdq : (p.rdyMsg A.tx.blkWrIdx x.dq).dq = x.dq := Party.dq_rdyMsg p _ (by cases x <;> decide)
    have hhdr' : t'.pc.view.hdr = none := PcView.hdr_none (by simp [hpc', Pc.view])
    have hargs' : t'.pc.view.args = none := by simp [hpc', Pc.view]
    refine h.of_post hc (p.rdyMsg A.tx.blkWrIdx x.dq) [x.item] rfl rfl
      (pend_snoc (by rw [Party.cmd_rdyMsg]; exact hne) rfl rfl) ?_ ?_ rfl rfl (tail_empty hargs hhdr hw) ?_ hargs'
    · simp only [frames, Party.cmd_rdyMsg, if_true, hhdr, hdq]
      cases x
      · exact .inr (.inl rfl)
      · exact .inr (.inr (.inl rfl))
    · simp only [frames, Party.cmd_rdyMsg, if_true, hhdr, hdq, hhdr']
      cases x <;> simp [Ctl.dq]
    · rw [tail_empty (A := (A.flush p b x.dq).accept [x.item]) hargs' hhdr' rfl]
      simp only [frames, Party.cmd_rdyMsg, if_true, hhdr, hdq]
      cases x <;> simp [Ctl.dq, Ctl.item, Ref.items]
  | user m hpc =>
    have hhdr : t.pc.view.hdr = none := PcView.hdr_none (by simp [hpc, Pc.view])
    have hargs : t.pc.view.args = none := by simp [hpc, Pc.view]
    have hw := hs.clean (by simp [hpc, Pc.view])
    have hcmd : (CtrlMsg.make m.msgType m.msgData).cmd = .user m.msgType :=
      CtrlMsg.cmd_make_user m.type_ge m.type_lt m.msgData
    have hrdy : (HifCmd.user m.msgType) ≠ p.cmdRdy := by cases p <;> simp [Party.cmdRdy]
    have havl : (HifCmd.user m.msgType) ≠ p.cmdAvl := by cases p <;> simp [Party.cmdAvl]
    refine h.of_post hc (.make m.msgType m.msgData) [.msg m.msgType m.msgData] rfl rfl
      (pend_snoc (by rw [hcmd]; exact havl) rfl rfl) ?_ ?_ rfl rfl (tail_empty hargs hhdr hw) ?_ rfl
    · simp [frames, hcmd, hrdy, hhdr]
    · simp only [frames, hcmd, hrdy, if_false, hhdr]
      rfl
    · rw [tail_empty (A := (A.post (.make m.msgType m.msgData)).accept _) rfl rfl hw]
      have hty : (CtrlMsg.make m.msgType m.msgData).msgType.toNat = m.msgType := by
        have := m.type_lt
        simp only [CtrlMsg.make, BitVec.toNat_ofNat]
        omega
      have hdata : (CtrlMsg.make m.msgType m.msgData).data = m.msgData := by
        rw [CtrlMsg.data_make]
        exact Nat.mod_eq_of_lt m.data_lt
      simp [frames, hcmd, hrdy, hty, hdata, Ref.items]
  | data hpc hn hpos hb hchunk hf =>
    rename_i d n b chunk
    have hhdr : t.pc.view.hdr = none := PcView.hdr_none (by simp [hpc, Pc.view])
    have hargs : t.pc.view.args = none := by simp [hpc, Pc.view]
    have hblk := (hx.known b hb).2.2
    have hsz := hb_size b hb
    have hlt := hs.lt
    rcases hf with ⟨hle, ⟨rfl, -⟩ | ⟨hfull, hb0, -, rfl⟩⟩
    · simp only [Lane.write, Lane.accept] at hle
      have hmem : ((A.write chunk).accept (chunk.map .qw)).mem =
          A.mem.write (cfg.addr p A.tx.blkIdx + A.tx.blkWrIdx) chunk := by
        rw [← hblk]
        rfl
      refine h.of_sender hc [] (chunk.map .qw) rfl rfl (by simp [Lane.pend, Lane.write, Lane.accept]) rfl
        hhdr (.inr ⟨hpos, chunk, hmem, by omega⟩) rfl ?_ ?_
      · rw [tail_data hargs hhdr, tail_data (A := (A.write chunk).accept (chunk.map .qw)) rfl rfl]
        show _ = [] ++ (Lane.blk cfg p _ A.tx.blkIdx (A.tx.blkWrIdx + chunk.length)).map Item.qw
        rw [blk_write_self (L := A) hmem, List.map_append, List.nil_append]
      · intro w hw
        cases hw
    · simp only [Lane.write, Lane.accept] at hfull
      exact h.of_announce hc hx chunk hb hpos hargs (by omega) (by omega) (by simp [hhdr]) rfl rfl
  | arg hpc hn hpos hb hchunk hf =>
    rename_i d n b chunk
    obtain ⟨hw, hlen, hfit, hall⟩ := hs.arg_chunk hpc hn (hb_size b hb) hchunk
    have hsz := hb_size b hb
    have hblk := (hx.known b hb).2.2
    have hargs : t.pc.view.args = some (d.take n) := by simp [hpc, Pc.view]
    have hhdr : t.pc.view.hdr = none := PcView.hdr_none (by simp [hpc, Pc.view])
    rcases hf with ⟨-, ⟨rfl, -⟩ | ⟨hfull, -⟩⟩
    · have hmem : (A.write chunk).mem = A.mem.write (cfg.addr p A.tx.blkIdx + A.tx.blkWrIdx) chunk := by
        rw [← hblk]
        rfl
      refine h.of_sender hc [] [] rfl rfl (by simp [Lane.pend, Lane.write]) rfl hhdr
        (.inr ⟨hpos, chunk, hmem, by omega⟩) (by simp [Lane.write]) ?_ ?_
      · rw [tail_args hargs, tail_args (A := A.write chunk) (v := (t.goto _).pc.view) rfl]
        rfl
      · intro w hw'
        obtain rfl : d.take (n + chunk.length) = w := by simpa [Thread.goto, Pc.view] using hw'
        show Lane.blk cfg p _ A.tx.blkIdx _ = _
        have hheld := h.held _ hargs
        rw [List.length_take_of_le hn.le] at hheld
        rw [List.length_take_of_le (by omega), ← hw, blk_write_self (L := A) hmem, hw, hheld, hall,
          List.take_append_drop, List.length_drop, List.take_of_length_le (by omega)]
    · simp only [Lane.write] at hfull
      omega
  | take hpc htwo hb =>
    rename_i b argv
    have hclean : t.pc.view.clean := by rcases hpc with hpc | hpc <;> simp [hpc, Pc.view]
    have hargs : t.pc.view.args = none := by rcases hpc with hpc | hpc <;> simp [hpc, Pc.view]
    have hhdr : t.pc.view.hdr = none := PcView.hdr_none (by rcases hpc with hpc | hpc <;> simp [hpc, Pc.view])
    refine h.of_sender hc [] [] rfl rfl (by simp [Lane.pend, Lane.next]) rfl hhdr (.inl rfl)
      (by simp [Lane.next]) ?_ ?_
    · rw [tail_empty hargs hhdr (hs.clean hclean), tail_args (A := A.next b) (v := (t.goto _).pc.view) rfl]
      rfl
    · intro w hw
      obtain rfl : [] = w := by simpa [Thread.goto, Pc.view] using hw
      rfl
  | postCall hpc =>
    rename_i argv
    have hargs : t.pc.view.args = some argv := by simp [hpc, Pc.view]
    have hhdr : t.pc.view.hdr = none := PcView.hdr_none (by simp [hpc, Pc.view])
    have hlt := hs.argv argv (by simp [hpc, Pc.view])
    have hcnt : (p.rdyMsg argv.length hifDqCall).cnt = argv.length :=
      Party.cnt_rdyMsg p (by omega) (by decide)
    have hdq : (p.rdyMsg argv.length hifDqCall).dq = hifDqCall := Party.dq_rdyMsg p _ (by decide)
    have hheld := h.held argv hargs
    have hw := (hs.args argv hargs).1
    refine h.of_post hc (p.rdyMsg argv.length hifDqCall) [.call argv] rfl rfl
      (pend_snoc (by rw [Party.cmd_rdyMsg]; exact hne) rfl rfl) ?_ ?_ rfl rfl (tail_args hargs) ?_ rfl
    · simp only [frames, Party.cmd_rdyMsg, if_true, hhdr, hdq, hcnt]
      exact .inr (.inr (.inr ⟨trivial, hlt⟩))
    · have hhdr' : (t.goto (.callFlush argv)).pc.view.hdr = if argv = [] then none else some argv.length := rfl
      simp only [frames, Party.cmd_rdyMsg, if_true, hhdr, hdq, hcnt, hhdr']
      by_cases h0 : argv = []
      · simp [h0]
      · simp [h0, List.length_pos_iff]
    · simp only [frames, Party.cmd_rdyMsg, if_true, hhdr, hdq, hcnt]
      by_cases h0 : argv = []
      · subst h0
        rw [tail_empty (A := (A.post _).accept _) (v := (t.goto (.callFlush [])).pc.view) rfl rfl hw]
        simp [Ref.items]
      · have hlen : argv.length ≠ 0 := by simpa using h0
        rw [tail_hdr (A := (A.post _).accept _) (v := (t.goto (.callFlush argv)).pc.view) (n := argv.length) rfl
          (by simp [PcView.hdr, Thread.goto, Pc.view, h0])]
        show _ = _ ++ [Item.call (A.blk cfg p A.tx.blkIdx argv.length)]
        rw [hheld]
        simp [hlen]
  | credit => exact h.of_quiet hc rfl rfl rfl rfl rfl ⟨rfl, rfl⟩ rfl rfl
  | que => exact h.of_quiet hc rfl rfl rfl rfl rfl ⟨rfl, rfl⟩ rfl rfl
  | setup hq hset hhost =>
    rename_i m ms
    obtain ⟨-, h2, h3⟩ := setup_tx A.tx m
    exact h.of_quiet hc rfl rfl rfl rfl rfl ⟨h3, h2⟩ rfl rfl
  | announce hr hk hfl => exact hrecv (.inl rfl) hr.args (hk.args.trans hr.args) hr.flushing hfl
  | resume hpc => refine hrecv (.inl rfl) ?_ rfl ?_ rfl <;> simp [hpc, Pc.view]
  | msg hr => exact hrecv (.inl rfl) hr.args rfl hr.flushing rfl
  | ctlBlk x hr hk _ hfl =>
    exact hrecv (.inr ⟨_, rfl⟩) hr.args (hk.args.trans hr.args) hr.flushing hfl
  | call0 hr => exact hrecv (.inr ⟨_, rfl⟩) hr.args rfl hr.flushing rfl
  | callHdr hr => exact hrecv (.inr ⟨_, rfl⟩) hr.args rfl hr.flushing rfl
  | again _ _ hr => exact hrecv (.inl rfl) hr.args rfl hr.flushing rfl
  | abandon _ hpc => refine hrecv (.inl rfl) ?_ rfl ?_ rfl <;> simp [hpc, Pc.view]
  | part hpc => refine hrecv (.inl rfl) ?_ rfl ?_ rfl <;> simp [hpc, Pc.view]
  | whole hpc => refine hrecv (.inr ⟨_, rfl⟩) ?_ rfl ?_ rfl <;> simp [hpc, Pc.view]
  | args hpc => refine hrecv (.inr ⟨_, rfl⟩) ?_ rfl ?_ rfl <;> simp [hpc, Pc.view]

/-! ### The receiver -/

/-- What a move of the receiver has to show when it consumes no message. -/
theorem of_still (h : Stream cfg p A t u) (hpend : A'.pend p = A.pend p) (htx : A'.tx = A.tx)
    (hmem : A'.mem = A.mem) (hacc : A'.acc = A.acc) (hidx : A'.rx.blkIdx = A.rx.blkIdx)
    (hhdr : u'.pc.view.rxMode.hdr = u.pc.view.rxMode.hdr)
    (hgot : ∃ new, A'.got = A.got ++ new ∧ (A.blk cfg p A.rx.blkIdx A'.rx.blkRdIdx).map Item.qw =
      (A.blk cfg p A.rx.blkIdx A.rx.blkRdIdx).map Item.qw ++ new)
    (hbody : u'.pc.view.rxMode = .body → 0 < A'.rx.blkDataSize)
    (hargs : ∀ argc n, u'.pc.view.rxMode = .args argc n → n ≤ argc) : Stream cfg p A' t u' := by
  obtain ⟨base, hg, ha⟩ := h.content
  obtain ⟨new, hg', hnew⟩ := hgot
  have hblk : A'.blk cfg p = A.blk cfg p := by
    funext i n
    rw [Lane.blk, Lane.blk, hmem]
  refine ⟨by rw [hpend, hidx, hhdr]; exact h.path, ⟨base, ?_, ?_⟩, ?_, hbody, hargs⟩
  · rw [hg', hg, hblk, hidx, hnew, List.append_assoc]
  · rw [hacc, hpend, hidx, hhdr, hblk, ha]
    exact congrArg _ (tail_congr rfl rfl hmem (by rw [htx]) (by rw [htx])).symm
  · rw [hblk, htx]
    exact h.held

/-- **The message at the front is consumed**, and what it stands for delivered. -/
theorem of_pop (h : Stream cfg p A t u) {m : CtrlMsg} (hpend : A.pend p = m :: A'.pend p)
    (htx : A'.tx = A.tx) (hmem : A'.mem = A.mem) (hacc : A'.acc = A.acc)
    (hnext : (frames p (cfg.blkSize p)).next ⟨u.pc.view.rxMode.hdr, A.rx.blkIdx⟩ m =
      ⟨u'.pc.view.rxMode.hdr, A'.rx.blkIdx⟩)
    (hgot : ∃ new, A'.got = A.got ++ new ∧
      ((frames p (cfg.blkSize p)).out ⟨u.pc.view.rxMode.hdr, A.rx.blkIdx⟩ m).flatMap
        (Ref.items (A.blk cfg p)) = (A.blk cfg p A.rx.blkIdx A.rx.blkRdIdx).map .qw ++ new)
    (hrdIdx : A'.rx.blkRdIdx = 0)
    (hbody : u'.pc.view.rxMode ≠ .body)
    (hargs : ∀ argc n, u'.pc.view.rxMode = .args argc n → n ≤ argc) : Stream cfg p A' t u' := by
  obtain ⟨e, hpath⟩ := h.path
  obtain ⟨base, hg, ha⟩ := h.content
  obtain ⟨new, hg', hnew⟩ := hgot
  have hblk : A'.blk cfg p = A.blk cfg p := by
    funext i n
    rw [Lane.blk, Lane.blk, hmem]
  rw [hpend] at hpath
  refine ⟨⟨e, hnext ▸ hpath.2⟩, ⟨A'.got, ?_, ?_⟩, ?_, fun hb => absurd hb hbody, hargs⟩
  · rw [hrdIdx]
    simp [Lane.blk]
  · rw [hpend, Transducer.output_cons, hnext, List.flatMap_append, hnew] at ha
    have htail : A'.tail cfg p t.pc.view = A.tail cfg p t.pc.view :=
      tail_congr rfl rfl hmem (by rw [htx]) (by rw [htx])
    rw [hacc, ha, hg', hg, hblk, htail]
    simp only [List.append_assoc]
  · rw [hblk, htx]
    exact h.held

/-- Nothing is read of a block before its size is noted. -/
theorem unread (hc : Credit cfg p A B t u) (h0 : A.rx.blkDataSize = 0) :
    (A.blk cfg p A.rx.blkIdx A.rx.blkRdIdx).map Item.qw = [] := by
  rw [hc.rdIdx h0]
  rfl

/-- The message at the front is legal. -/
theorem front_ok (h : Stream cfg p A t u) {m : CtrlMsg} {ms : List CtrlMsg} (hq : A.rx.msgQue = m :: ms) :
    (frames p (cfg.blkSize p)).ok ⟨u.pc.view.rxMode.hdr, A.rx.blkIdx⟩ m := by
  obtain ⟨e, hpath⟩ := h.path
  rw [Lane.pend, hq, List.cons_append] at hpath
  exact hpath.1

/-- Between a call and its arguments there is no other message. -/
theorem args_front (h : Stream cfg p A t u) {m : CtrlMsg} {ms : List CtrlMsg} {argc n : ℕ}
    (hmode : u.pc.view.rxMode = .args argc n) (hq : A.rx.msgQue = m :: ms) :
    m.cmd = p.cmdRdy ∧ m.dq = 0 ∧ m.cnt = n ∧ n < cfg.blkSize p := by
  have hok := h.front_ok hq
  by_cases hcmd : m.cmd = p.cmdRdy
  · simp only [frames, hcmd, if_true, hmode, RxMode.hdr] at hok
    exact ⟨hcmd, hok⟩
  · simp only [frames, hcmd, if_false, hmode, RxMode.hdr] at hok
    cases hok.1

/-- The receiver does something else. -/
theorem of_other (h : Stream cfg p A t u) (hmode : u'.pc.view.rxMode = u.pc.view.rxMode) :
    Stream cfg p A t u' :=
  ⟨by rw [hmode]; exact h.path, by rw [hmode]; exact h.content, h.held,
    by rw [hmode]; exact h.body, by rw [hmode]; exact h.args⟩

/-- **A move of the receiver keeps the stream.** -/
theorem peer (h : Stream cfg p A t u) (hc : Credit cfg p A B t u) (hr : RxKnown cfg p A)
    (hm : Move p.other a B A u B' A' u') : Stream cfg p A' t u' := by
  -- the receiver's thread is at a point that has nothing to do with receiving
  have hidle : u.pc.view.rxMode = .none → u'.pc.view.rxMode = .none → Stream cfg p A t u' := by
    intro h1 h2
    exact h.of_other (h2.trans h1.symm)
  have hresting : u.pc.view.rxMode = .none → u.pc.view.rxMode.hdr = none := by
    intro hmode
    rw [hmode]
    rfl
  cases hm with
  | skip _ _ _ hrx => exact h.of_other hrx
  | exhaust hpc => exact hidle (by simp [hpc, Pc.view]) rfl
  | ctor hpc => exact hidle (by simp [hpc, Pc.view]) rfl
  | flush _ _ hrx => exact h.of_other hrx
  | ctl x hpc hpc' => exact hidle (by rcases hpc with hpc | hpc <;> simp [hpc, Pc.view]) (by simp [hpc', Pc.view])
  | user m hpc => exact hidle (by simp [hpc, Pc.view]) rfl
  | data hpc => exact hidle (by simp [hpc, Pc.view]) rfl
  | arg hpc => exact hidle (by simp [hpc, Pc.view]) rfl
  | take hpc => exact hidle (by rcases hpc with hpc | hpc <;> simp [hpc, Pc.view]) rfl
  | postCall hpc => exact hidle (by simp [hpc, Pc.view]) rfl
  | credit hlive hcmd =>
    rw [Party.other_other] at hcmd
    exact h.of_still (pend_fetch hlive hcmd) rfl rfl rfl rfl rfl ⟨[], by simp [Lane.fetch], by simp [Lane.fetch]⟩
      h.body h.args
  | que hlive hcmd =>
    rename_i m l
    rw [Party.other_other] at hcmd
    exact h.of_still (pend_que hlive hcmd) rfl rfl rfl rfl rfl
      ⟨[], by simp [Lane.fetch, Lane.setQue], by simp [Lane.fetch, Lane.setQue]⟩ h.body h.args
  | setup hq hset hhost =>
    rename_i m ms
    have hcmd : m.cmd ≠ p.cmdRdy := isSetup_ne hset
    have h0 := hc.size_zero hq (.inl hcmd)
    obtain ⟨-, h2, h3, -, h5⟩ := setup_rx A.rx m
    have hok := h.front_ok hq
    simp only [frames, hcmd, if_false] at hok
    refine h.of_pop (pend_pop hq rfl rfl) rfl rfl rfl ?_ ⟨[], by simp [Lane.setQue], ?_⟩
      (h5.trans (hc.rdIdx h0)) ?_ h.args
    · simp only [frames, hcmd, if_false]
      exact congrArg _ h3.symm
    · rw [unread hc h0]
      simp only [frames, hcmd, if_false]
      split
      · rename_i hu
        rw [hu] at hset
        cases hset
      · rfl
    · intro hbody
      exact absurd (h.body hbody) (by omega)
  | announce hrest hk hfl hcl hq hcmd hdq hmode =>
    rename_i m ms
    rw [Party.other_other] at hcmd
    have hhdr := hresting hrest.rxMode
    have hok := h.front_ok hq
    simp only [frames, hcmd, if_true, hhdr, hdq] at hok
    have hcnt : 0 < m.cnt := by
      rcases hok with hok | hok | hok | hok
      · exact hok.2.1
      · cases hok
      · cases hok
      · cases hok.1
    have hpos : 0 < (A.rx.announce m.cnt).blkDataSize := by
      simp only [Rx.announce]
      split_ifs <;> omega
    have hhdr' : u'.pc.view.rxMode.hdr = none := by rcases hmode with hm | hm <;> rw [hm] <;> rfl
    refine h.of_still (pend_congr rfl rfl) rfl rfl rfl rfl (hhdr'.trans hhdr.symm)
      ⟨[], by simp, by simp [Rx.announce]⟩ (fun _ => hpos) ?_
    · intro argc n hargs
      rcases hmode with hm | hm <;> rw [hm] at hargs <;> cases hargs
  | resume hpc hpos =>
    rename_i n r
    have hmode : u.pc.view.rxMode = .none := by simp [hpc, Pc.view]
    exact h.of_still rfl rfl rfl rfl rfl (hresting hmode).symm ⟨[], by simp, by simp⟩
      (fun _ => hpos) (by simp [Thread.goto, Pc.view])
  | msg hrest hq hcmd hret =>
    rename_i m ms ty r
    have hne : m.cmd ≠ p.cmdRdy := by
      rw [hcmd]
      cases p <;> simp [Party.cmdRdy]
    have hhdr := hresting hrest.rxMode
    have h0 := hc.size_zero hq (.inl hne)
    refine h.of_pop (pend_pop hq rfl rfl) rfl rfl rfl ?_ ⟨_, rfl, ?_⟩ (hc.rdIdx h0)
      (by simp [Thread.finish, Pc.view]) (by simp [Thread.finish, Pc.view])
    · simp only [frames, hne, if_false, hhdr]
      rfl
    · rw [unread hc h0]
      rw [hcmd] at hne
      simp only [frames, hcmd, hne, if_false]
      rfl
  | ctlBlk x hrest hk hmode hfl hcl hq hcmd hdq hb =>
    rename_i m ms b
    rw [Party.other_other] at hcmd
    have hhdr := hresting hrest.rxMode
    have h0 := hc.size_zero hq (.inr (by rw [hdq]; cases x <;> decide))
    refine h.of_pop (pend_pop hq rfl rfl) rfl rfl rfl ?_ ⟨_, rfl, ?_⟩ rfl (by simp [hmode]) (by simp [hmode])
    · simp only [frames, hcmd, if_true, hhdr, hdq, hmode]
      cases x <;> rfl
    · rw [unread hc h0]
      simp only [frames, hcmd, if_true, hhdr, hdq]
      cases x <;> rfl
  | call0 hrest hrtn hq hcmd hdq hcnt hb =>
    rename_i m ms b
    rw [Party.other_other] at hcmd
    have hhdr := hresting hrest.rxMode
    have h0 := hc.size_zero hq (.inr (by rw [hdq]; decide))
    refine h.of_pop (pend_pop hq rfl rfl) rfl rfl rfl ?_ ⟨_, rfl, ?_⟩ rfl
      (by simp [Thread.finish, Pc.view]) (by simp [Thread.finish, Pc.view])
    · simp only [frames, hcmd, if_true, hhdr, hdq, hcnt]
      rfl
    · rw [unread hc h0]
      simp only [frames, hcmd, if_true, hhdr, hdq, hcnt]
      rfl
  | callHdr hrest hcnt hargc hq hms hcmd hdq hb =>
    rename_i m ms b argc
    rw [Party.other_other] at hcmd
    have hhdr := hresting hrest.rxMode
    have h0 := hc.size_zero hq (.inr (by rw [hdq]; decide))
    refine h.of_pop (pend_pop hq rfl rfl) rfl rfl rfl ?_ ⟨[], by simp [Lane.nextRx, Lane.setQue], ?_⟩ rfl
      (by simp [Thread.goto, Pc.view]) ?_
    · simp only [frames, hcmd, if_true, hhdr, hdq]
      simp [Thread.goto, Pc.view, RxMode.hdr, hcnt, Lane.nextRx, Lane.setQue]
    · rw [unread hc h0]
      simp only [frames, hcmd, if_true, hhdr, hdq]
      simp [Nat.ne_of_gt hcnt]
    · intro argc' n' hargs
      obtain ⟨rfl, rfl⟩ : argc = argc' ∧ m.cnt = n' := by simpa [Thread.goto, Pc.view] using hargs
      exact hargc
  | again _ hrtn hrest => exact absurd hrtn (by simp [hc.rtn_zero hrest])
  | abandon hhost hpc hq hcmd =>
    rename_i argc n m ms
    rw [Party.other_other] at hcmd
    have hmode : u.pc.view.rxMode = .args argc n := by simp [hpc, Pc.view]
    exact absurd (h.args_front hmode hq).1 hcmd
  | part hpc hcnt hlt =>
    rename_i n r cnt
    have hmode : u.pc.view.rxMode = .body := by simp [hpc, Pc.view]
    obtain ⟨m, ms, hq, hcmd, -⟩ := hc.body hmode
    obtain ⟨-, -, hblk⟩ := hr.known m ms hq hcmd
    have hread : (A.read cnt).got = A.got ++ (A.mem.read (A.rx.blk + A.rx.blkRdIdx) cnt).map .qw := rfl
    refine h.of_still (pend_congr rfl rfl) rfl rfl rfl rfl (by rw [hmode]; rfl) ⟨_, hread, ?_⟩
      (by simp [Thread.goto, Pc.view]) (by simp [Thread.goto, Pc.view])
    rw [← List.map_append, hblk, Lane.blk, Lane.blk, ← Mem.read_add]
    rfl
  | whole hpc hle hq hb =>
    rename_i n r m ms b
    have hmode : u.pc.view.rxMode = .body := by simp [hpc, Pc.view]
    have hhdr : u.pc.view.rxMode.hdr = none := by rw [hmode]; rfl
    have hpos := h.body hmode
    obtain ⟨m', ms', hq', hcmd, hdq⟩ := hc.body hmode
    rw [hq] at hq'
    cases hq'
    obtain ⟨-, -, hblk⟩ := hr.known m ms hq hcmd
    have hcnt : A.rx.blkRdIdx + A.rx.blkDataSize = m.cnt := by
      obtain ⟨m', ms', hq', -, -, hcnt⟩ := hc.front hpos
      rw [hq] at hq'
      cases hq'
      exact hcnt
    refine h.of_pop (pend_pop hq rfl rfl) rfl rfl rfl ?_ ⟨_, rfl, ?_⟩ rfl
      (by simp [Thread.goto, Pc.view]) (by simp [Thread.goto, Pc.view])
    · simp only [frames, hcmd, if_true, hhdr, hdq]
      rfl
    · simp only [frames, hcmd, if_true, hhdr, hdq]
      simp only [List.flatMap_cons, List.flatMap_nil, Ref.items, List.append_nil]
      rw [← List.map_append, hblk, ← hcnt, Lane.blk, Lane.blk, ← Mem.read_add]
  | args hpc hq hcmd hdq hn hb hargv =>
    rename_i argc n m ms b argv
    rw [Party.other_other] at hcmd
    have hmode : u.pc.view.rxMode = .args argc n := by simp [hpc, Pc.view]
    have h0 := hc.args argc n hmode
    obtain ⟨-, -, hcnt, -⟩ := h.args_front hmode hq
    obtain ⟨hparam, hbase, -⟩ := hr.known m ms hq hcmd
    obtain rfl : cfg.blkParam p = b := Option.some.inj (hparam.symm.trans hb)
    have htake : argv.take n = A.blk cfg p A.rx.blkIdx n := by
      rw [hargv, Mem.read_take (h.args argc n hmode), hbase]
      rfl
    refine h.of_pop (pend_pop hq (by simp [Lane.deliver, Lane.nextRx, Lane.setQue]) rfl) rfl rfl rfl ?_ ⟨_, rfl, ?_⟩
      ?_ (by simp [Thread.finish, Pc.view]) (by simp [Thread.finish, Pc.view])
    · simp only [frames, hcmd, if_true, hmode, RxMode.hdr, hdq]
      simp [Thread.finish, Pc.view, Lane.deliver, Lane.nextRx, Lane.setQue]
    · rw [unread hc h0]
      simp only [frames, hcmd, if_true, hmode, RxMode.hdr]
      simp [Ref.items, htake]
    · simp [Lane.deliver, Lane.nextRx, Lane.setQue]

end Stream

end OpenHT.Host
