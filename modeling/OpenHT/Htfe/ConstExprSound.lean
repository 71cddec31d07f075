import OpenHT.Htfe.ConstExprWalk

/-!
# What `ParseConstExpr` accepts

The expressions that it reads, the operations that it carries out, and where its answer is C's.

* `Reads`: an expression stands at the front of the tokens and does not go on.
* `Single`: no unary operator comes directly after another one.
* `Ready`, `Operand`, `Operation`: an operation that is carried out, by what stands before it in the text.
* `walk_tokens`, `walk_render`: the walk over an expression and over a stack of frames.
* `closes_sound`, `walk_sound`: what a walk has read, and the operation that stopped it.
* `done_iff`, `stuck_iff`: the answers of `ParseConstExpr`.
-/

namespace OpenHT.Htfe.ConstExpr

open OpPrec

/-! ## Expressions and operations -/

/-- `e` is at the front and the next token does not go on with it. -/
structure Reads (ts : List CTok) (e : CExpr) (rest : List CTok) : Prop where
  tokens : ts = e.tokens grammar ++ rest
  fits : e.Fits grammar
  ends : isOperator rest.head? = false

def isPreExpr : CExpr → Bool
  | .pre _ _ => true
  | _ => false

/-- No unary operator comes directly after another one. -/
def Single : CExpr → Prop
  | .atom _ => True
  | .paren e => Single e
  | .pre _ e => Single e ∧ isPreExpr e = false
  | .bin _ a b => Single a ∧ Single b
  | .cond c a b => Single c ∧ Single a ∧ Single b

/-- The expression is read and has a value. -/
def Usable (e : CExpr) : Prop := Single e ∧ (kValue e).isSome

def FrameUsable : CFrame → Prop
  | .bin a _ => Usable a
  | .cond c a => Usable c ∧ Usable a
  | .quest c => Usable c
  | .pre _ | .paren => True

/-- The frames that are read, the last one first. -/
def Ready : List CFrame → Prop
  | [] => True
  | f :: fs => f.Fits grammar ∧ Top grammar (f.level grammar) fs ∧ FrameUsable f ∧
    (isPre f = true → topPre fs = false) ∧ Ready fs

/-- An operand of the frame that was read last. -/
structure Operand (fs : List CFrame) (t : CExpr) : Prop where
  fits : t.Fits grammar
  usable : Usable t
  top : Top grammar (t.level grammar) fs
  single : topPre fs = true → isPreExpr t = false

/-- The operator of `f` stands before the operand `t`, and what follows does not bind tighter. -/
structure Operation (ts : List CTok) (f : CFrame) (fs : List CFrame) (t : CExpr) (rest : List CTok) : Prop where
  tokens : ts = render grammar (f :: fs) ++ t.tokens grammar ++ rest
  ready : Ready (f :: fs)
  operand : Operand (f :: fs) t
  applies : ¬f.Admits grammar (endLevel rest.head?)

/-- The walk ends at an operation without a value. -/
def Stuck (w : Res (CExpr × List CTok)) : Prop := w = .fault ∨ w = .undef

section Lemmas

variable {fs fs' : List CFrame} {f : CFrame} {t e : CExpr} {p n : ℕ} {ks : List CTok}

attribute [local simp] asPre

theorem Ready.held (h : Ready fs) : Held grammar fs := by
  induction fs with
  | nil => trivial
  | cons f fs ih => exact ⟨h.1, h.2.1, ih h.2.2.2.2⟩

/-- Operators are strict. -/
theorem kValue_close_none (hf : f.Closes) (h : kValue t = none) : kValue (f.close t) = none := by
  cases f with
  | bin a o =>
    change (kValue a).bind (fun x => (kValue t).bind fun y => _) = none
    rw [h]
    exact Option.bind_fun_none _
  | pre u =>
    change (kValue t).bind _ = none
    rw [h]
    rfl
  | cond c a =>
    change (kValue c).bind (fun x => (kValue a).bind fun y => (kValue t).bind fun z => _) = none
    rw [h]
    simp only [Option.bind_none, Option.bind_fun_none]
  | paren => exact hf.elim
  | quest c => exact hf.elim

theorem kValue_closeAll_none (hf : ∀ f ∈ fs, f.Closes) (h : kValue t = none) : kValue (closeAll fs t) = none := by
  induction fs generalizing t with
  | nil => exact h
  | cons f fs ih =>
    have hrest : ∀ f ∈ fs, f.Closes := fun f hf' => hf f (List.mem_cons_of_mem _ hf')
    exact ih hrest (kValue_close_none (hf f List.mem_cons_self) h)

theorem isBang_none (h : isBang f = true) (t : CExpr) : kValue (f.close t) = none := by
  cases f with
  | pre u =>
    cases u with
    | bang =>
      change (kValue t).bind (kUn .bang) = none
      exact Option.bind_fun_none _
    | _ => cases h
  | _ => cases h

/-- A frame whose level is less than the token's is closed. -/
theorem not_admits_of_lt (hf : f.Closes) (h : f.level grammar < p) : ¬f.Admits grammar p := by
  cases f with
  | bin a o =>
    rw [admits_bin]
    exact Nat.not_lt_of_le (Nat.le_of_lt h)
  | pre u => exact Nat.not_le_of_lt h
  | cond c a => exact Nat.not_le_of_lt h
  | paren => exact hf.elim
  | quest c => exact hf.elim

theorem lt_of_admits (hadm : f.Admits grammar n) (h : ¬f.Admits grammar p) : n < p := by
  cases f with
  | bin a o =>
    rw [admits_bin] at hadm h
    omega
  | pre u => exact Nat.lt_of_le_of_lt hadm (Nat.lt_of_not_le h)
  | cond c a => exact Nat.lt_of_le_of_lt hadm (Nat.lt_of_not_le h)
  | paren => exact (h trivial).elim
  | quest c => exact (h trivial).elim

/-- Only a tree that binds as tightly as a unary operator follows one. -/
theorem topPre_false (h : Top grammar n fs) (hn : 3 < n) : topPre fs = false := by
  cases fs with
  | nil => rfl
  | cons f fs =>
    cases f with
    | pre u => exact absurd (h (.pre u) rfl) (Nat.not_le_of_lt hn)
    | _ => rfl

/-- **Closing what waits for an expression** ends with its tree, or at the operation that has no value. -/
theorem closes_pending (hp : Pending grammar e fs' t) (ht : (kValue t).isSome)
    (hna : ∀ f ∈ fs', ¬f.Admits grammar p) :
    (kValue e).isSome ∧ closes p (fs' ++ fs) t = closes p fs e ∨
      kValue e = none ∧ (closes p (fs' ++ fs) t = .fault ∨ closes p (fs' ++ fs) t = .undef) := by
  obtain ⟨rfl, hcl, -⟩ := hp
  induction fs' generalizing t with
  | nil => exact Or.inl ⟨ht, rfl⟩
  | cons f fs' ih =>
    have hna' : ∀ f ∈ fs', ¬f.Admits grammar p := fun f hf => hna f (List.mem_cons_of_mem _ hf)
    have hcl' : ∀ f ∈ fs', f.Closes := fun f hf => hcl f (List.mem_cons_of_mem _ hf)
    rw [List.cons_append, closes_cons (hna f List.mem_cons_self)]
    by_cases hb : isBang f = true
    · rw [if_pos hb]
      have hnone : kValue (closeAll fs' (f.close t)) = none := kValue_closeAll_none hcl' (isBang_none hb t)
      exact Or.inr ⟨hnone, Or.inl rfl⟩
    · rw [if_neg hb]
      by_cases hv : (kValue (f.close t)).isSome = true
      · rw [if_pos hv]
        exact ih hv hna' hcl'
      · rw [if_neg hv]
        have hnone : kValue (closeAll fs' (f.close t)) = none :=
          kValue_closeAll_none hcl' (Option.not_isSome_iff_eq_none.1 hv)
        exact Or.inr ⟨hnone, Or.inr rfl⟩

end Lemmas

/-! ## Reading an expression -/

section Read

variable {fs fs' : List CFrame} {f : CFrame} {t e : CExpr} {p n : ℕ} {ts ks rest : List CTok}

theorem stuck_bind {α : Type} {x : Res α} (h : x = .fault ∨ x = .undef) (f : α → Res (CExpr × List CTok)) :
    Stuck (x >>= f) := by
  rcases h with rfl | rfl
  · exact Or.inl rfl
  · exact Or.inr rfl

/-- The walk has read `e`, with some frames that wait, or it ended at an operation. -/
def ReadsTo (fs : List CFrame) (e : CExpr) (w : Res (CExpr × List CTok)) (ks : List CTok) : Prop :=
  kValue e = none ∧ Stuck w ∨
    ∃ fs' t, w = walk (.operator (fs' ++ fs) t) ks ∧ Pending grammar e fs' t ∧ (kValue t).isSome

/-- **The next token closes what waits**, whatever is done then with the tree. -/
theorem walk_closes {w : Res (CExpr × List CTok)} (h : ReadsTo fs e w ks)
    (hna : ∀ f : CFrame, f.Closes → f.level grammar ≤ e.level grammar → ¬f.Admits grammar (endLevel ks.head?)) :
    kValue e = none ∧ Stuck w ∨ (kValue e).isSome ∧
      w = closes (endLevel ks.head?) fs e >>= fun r => shift r.1 r.2 ks.head? >>= resume ks := by
  rcases h with h | ⟨fs', t, rfl, hp, ht⟩
  · exact Or.inl h
  · rw [walk_operator]
    rcases closes_pending hp ht fun f hf => hna f (hp.closes f hf) (hp.level f hf) with ⟨hv, hc⟩ | ⟨hv, hc⟩
    · rw [hc]
      exact Or.inr ⟨hv, rfl⟩
    · exact Or.inl ⟨hv, stuck_bind hc _⟩

/-- The same where the frame below admits the operator, so that it is shifted. -/
theorem walk_shift {w : Res (CExpr × List CTok)} {m : CMode} (h : ReadsTo fs e w ks)
    (hna : ∀ f : CFrame, f.Closes → f.level grammar ≤ e.level grammar → ¬f.Admits grammar (endLevel ks.head?))
    (htop : Top grammar (endLevel ks.head?) fs) (hs : shift fs e ks.head? = .done (.inl m)) :
    kValue e = none ∧ Stuck w ∨ (kValue e).isSome ∧ w = walk m ks.tail := by
  have hc : closes (endLevel ks.head?) fs e = .done (fs, e) := by
    cases fs with
    | nil => rfl
    | cons f fs => exact closes_admits (htop f rfl)
  refine (walk_closes h hna).imp id fun hw => ⟨hw.1, hw.2.trans ?_⟩
  rw [hc, Res.done_bind, hs]
  rfl

theorem walk_atom (c : Const) (ks : List CTok) :
    walk (.operand fs) (.atom c :: ks) = walk (.operator fs (.atom c)) ks := by
  rw [walk_cons]
  rfl

theorem walk_lParen (ks : List CTok) :
    walk (.operand fs) (.lParen :: ks) = walk (.operand (.paren :: fs)) ks := by
  rw [walk_cons]
  rfl

theorem walk_pre (u : UnOp) (hp : topPre fs = false) (ks : List CTok) :
    walk (.operand fs) (.sym (preSym u) :: ks) = walk (.operand (.pre u :: fs)) ks := by
  have hu : asPre (preSym u) = some u := grammar.asPre_preSym u
  rw [walk_cons]
  simp only [step, hu, hp]
  rfl

/-- At the end of an expression every operator is closed. -/
theorem not_admits_end {f : CFrame} (hf : f.Closes) : ¬f.Admits grammar 15 := Frame.not_admits_end hf

theorem prec_le (f : CFrame) (hf : f.Closes) {o : ConstOp} (hl : grammar.left o.prec (e.level grammar))
    (h : f.level grammar ≤ e.level grammar) : ¬f.Admits grammar o.prec := Frame.not_admits_prec hf hl h

/-- **The walk reads an expression** where its level is admitted, if no unary operator follows another one. -/
theorem walk_tokens (e : CExpr) (he : e.Fits grammar) (hs : Single e) (fs : List CFrame)
    (htop : Top grammar (e.level grammar) fs) (hpre : topPre fs = true → isPreExpr e = false) (ks : List CTok) :
    ReadsTo fs e (walk (.operand fs) (e.tokens grammar ++ ks)) ks := by
  induction e generalizing fs ks with
  | atom c => exact Or.inr ⟨[], .atom c, walk_atom c ks, .refl _, rfl⟩
  | paren e ih =>
    have hin := ih he hs (.paren :: fs) (Top.cons trivial) (fun h => by cases h) (.rParen :: ks)
    have htokens : (Expr.paren e : CExpr).tokens grammar ++ ks = .lParen :: (e.tokens grammar ++ .rParen :: ks) := by
      simp only [Expr.tokens, List.cons_append, List.append_assoc, List.nil_append]
    rw [htokens, walk_lParen]
    rcases walk_shift hin (fun f hf _ => not_admits_end hf) (Top.cons trivial) rfl with ⟨hv, hst⟩ | ⟨hv, hw⟩
    · exact Or.inl ⟨hv, hst⟩
    · exact Or.inr ⟨[], .paren e, hw, .refl _, hv⟩
  | pre u e ih =>
    obtain ⟨he, hle⟩ := he
    have hp : topPre fs = false := by
      cases htp : topPre fs with
      | false => rfl
      | true => cases hpre htp
    have hin := ih he hs.1 (.pre u :: fs) (Top.cons hle) (fun _ => hs.2) ks
    have hcl : (Frame.pre u : CFrame).Closes := trivial
    change ReadsTo fs _ (walk (.operand fs) (.sym (preSym u) :: (e.tokens grammar ++ ks))) ks
    rw [walk_pre u hp]
    rcases hin with ⟨hv, hst⟩ | ⟨fs', t, hw, hpd, ht⟩
    · exact Or.inl ⟨kValue_close_none hcl hv, hst⟩
    · refine Or.inr ⟨fs' ++ [.pre u], t, ?_, hpd.snoc hcl rfl hle (Nat.le_refl _), ht⟩
      rw [List.append_assoc]
      exact hw
  | bin o a b iha ihb =>
    obtain ⟨ha, hb, hl, hr⟩ := he
    have hlow : 3 < o.prec := o.prec_bounds.1
    have hcl : (Frame.bin a o : CFrame).Closes := trivial
    have htokens : (Expr.bin o a b : CExpr).tokens grammar ++ ks =
        a.tokens grammar ++ (.sym (.bin o) :: (b.tokens grammar ++ ks)) := by
      rw [Expr.tokens, List.append_assoc]
      rfl
    have hno : topPre fs = false := topPre_false htop hlow
    have hina := iha ha hs.1 fs (htop.mono hl.le) (fun h => by rw [hno] at h; cases h)
      (.sym (.bin o) :: (b.tokens grammar ++ ks))
    rw [htokens]
    rcases walk_shift hina (fun f hf hle => prec_le f hf hl hle) htop rfl with ⟨hv, hst⟩ | ⟨hv, hw⟩
    · refine Or.inl ⟨?_, hst⟩
      rw [kValue, hv]
      rfl
    · rw [hw]
      rcases ihb hb hs.2 (.bin a o :: fs) (Top.cons hr) (fun h => by cases h) ks with ⟨hvb, hst⟩ | ⟨fs', t, hwb, hp, ht⟩
      · exact Or.inl ⟨kValue_close_none hcl hvb, hst⟩
      · refine Or.inr ⟨fs' ++ [.bin a o], t, ?_, hp.snoc hcl rfl hr.le (Nat.le_refl _), ht⟩
        rw [List.append_assoc]
        exact hwb
  | cond c a b ihc iha ihb =>
    obtain ⟨hc, ha, hb, hlc, hlb⟩ := he
    have hcl : (Frame.cond c a : CFrame).Closes := trivial
    have hno : topPre fs = false := topPre_false htop (by decide : 3 < 14)
    have htokens : (Expr.cond c a b : CExpr).tokens grammar ++ ks =
        c.tokens grammar ++ (.question :: (a.tokens grammar ++ (.colon :: (b.tokens grammar ++ ks)))) := by
      simp only [Expr.tokens, List.append_assoc, List.cons_append]
    rw [htokens]
    have hinc := ihc hc hs.1 fs (htop.mono (Nat.le_of_lt hlc)) (fun h => by rw [hno] at h; cases h)
      (.question :: (a.tokens grammar ++ (.colon :: (b.tokens grammar ++ ks))))
    have hnac (f : CFrame) (hf : f.Closes) (hle : f.level grammar ≤ c.level grammar) : ¬f.Admits grammar 14 :=
      Frame.not_admits_cond hf (Nat.lt_of_le_of_lt hle hlc)
    rcases walk_shift hinc hnac htop rfl with ⟨hv, hst⟩ | ⟨hvc, hw⟩
    · refine Or.inl ⟨?_, hst⟩
      rw [kValue, hv]
      rfl
    · rw [hw]
      have hina := iha ha hs.2.1 (.quest c :: fs) (Top.cons trivial) (fun h => by cases h)
        (.colon :: (b.tokens grammar ++ ks))
      rcases walk_shift hina (fun f hf _ => not_admits_end hf) (Top.cons trivial) rfl with ⟨hv, hst⟩ | ⟨hva, hw⟩
      · refine Or.inl ⟨?_, hst⟩
        rw [kValue, hv]
        exact Option.bind_fun_none _
      · change walk _ _ = _ at hw
        rw [List.tail_cons, hw]
        rcases ihb hb hs.2.2 (.cond c a :: fs) (Top.cons hlb) (fun h => by cases h) ks with
          ⟨hvb, hst⟩ | ⟨fs', t, hwb, hp, ht⟩
        · exact Or.inl ⟨kValue_close_none hcl hvb, hst⟩
        · refine Or.inr ⟨fs' ++ [.cond c a], t, ?_, hp.snoc hcl rfl hlb (Nat.le_refl _), ht⟩
          rw [List.append_assoc]
          exact hwb

/-- An operand with a value is read up to the token that makes a frame of it. -/
theorem walk_usable {m : CMode} (he : e.Fits grammar) (hu : Usable e) (htop : Top grammar (endLevel ks.head?) fs)
    (hle : e.level grammar ≤ endLevel ks.head?) (hpre : topPre fs = true → isPreExpr e = false)
    (hna : ∀ f : CFrame, f.Closes → f.level grammar ≤ e.level grammar → ¬f.Admits grammar (endLevel ks.head?))
    (hs : shift fs e ks.head? = .done (.inl m)) :
    walk (.operand fs) (e.tokens grammar ++ ks) = walk m ks.tail := by
  rcases walk_shift (walk_tokens e he hu.1 fs (htop.mono hle) hpre ks) hna htop hs with ⟨hv, -⟩ | ⟨-, hw⟩
  · have hsome := hu.2
    rw [hv] at hsome
    cases hsome
  · exact hw

theorem Usable.level_cond {c : CExpr} (h : c.level grammar < 14) (f : CFrame) (hf : f.Closes)
    (hle : f.level grammar ≤ c.level grammar) : ¬f.Admits grammar 14 :=
  Frame.not_admits_cond hf (Nat.lt_of_le_of_lt hle h)

/-- `c ?` is read before a middle operand. -/
theorem walk_quest {c : CExpr} (hc : c.Fits grammar) (hlc : c.level grammar < 14) (hu : Usable c)
    (htop : Top grammar 14 fs) (ks : List CTok) :
    walk (.operand fs) (c.tokens grammar ++ .question :: ks) = walk (.operand (.quest c :: fs)) ks := by
  have hno : topPre fs = false := topPre_false htop (by decide : 3 < 14)
  exact walk_usable hc hu htop (Nat.le_of_lt hlc) (fun h => by rw [hno] at h; cases h) (Usable.level_cond hlc) rfl

/-- **The walk reads a stack of frames.** -/
theorem walk_render (hr : Ready fs) (ks : List CTok) :
    walk (.operand []) (render grammar fs ++ ks) = walk (.operand fs) ks := by
  induction fs generalizing ks with
  | nil => rfl
  | cons f fs ih =>
    obtain ⟨hfits, htop, hu, hpre, hr⟩ := hr
    rw [render, List.append_assoc, ih hr]
    cases f with
    | bin a o =>
      have hno : topPre fs = false := topPre_false htop o.prec_bounds.1
      rw [Frame.tokens, List.append_assoc]
      exact walk_usable hfits.1 hu htop hfits.2.le (fun h => by rw [hno] at h; cases h)
        (fun f hf hle => prec_le f hf hfits.2 hle) rfl
    | pre u => exact walk_pre u (hpre rfl) ks
    | cond c a =>
      have htokens : (Frame.cond c a : CFrame).tokens grammar ++ ks =
          c.tokens grammar ++ (.question :: (a.tokens grammar ++ (.colon :: ks))) := by
        simp only [Frame.tokens, List.append_assoc, List.cons_append, List.nil_append]
      rw [htokens, walk_quest hfits.1 hfits.2.2 hu.1 htop]
      have hle : a.level grammar ≤ 15 := by
        cases a with
        | bin o x y => exact Nat.le_trans o.prec_bounds.2 (by decide)
        | pre u x => exact (by decide : 3 ≤ 15)
        | cond x y z => exact (by decide : 14 ≤ 15)
        | _ => exact Nat.zero_le _
      exact walk_usable hfits.2.1 hu.2 (Top.cons trivial) hle (fun h => by cases h)
        (fun f hf _ => not_admits_end hf) rfl
    | paren => exact walk_lParen ks
    | quest c =>
      rw [Frame.tokens, List.append_assoc]
      exact walk_quest hfits.1 hfits.2 hu htop ks

end Read

/-! ## What was read -/

section Sound

variable {fs fs' : List CFrame} {f : CFrame} {t e : CExpr} {p n : ℕ} {ts ks rest : List CTok}

/-- An operation over the tokens `ks` that has no value, where `p` is the level of the next token. -/
def Blocked (p : ℕ) (ks : List CTok) : Prop :=
  ∃ f fs t, Ready (f :: fs) ∧ Operand (f :: fs) t ∧ ¬f.Admits grammar p ∧ kValue (f.close t) = none ∧
    render grammar (f :: fs) ++ t.tokens grammar = ks

theorem Operand.close (hr : Ready (f :: fs)) (ho : Operand (f :: fs) t) (hf : f.Closes)
    (hv : (kValue (f.close t)).isSome) : Operand fs (f.close t) := by
  obtain ⟨hfits, htop, hu, hpre, -⟩ := hr
  refine ⟨Frame.close_fits hf hfits ho.fits (ho.top f rfl), ⟨?_, hv⟩, ?_, ?_⟩
  · cases f with
    | bin a o => exact ⟨hu.1, ho.usable.1⟩
    | pre u => exact ⟨ho.usable.1, ho.single rfl⟩
    | cond c a => exact ⟨hu.1.1, hu.2.1, ho.usable.1⟩
    | paren => exact hf.elim
    | quest c => exact hf.elim
  · rw [Frame.close_level hf]
    exact htop
  · intro htp
    cases f with
    | pre u =>
      rw [hpre rfl] at htp
      cases htp
    | paren => exact hf.elim
    | quest c => exact hf.elim
    | _ => rfl

/-- **Closing frames** leaves a stack that was read, or stops at an operation without a value. -/
theorem closes_sound (hr : Ready fs) (ho : Operand fs t) :
    (∃ r, closes p fs t = .done r ∧ grammar.reduce p fs t = r ∧ Ready r.1 ∧ Operand r.1 r.2) ∨
      (closes p fs t = .fault ∨ closes p fs t = .undef) ∧ Blocked p (render grammar fs ++ t.tokens grammar) := by
  induction fs generalizing t with
  | nil => exact Or.inl ⟨([], t), rfl, rfl, trivial, ho⟩
  | cons f fs ih =>
    by_cases hadm : f.Admits grammar p
    · exact Or.inl ⟨(f :: fs, t), closes_admits hadm, reduce_of_top (Top.cons hadm) t, hr, ho⟩
    · have hcl := Frame.closes_of_not_admits hadm
      have hblocked (hnone : kValue (f.close t) = none) :
          Blocked p (render grammar (f :: fs) ++ t.tokens grammar) := ⟨f, fs, t, hr, ho, hadm, hnone, rfl⟩
      rw [closes_cons hadm, reduce_cons hadm]
      by_cases hb : isBang f = true
      · rw [if_pos hb]
        exact Or.inr ⟨Or.inl rfl, hblocked (isBang_none hb t)⟩
      · rw [if_neg hb]
        by_cases hv : (kValue (f.close t)).isSome = true
        · rw [if_pos hv]
          have htokens : render grammar (f :: fs) ++ t.tokens grammar =
              render grammar fs ++ (f.close t).tokens grammar := by
            rw [Frame.close_tokens hcl, render, List.append_assoc]
          rw [htokens]
          exact ih hr.2.2.2.2 (ho.close hr hcl hv)
        · rw [if_neg hv]
          exact Or.inr ⟨Or.inr rfl, hblocked (Option.not_isSome_iff_eq_none.1 hv)⟩

/-- What has been read when the tokens `rest` are left. An operand that was just read is a constant or a
parenthesis. -/
def Reached (ts : List CTok) : CMode → List CTok → Prop
  | .operand fs, rest => ts = render grammar fs ++ rest ∧ Ready fs
  | .operator fs t, rest => ts = render grammar fs ++ t.tokens grammar ++ rest ∧ Ready fs ∧ Operand fs t ∧
    t.level grammar = 0

/-- An expression is at the front, or there is an operation without a value. -/
def Sound (ts : List CTok) : Res (CExpr × List CTok) → Prop
  | .done (t, rest) => Reads ts t rest ∧ Usable t
  | .fault | .undef => ∃ f fs t rest, Operation ts f fs t rest ∧ kValue (f.close t) = none
  | .fail _ | .more => True

theorem sound_blocked {w : Res (CExpr × List CTok)} (hw : w = .fault ∨ w = .undef) (hts : ts = ks ++ rest)
    (hb : Blocked (endLevel rest.head?) ks) : Sound ts w := by
  obtain ⟨f, fs, t, hr, ho, hadm, hnone, rfl⟩ := hb
  have h : ∃ f fs t rest, Operation ts f fs t rest ∧ kValue (f.close t) = none :=
    ⟨f, fs, t, rest, ⟨hts, hr, ho, hadm⟩, hnone⟩
  rcases hw with rfl | rfl
  · exact h
  · exact h

/-- What follows a step on the tokens that are left then. -/
def TailSound (ts rest : List CTok) : Prop :=
  ∀ m, rest ≠ [] → Reached ts m rest.tail → Sound ts (walk m rest.tail)

/-- **At the end of an expression**, inside parentheses or a condition or outside. -/
theorem shift_sound (hr : Ready fs) (ho : Operand fs t) (htop : Top grammar 15 fs)
    (hop : isOperator rest.head? = false) (hts : ts = render grammar fs ++ t.tokens grammar ++ rest)
    (ih : TailSound ts rest) : Sound ts (shift fs t rest.head? >>= resume rest) := by
  cases fs with
  | nil =>
    have hshift : shift [] t rest.head? = .done (.inr t) := by
      rcases rest with _ | ⟨(_ | s | _ | _ | _ | _), rest⟩
      any_goals rfl
      · cases s with
        | bin o => cases hop
        | _ => rfl
      · cases hop
    rw [hshift]
    exact ⟨⟨hts, ho.fits, hop⟩, ho.usable⟩
  | cons f fs =>
    cases f with
    | paren =>
      by_cases hk : rest.head? = some .rParen
      · cases rest with
        | nil => cases hk
        | cons k rest =>
          obtain rfl := Option.some.inj hk
          apply ih (.operator fs (.paren t)) (List.cons_ne_nil _ _)
          refine ⟨?_, hr.2.2.2.2, ⟨ho.fits, ho.usable, Top.zero, fun _ => rfl⟩, rfl⟩
          rw [hts]
          simp only [render, Frame.tokens, Expr.tokens, List.append_assoc, List.cons_append, List.nil_append,
            List.tail_cons]
      · rw [shift_paren hop hk]
        trivial
    | quest c =>
      by_cases hk : rest.head? = some .colon
      · cases rest with
        | nil => cases hk
        | cons k rest =>
          obtain rfl := Option.some.inj hk
          apply ih (.operand (.cond c t :: fs)) (List.cons_ne_nil _ _)
          obtain ⟨hfits, htop', hu, -, hr⟩ := hr
          refine ⟨?_, ⟨hfits.1, ho.fits, hfits.2⟩, htop', ⟨hu, ho.usable⟩, (fun h => by cases h), hr⟩
          rw [hts]
          simp only [render, Frame.tokens, List.append_assoc, List.cons_append, List.nil_append, List.tail_cons]
      · rw [shift_quest hop hk]
        trivial
    | _ => exact absurd (htop _ rfl) (not_admits_end trivial)

theorem asPre_eq {s : EToken} {u : UnOp} (h : asPre s = some u) : s = preSym u := by
  unfold asPre at h
  split at h <;> cases h <;> rfl

theorem top_of_topPre (h : topPre fs = false) : Top grammar 3 fs := by
  rintro f hf
  obtain ⟨fs, rfl⟩ : ∃ fs', fs = f :: fs' := by
    cases fs with
    | nil => cases hf
    | cons f' fs => exact ⟨fs, by rw [Option.some.inj hf]⟩
  cases f with
  | bin a o =>
    rw [admits_bin]
    exact o.prec_bounds.1
  | pre u => cases h
  | cond c a => exact (by decide : 3 ≤ 14)
  | _ => trivial

theorem endLevel_eq {k : Option CTok} (h : isOperator k = false) : endLevel k = 15 := by
  rcases k with _ | (_ | s | _ | _ | _ | _)
  any_goals rfl
  · cases s with
    | bin o => cases h
    | _ => rfl
  · cases h

/-- **After an operand**: the frames that are closed and the one that is made, or the end. -/
theorem operator_sound (h : Reached ts (.operator fs t) rest) (ih : TailSound ts rest) :
    Sound ts (walk (.operator fs t) rest) := by
  obtain ⟨hts, hr, ho, hlev⟩ := h
  rw [walk_operator]
  rcases closes_sound  hr ho with ⟨r, hc, hred, hr', ho'⟩ | ⟨hc, hb⟩
  · have hstop : Top grammar (endLevel rest.head?) r.1 := hred ▸ reduce_stop _ fs t
    have hrender : render grammar r.1 ++ r.2.tokens grammar = render grammar fs ++ t.tokens grammar :=
      hred ▸ reduce_render _ fs t
    rw [← hrender] at hts
    rw [hc, Res.done_bind]
    cases hop : isOperator rest.head? with
    | false =>
      rw [endLevel_eq hop] at hstop
      exact shift_sound hr' ho' hstop hop hts ih
    | true =>
      obtain ⟨k, rest, rfl⟩ : ∃ k rest', rest = k :: rest' := by
        cases rest with
        | nil => cases hop
        | cons k rest => exact ⟨k, rest, rfl⟩
      have hnext := fun m => ih m (List.cons_ne_nil k rest)
      cases k with
      | sym s =>
        cases s with
        | bin o =>
          have hleft : grammar.left o.prec (t.level grammar) := by
            rw [hlev]
            exact Or.inl (Nat.lt_of_lt_of_le (by decide) o.prec_bounds.1)
          have hleft' : grammar.left o.prec (r.2.level grammar) := by
            rw [← hred]
            exact reduce_left hleft
          refine hnext (.operand (.bin r.2 o :: r.1)) ⟨?_, ⟨ho'.fits, hleft'⟩, hstop, ho'.usable, ?_, hr'⟩
          · rw [hts]
            simp only [render, Frame.tokens, List.append_assoc, List.cons_append, List.nil_append, List.tail_cons]
            rfl
          · intro h
            cases h
        | _ => cases hop
      | question =>
        have hlt : r.2.level grammar < 14 := by
          have h0 : t.level grammar < grammar.condLevel := by
            rw [hlev]
            decide
          rw [← hred]
          exact reduce_lt_condLevel h0
        refine hnext (.operand (.quest r.2 :: r.1)) ⟨?_, ⟨ho'.fits, hlt⟩, hstop, ho'.usable, ?_, hr'⟩
        · rw [hts]
          simp only [render, Frame.tokens, List.append_assoc, List.cons_append, List.nil_append, List.tail_cons]
        · intro h
          cases h
      | _ => cases hop
  · apply sound_blocked (stuck_bind hc _) hts hb

/-- **The walk has read what is on its stack**, by induction on the tokens that are left. -/
theorem walk_sound (m : CMode) (rest : List CTok) (h : Reached ts m rest) : Sound ts (walk m rest) := by
  induction rest generalizing m with
  | nil =>
    cases m with
    | operand fs => trivial
    | operator fs t => exact operator_sound h fun m hne => absurd rfl hne
  | cons k rest ih =>
    cases m with
    | operator fs t => exact operator_sound h fun m _ => ih m
    | operand fs =>
      obtain ⟨hts, hr⟩ := h
      cases k with
      | atom c =>
        rw [walk_atom]
        apply ih
        refine ⟨?_, hr, ⟨trivial, ⟨trivial, rfl⟩, Top.zero, fun _ => rfl⟩, rfl⟩
        rw [hts]
        simp only [Expr.tokens, List.append_assoc, List.cons_append, List.nil_append]
      | lParen =>
        rw [walk_lParen]
        apply ih
        refine ⟨?_, trivial, Top.zero, trivial, (fun h => by cases h), hr⟩
        rw [hts]
        simp only [render, Frame.tokens, List.append_assoc, List.cons_append, List.nil_append]
      | sym s =>
        cases hu : asPre s with
        | none =>
          rw [walk_cons]
          simp only [step, hu]
          trivial
        | some u =>
          obtain rfl := asPre_eq hu
          cases hp : topPre fs with
          | true =>
            rw [walk_cons]
            simp only [step, hu, hp]
            trivial
          | false =>
            rw [walk_pre u hp]
            apply ih
            refine ⟨?_, trivial, top_of_topPre hp, trivial, fun _ => hp, hr⟩
            rw [hts]
            simp only [render, Frame.tokens, List.append_assoc, List.cons_append, List.nil_append]
            rfl
      | _ => trivial

end Sound

/-! ## The answers -/

section Answers

variable {ts rest : List CTok} {v : CConstValue}

theorem endLevel_reads {e : CExpr} (h : Reads ts e rest) (hs : Single e) :
    kValue e = none ∧ Stuck (walk (.operand []) ts) ∨
      (kValue e).isSome ∧ walk (.operand []) ts = .done (e, rest) := by
  obtain ⟨rfl, hfits, hop⟩ := h
  have hread := walk_tokens e hfits hs [] Top.nil (fun h => by cases h) rest
  have hlev := endLevel_eq hop
  refine (walk_closes hread fun f hf _ => hlev ▸ not_admits_end hf).imp id fun hw => ⟨hw.1, hw.2.trans ?_⟩
  have hshift : shift [] e rest.head? = .done (.inr e) := by
    rcases rest with _ | ⟨(_ | s | _ | _ | _ | _), rest⟩
    any_goals rfl
    · cases s with
      | bin o => cases hop
      | _ => rfl
    · cases hop
  change shift [] e rest.head? >>= resume rest = _
  rw [hshift]
  rfl

theorem reached_start (ts : List CTok) : Reached ts (.operand []) ts := ⟨rfl, trivial⟩

/-- **`ParseConstExpr` returns a value** just for the expressions without a repeated unary operator that have one. -/
theorem done_iff : parseConstExpr ts = .done (v, rest) ↔ ∃ e, Reads ts e rest ∧ Single e ∧ kValue e = some v := by
  have hsim := parseConstExpr_walk ts
  constructor
  · intro h
    rw [h] at hsim
    have hsound := walk_sound _ _ (reached_start ts)
    cases hw : walk (.operand []) ts with
    | done p =>
      rw [hw] at hsim hsound
      obtain ⟨t, rest'⟩ := p
      obtain ⟨rfl, ht, -, -⟩ := hsim
      exact ⟨t, hsound.1, hsound.2.1, ht⟩
    | _ =>
      rw [hw] at hsim
      exact hsim.elim
  · rintro ⟨e, hr, hs, hv⟩
    rcases endLevel_reads hr hs with ⟨hnone, -⟩ | ⟨-, hw⟩
    · rw [hv] at hnone
      cases hnone
    · rw [hw] at hsim
      cases hp : parseConstExpr ts with
      | done p =>
        rw [hp] at hsim
        obtain ⟨v', rest'⟩ := p
        obtain ⟨rfl, hv', -, -⟩ := hsim
        rw [hv] at hv'
        rw [Option.some.inj hv']
      | _ =>
        rw [hp] at hsim
        exact hsim.elim

theorem stuck_walk (h : Stuck (walk (.operand []) ts)) : parseConstExpr ts = .fault ∨ parseConstExpr ts = .undef := by
  have hsim := parseConstExpr_walk ts
  rcases h with hw | hw
  · rw [hw] at hsim
    cases hp : parseConstExpr ts with
    | fault => exact Or.inl rfl
    | _ =>
      rw [hp] at hsim
      exact hsim.elim
  · rw [hw] at hsim
    cases hp : parseConstExpr ts with
    | undef => exact Or.inr rfl
    | _ =>
      rw [hp] at hsim
      exact hsim.elim

/-- **It stops at an assertion or an undefined operation** just when it comes to an operation without a value. -/
theorem stuck_iff : parseConstExpr ts = .fault ∨ parseConstExpr ts = .undef ↔
    ∃ f fs t rest, Operation ts f fs t rest ∧ kValue (f.close t) = none := by
  constructor
  · intro h
    have hsim := parseConstExpr_walk ts
    have hsound := walk_sound _ _ (reached_start ts)
    rcases h with h | h
    · rw [h] at hsim
      cases hw : walk (.operand []) ts with
      | fault =>
        rw [hw] at hsound
        exact hsound
      | _ =>
        rw [hw] at hsim
        exact hsim.elim
    · rw [h] at hsim
      cases hw : walk (.operand []) ts with
      | undef =>
        rw [hw] at hsound
        exact hsound
      | _ =>
        rw [hw] at hsim
        exact hsim.elim
  · rintro ⟨f, fs, t, rest, ⟨htokens, hr, ho, hadm⟩, hnone⟩
    have hcl := Frame.closes_of_not_admits hadm
    have hlt : t.level grammar < endLevel rest.head? := lt_of_admits (ho.top f rfl) hadm
    have hread := walk_tokens t ho.fits ho.usable.1 (f :: fs) ho.top ho.single rest
    have hstuck : Stuck (walk (.operand []) ts) := by
      rw [htokens, List.append_assoc, walk_render hr]
      have hna (f' : CFrame) (hf : f'.Closes) (hle : f'.level grammar ≤ t.level grammar) :
          ¬f'.Admits grammar (endLevel rest.head?) := not_admits_of_lt hf (Nat.lt_of_le_of_lt hle hlt)
      rcases walk_closes hread hna with ⟨-, hst⟩ | ⟨-, hw⟩
      · exact hst
      · rw [hw]
        apply stuck_bind
        rw [closes_cons hadm]
        by_cases hb : isBang f = true
        · exact Or.inl (if_pos hb)
        · rw [if_neg hb, hnone]
          exact Or.inr rfl
    exact stuck_walk hstuck

theorem parseConstExpr_ne_more : parseConstExpr ts ≠ .more := by
  intro h
  have hsim := parseConstExpr_walk ts
  rw [h] at hsim
  exact hsim

end Answers

/-! ## C's answer -/

section Meets

variable {ts rest : List CTok} {e s : CExpr} {v : CConstValue}

/-- The property: an expression with a value in C is read with it, and its parts are by themselves; other tokens
give a message or `false`. -/
structure Meets (ts : List CTok) : Prop where
  value : ∀ e rest v, Reads ts e rest → cValue e = some v → parseConstExpr ts = .done (v, rest) ∧
    ∀ s ∈ parts e, ∃ w, cValue s = some w ∧ parseConstExpr (s.tokens grammar) = .done (w, [])
  rejects : (¬∃ e rest v, Reads ts e rest ∧ cValue e = some v) → ∃ msg, parseConstExpr ts = .fail msg

/-- Every operation that is carried out is defined and is not `!`; the expression at the front has no repeated unary
operators, and mixes no types where `CConstValue` does not make the common one. -/
structure Suits (ts : List CTok) : Prop where
  defined : ∀ f fs t rest, Operation ts f fs t rest → (kValue (f.close t)).isSome
  single : ∀ e rest, Reads ts e rest → (cValue e).isSome → Single e
  typed : ∀ e rest, Reads ts e rest → Single e → Typed e

/-- What holds of the parts of a tree, since it is inherited by operands. -/
theorem parts_inherit {P : CExpr → Prop} (hparen : ∀ e, P (.paren e) → P e) (hpre : ∀ u e, P (.pre u e) → P e)
    (hbin : ∀ o a b, P (.bin o a b) → P a ∧ P b) (hcond : ∀ c a b, P (.cond c a b) → P c ∧ P a ∧ P b)
    (h : P e) : ∀ s ∈ parts e, P s := by
  induction e with
  | atom c =>
    intro s hs
    obtain rfl := List.mem_singleton.1 hs
    exact h
  | paren e ih => exact List.forall_mem_cons.2 ⟨h, ih (hparen e h)⟩
  | pre u e ih => exact List.forall_mem_cons.2 ⟨h, ih (hpre u e h)⟩
  | bin o a b iha ihb =>
    refine List.forall_mem_cons.2 ⟨h, fun s hs => ?_⟩
    rcases List.mem_append.1 hs with hs | hs
    · exact iha (hbin o a b h).1 s hs
    · exact ihb (hbin o a b h).2 s hs
  | cond c a b ihc iha ihb =>
    obtain ⟨hc, ha, hb⟩ := hcond c a b h
    refine List.forall_mem_cons.2 ⟨h, fun s hs => ?_⟩
    rcases List.mem_append.1 hs with hs | hs
    · rcases List.mem_append.1 hs with hs | hs
      · exact ihc hc s hs
      · exact iha ha s hs
    · exact ihb hb s hs

theorem cValue_parts (hv : (cValue e).isSome) : ∀ s ∈ parts e, (cValue s).isSome := by
  refine parts_inherit (fun _ h => h) ?_ ?_ ?_ hv
  · intro u e h
    obtain ⟨v, hv⟩ := Option.isSome_iff_exists.1 h
    obtain ⟨x, hx, -⟩ := Option.bind_eq_some_iff.1 hv
    exact Option.isSome_iff_exists.2 ⟨x, hx⟩
  · intro o a b h
    obtain ⟨v, hv⟩ := Option.isSome_iff_exists.1 h
    obtain ⟨x, y, hx, hy, -⟩ := cValue_bin hv
    exact ⟨Option.isSome_iff_exists.2 ⟨x, hx⟩, Option.isSome_iff_exists.2 ⟨y, hy⟩⟩
  · intro c a b h
    obtain ⟨v, hv⟩ := Option.isSome_iff_exists.1 h
    obtain ⟨x, y, z, hx, hy, hz, -⟩ := cValue_cond hv
    exact ⟨Option.isSome_iff_exists.2 ⟨x, hx⟩, Option.isSome_iff_exists.2 ⟨y, hy⟩, Option.isSome_iff_exists.2 ⟨z, hz⟩⟩

theorem fits_parts (h : e.Fits grammar) : ∀ s ∈ parts e, s.Fits grammar :=
  parts_inherit (fun _ h => h) (fun _ _ h => h.1) (fun _ _ _ h => ⟨h.1, h.2.1⟩) (fun _ _ _ h => ⟨h.1, h.2.1, h.2.2.1⟩) h

theorem single_parts (h : Single e) : ∀ s ∈ parts e, Single s :=
  parts_inherit (fun _ h => h) (fun _ _ h => h.1) (fun _ _ _ h => h) (fun _ _ _ h => h) h

theorem typed_parts (h : Typed e) : ∀ s ∈ parts e, Typed s :=
  parts_inherit (fun _ h => h) (fun _ _ h => h.1) (fun _ _ _ h => ⟨h.1, h.2.1⟩) (fun _ _ _ h => ⟨h.1, h.2.1, h.2.2.1⟩) h

/-- The expression behind an answer. -/
theorem done_eq (he : e.Fits grammar) (hts : ts = e.tokens grammar ++ rest) (h : parseConstExpr ts = .done (v, rest)) :
    Single e ∧ kValue e = some v := by
  obtain ⟨e', hr, hs, hv⟩ := done_iff.1 h
  have htokens : e'.tokens grammar = e.tokens grammar := by
    have := hr.tokens.symm.trans hts
    exact List.append_cancel_right this
  rw [← hr.fits.eq_of_tokens he htokens]
  exact ⟨hs, hv⟩

/-- A typed expression with a value in C is read with it. -/
theorem done_typed (hr : Reads ts e rest) (hs : Single e) (ht : Typed e) (hv : cValue e = some v) :
    parseConstExpr ts = .done (v, rest) := by
  rw [← kValue_eq e ht] at hv
  exact done_iff.2 ⟨e, hr, hs, hv⟩

theorem Suits.meets (h : Suits ts) : Meets ts := by
  constructor
  · intro e rest v hr hv
    have hs := h.single e rest hr (Option.isSome_iff_exists.2 ⟨v, hv⟩)
    have ht := h.typed e rest hr hs
    refine ⟨done_typed hr hs ht hv, ?_⟩
    intro s hsp
    obtain ⟨w, hw⟩ := Option.isSome_iff_exists.1 (cValue_parts (Option.isSome_iff_exists.2 ⟨v, hv⟩) s hsp)
    have hrs : Reads (s.tokens grammar) s [] := ⟨(List.append_nil _).symm, fits_parts hr.fits s hsp, rfl⟩
    exact ⟨w, hw, done_typed hrs (single_parts hs s hsp) (typed_parts ht s hsp) hw⟩
  · intro hno
    have hstuck : ¬(parseConstExpr ts = .fault ∨ parseConstExpr ts = .undef) := by
      intro hst
      obtain ⟨f, fs, t, rest, hop, hnone⟩ := stuck_iff.1 hst
      have hsome := h.defined f fs t rest hop
      rw [hnone] at hsome
      cases hsome
    cases hp : parseConstExpr ts with
    | done p =>
      obtain ⟨v, rest⟩ := p
      obtain ⟨e, hr, hs, hv⟩ := done_iff.1 hp
      rw [kValue_eq e (h.typed e rest hr hs)] at hv
      exact absurd ⟨e, rest, v, hr, hv⟩ hno
    | fail msg => exact ⟨msg, rfl⟩
    | fault => exact absurd (Or.inl hp) hstuck
    | undef => exact absurd (Or.inr hp) hstuck
    | more => exact absurd hp parseConstExpr_ne_more

theorem Meets.not_stuck (h : Meets ts) : ¬(parseConstExpr ts = .fault ∨ parseConstExpr ts = .undef) := by
  intro hst
  by_cases hex : ∃ e rest v, Reads ts e rest ∧ cValue e = some v
  · obtain ⟨e, rest, v, hr, hv⟩ := hex
    have hdone := (h.value e rest v hr hv).1
    rw [hdone] at hst
    rcases hst with hst | hst <;> cases hst
  · obtain ⟨msg, hfail⟩ := h.rejects hex
    rw [hfail] at hst
    rcases hst with hst | hst <;> cases hst

/-- The expression at the front has a value in C. -/
theorem Meets.cValue (h : Meets ts) (hr : Reads ts e rest) (hs : Single e) : ∃ v, cValue e = some v := by
  rcases endLevel_reads hr hs with ⟨-, hst⟩ | ⟨hk, -⟩
  · exact absurd (stuck_walk hst) h.not_stuck
  · obtain ⟨w, hw⟩ := Option.isSome_iff_exists.1 hk
    have hdone : parseConstExpr ts = .done (w, rest) := done_iff.2 ⟨e, hr, hs, hw⟩
    by_cases hex : ∃ e rest v, Reads ts e rest ∧ ConstExpr.cValue e = some v
    · obtain ⟨e', rest', v, hr', hv⟩ := hex
      have hdone' := (h.value e' rest' v hr' hv).1
      rw [hdone] at hdone'
      obtain ⟨-, rfl⟩ := Prod.mk.inj (Res.done.inj hdone')
      have htokens : e'.tokens grammar = e.tokens grammar :=
        List.append_cancel_right (hr'.tokens.symm.trans hr.tokens)
      obtain rfl := hr'.fits.eq_of_tokens hr.fits htokens
      exact ⟨v, hv⟩
    · obtain ⟨msg, hfail⟩ := h.rejects hex
      rw [hdone] at hfail
      cases hfail

end Meets

end OpenHT.Htfe.ConstExpr
