import OpenHT.Htl.Guard

/-!
# Expressions whose evaluation ends

`ParseExpression` has no guard against a macro that stands for itself, nor against a character that no
token starts with after `(`: both make it call itself without end.

* `loopBody_cycle`: a turn that a refused call stopped makes this call in the parser too.
* `cycle_reenters`: a refused call is one inside itself, so a smaller fuel would do for it.
* `evaluation_ends`: the evaluation ends exactly when the guard refuses no call.
-/

namespace OpenHT.Htl

variable {d : Dialect} {table : Table} {α β : Type}

theorem Run.bind_ne_cycle {x : Run α} {f : α → Run β} (hx : x ≠ .cycle) (hf : ∀ a, f a ≠ .cycle) :
    (x >>= f) ≠ .cycle := by
  intro h
  cases x with
  | done a => exact hf a h
  | cycle => exact hx rfl
  | _ => cases h

theorem getNextToken_ne_cycle (pos : Pos) (lx : Lexer) : getNextToken d pos lx ≠ .cycle := by
  intro h
  cases pos with
  | none => cases h
  | some cs =>
    unfold getNextToken skipSpace at h
    rw [Run.done_bind] at h
    cases hcs : cs.dropWhile isBlank with
    | nil => rw [hcs] at h; cases h
    | cons c rest =>
      rw [hcs] at h
      dsimp only at h
      split at h <;> cases h

theorem ofOption_ne_cycle (x : Option α) : Run.ofOption x ≠ .cycle := by
  intro h
  cases x <;> cases h

theorem expect_ne_cycle (tk : EToken) (msg : String) (pos : Pos) (lx : Lexer) :
    expect d tk msg pos lx ≠ .cycle := by
  refine Run.bind_ne_cycle (getNextToken_ne_cycle pos lx) ?_
  rintro ⟨tk', pos', lx'⟩ h
  dsimp only at h
  split at h <;> cases h

theorem definedOperand_ne_cycle (pos : Pos) (lx : Lexer) : definedOperand table pos lx ≠ .cycle := by
  refine Run.bind_ne_cycle (expect_ne_cycle _ _ _ _) fun _ => ?_
  refine Run.bind_ne_cycle (expect_ne_cycle _ _ _ _) fun _ => ?_
  refine Run.bind_ne_cycle (expect_ne_cycle _ _ _ _) fun _ h => ?_
  cases h

theorem prefixBang_ne_cycle (vs : List Int) (ops : List EToken) (pos : Pos) (lx : Lexer) :
    prefixBang d vs ops pos lx ≠ .cycle := by
  unfold prefixBang
  split
  · refine Run.bind_ne_cycle (ofOption_ne_cycle _) fun _ => ?_
    refine Run.bind_ne_cycle (getNextToken_ne_cycle _ _) ?_
    rintro ⟨tk, pos', lx'⟩ h
    dsimp only at h
    split at h <;> cases h
  · intro h
    cases h

theorem finish_ne_cycle (vs : List Int) (ops : List EToken) (s : Bool) (pos : Pos) (lx : Lexer) :
    finish d vs ops s pos lx ≠ .cycle := by
  intro h
  unfold finish at h
  split at h <;> cases h

/-- An error leaves `m_tk` as it is. -/
theorem getNextToken_error {pos pos' : Pos} {lx lx' : Lexer}
    (h : getNextToken d pos lx = .done (.error, pos', lx')) : lx'.tk = lx.tk := by
  cases pos with
  | none => cases h
  | some cs =>
    unfold getNextToken skipSpace at h
    rw [Run.done_bind] at h
    cases hcs : cs.dropWhile isBlank with
    | nil => rw [hcs] at h; cases h
    | cons c rest =>
      rw [hcs] at h
      dsimp only at h
      split at h
      · cases h
        rfl
      · rename_i htk _
        cases h
        exact (htk rfl).elim
      · unfold wordToken at h
        split at h
        · cases h
        · split at h
          · unfold numberToken at h
            split at h <;> split at h <;> cases h
          · cases h
            rfl

/-- **Where no token starts, every call for the inside of parentheses makes the next.** -/
theorem unknown_more {pos : Pos} {lx : Lexer} (hp : d.unknownAt pos = true) (hlx : lx.tk = .lParen)
    (n : ℕ) : startExpr (parseLoop d table n) pos lx = .more := by
  cases pos with
  | none => cases hp
  | some cs =>
    cases cs with
    | nil => cases hp
    | cons c cs =>
      have hall := hp
      simp only [Dialect.unknownAt, Bool.and_eq_true, Bool.not_eq_true', Option.isNone_iff_eq_none] at hall
      obtain ⟨⟨⟨hb, hpunct⟩, hid⟩, hdig⟩ := hall
      have hskip : (c :: cs).dropWhile isBlank = c :: cs := by
        rw [List.dropWhile_cons_of_neg]
        rw [hb]
        exact Bool.false_ne_true
      have hnext : ∀ lx : Lexer, getNextToken d (some (c :: cs)) lx =
          .done (.error, some (c :: cs), lx.parseMsg "unknown preprocess token type") := by
        intro lx
        unfold getNextToken skipSpace
        rw [Run.done_bind, hskip]
        dsimp only
        rw [hpunct]
        dsimp only
        unfold wordToken
        rw [hid, hdig]
        rfl
      induction n generalizing lx with
      | zero => rfl
      | succ n ih =>
        have hturn : startExpr (parseLoop d table (n + 1)) (some (c :: cs)) lx =
            loopBody d table (.ofLoop (parseLoop d table n)) [] [.exprBegin] true (some (c :: cs)) lx := by
          unfold startExpr skipSpace
          rw [Run.done_bind, hskip]
          rfl
        have hparen : parenOperand d (.ofLoop (parseLoop d table n)) (some (c :: cs)) lx = .more := by
          have hinner := @ih (lx.parseMsg "unknown preprocess token type") hlx
          unfold parenOperand
          rw [hnext lx, Run.done_bind]
          dsimp only [Calls.ofLoop]
          rw [hinner]
          rfl
        have hoperand : operand d table (.ofLoop (parseLoop d table n)) (some (c :: cs)) lx = .more := by
          unfold operand
          rw [hlx]
          exact hparen
        rw [hturn]
        unfold loopBody prefixBang
        rw [hlx, if_neg (fun h => EToken.noConfusion h), if_neg (fun h => EToken.noConfusion h),
          Run.done_bind]
        dsimp only
        rw [hoperand]
        rfl

/-! ## The call that was refused -/

/-- The first of two similar runs is refused a call and the second ends: then it is a call with `E`. -/
def Refused (E : Prop) (x y : Run α) : Prop := x = .cycle → y ≠ .more → E

theorem Refused.bind {E : Prop} {R : α → α → Prop} {x y : Run α} {f g : α → Run β}
    (h : Sim .cycle R x y) (hx : Refused E x y) (hf : ∀ a b, R a b → y = .done b → Refused E (f a) (g b)) :
    Refused E (x >>= f) (y >>= g) := by
  intro hc hne
  have hy : y ≠ .more := by
    rintro rfl
    exact hne rfl
  rcases h with rfl | h
  · exact hx rfl hy
  · cases x with
    | done a =>
      obtain ⟨b, rfl, hab⟩ := h.done_left
      exact hf a b hab rfl hc hne
    | cycle => exact hx rfl hy
    | _ => cases hc

theorem Refused.of_ne {E : Prop} {x y : Run α} (h : x ≠ .cycle) : Refused E x y := fun hc => (h hc).elim

/-- Refused calls with `E`, for each kind of call. -/
structure Calls.Refused (d : Dialect) (table : Table) (E : Prop) (c c' : Calls) : Prop where
  body : ∀ name text lx lx', lx.Same lx' → lx'.tk = .ident → lx'.tkString = name →
    table.find name = some text →
    Htl.Refused E (macroCall d (c.body name) text lx) (macroCall d (c'.body name) text lx')
  nested : ∀ tk pos lx lx', lx.Same lx' → (tk = .error → lx'.tk = .lParen) →
    Htl.Refused E (c.nested tk pos lx) (c'.nested tk pos lx')
  middle : ∀ pos lx lx', lx.Same lx' → Htl.Refused E (c.middle pos lx) (c'.middle pos lx')
  loop : ∀ vs ops s s' pos lx lx', lx.Same lx' →
    Htl.Refused E (c.loop vs ops s pos lx) (c'.loop vs ops s' pos lx')

section

variable {E : Prop} {c c' : Calls} {pos : Pos} {lx lx' : Lexer}

theorem getNextToken_refused : Refused E (getNextToken d pos lx) (getNextToken d pos lx') :=
  .of_ne (getNextToken_ne_cycle pos lx)

theorem identOperand_refused (hc : c.Similar .cycle c') (hr : c.Refused d table E c') (h : lx.Same lx')
    (htk : lx'.tk = .ident) :
    Refused E (identOperand d table c pos lx) (identOperand d table c' pos lx') := by
  unfold identOperand
  rw [h.2]
  split
  · exact .of_ne (definedOperand_ne_cycle pos lx)
  · split
    · rename_i text hfind _
      have hbody := hr.body _ text lx lx' h htk rfl hfind
      exact .bind (macroCall_sim h (hc.body _)) hbody fun _ _ _ _ => .of_ne fun h => by cases h
    · exact .of_ne fun h => by cases h
    · exact .of_ne fun h => by cases h

theorem parenOperand_refused (hc : c.Similar .cycle c') (hr : c.Refused d table E c') (h : lx.Same lx')
    (htk : lx'.tk = .lParen) :
    Refused E (parenOperand d c pos lx) (parenOperand d c' pos lx') := by
  refine .bind (getNextToken_sim h pos) getNextToken_refused ?_
  rintro ⟨tk, pos₁, lx₁⟩ ⟨_, _, lx₁'⟩ ⟨rfl, rfl, hx⟩ hnext
  refine .bind (hc.nested _ _ _ _ hx) (hr.nested _ _ _ _ hx ?_) ?_
  · rintro rfl
    exact (getNextToken_error hnext).trans htk
  · intro p p' _ _
    refine .of_ne fun h => ?_
    split at h <;> cases h

theorem operand_refused (hc : c.Similar .cycle c') (hr : c.Refused d table E c') (h : lx.Same lx') :
    Refused E (operand d table c pos lx) (operand d table c' pos lx') := by
  unfold operand
  rw [h.1]
  split
  · exact .of_ne fun h => by cases h
  · exact .of_ne fun h => by cases h
  · rename_i htk
    exact identOperand_refused hc hr h htk
  · rename_i htk
    exact parenOperand_refused hc hr h htk
  · exact .of_ne fun h => by cases h

theorem nextTurn_refused (hr : c.Refused d table E c') (h : lx.Same lx') (vs : List Int)
    (ops : List EToken) (s s' : Bool) :
    Refused E (getNextToken d pos lx >>= fun t => c.loop vs ops s t.2.1 t.2.2)
      (getNextToken d pos lx' >>= fun t => c'.loop vs ops s' t.2.1 t.2.2) := by
  refine .bind (getNextToken_sim h pos) getNextToken_refused ?_
  rintro ⟨tk, pos₁, lx₁⟩ ⟨_, _, lx₁'⟩ ⟨rfl, rfl, hx⟩ -
  exact hr.loop _ _ _ _ _ _ _ hx

theorem questionOperator_refused (hc : c.Similar .cycle c') (hr : c.Refused d table E c')
    (h : lx.Same lx') (vs : List Int) (ops : List EToken) (s s' : Bool) :
    Refused E (questionOperator d c vs ops s pos lx) (questionOperator d c' vs ops s' pos lx') := by
  refine .bind ofOption_sim (.of_ne (ofOption_ne_cycle _)) ?_
  rintro ⟨vs, ops⟩ _ rfl -
  refine .bind (getNextToken_sim h pos) getNextToken_refused ?_
  rintro ⟨tk, pos₁, lx₁⟩ ⟨_, _, lx₁'⟩ ⟨rfl, rfl, hx⟩ -
  refine .bind (hc.middle _ _ _ hx) (hr.middle _ _ _ hx) ?_
  rintro ⟨v, s₁, pos₂, lx₂⟩ ⟨_, s₂, _, lx₂'⟩ ⟨rfl, rfl, hy⟩ -
  dsimp only at hy ⊢
  rw [hy.1]
  split
  · exact nextTurn_refused hr hy _ _ _ _
  · exact .of_ne fun h => by cases h

theorem operator_refused (hc : c.Similar .cycle c') (hr : c.Refused d table E c') (h : lx.Same lx')
    (vs : List Int) (ops : List EToken) (s s' : Bool) :
    Refused E (operator d c vs ops s pos lx) (operator d c' vs ops s' pos lx') := by
  refine .bind (getNextToken_sim h pos) getNextToken_refused ?_
  rintro ⟨tk, pos₁, lx₁⟩ ⟨_, _, lx₁'⟩ ⟨rfl, rfl, hx⟩ -
  dsimp only
  split
  · exact .of_ne (finish_ne_cycle _ _ _ _ _)
  · split
    · refine .bind ofOption_sim (.of_ne (ofOption_ne_cycle _)) ?_
      rintro ⟨vs, ops⟩ _ rfl -
      exact nextTurn_refused hr hx _ _ _ _
    · exact questionOperator_refused hc hr hx vs ops s s'
    · exact .of_ne fun h => by cases h

/-- **A turn that is refused a call makes a call that is refused.** -/
theorem loopBody_refused (hc : c.Similar .cycle c') (hr : c.Refused d table E c') (h : lx.Same lx')
    (vs : List Int) (ops : List EToken) (s s' : Bool) :
    Refused E (loopBody d table c vs ops s pos lx) (loopBody d table c' vs ops s' pos lx') := by
  unfold loopBody
  rw [h.1]
  split
  · exact .of_ne fun h => by cases h
  · refine .bind (prefixBang_sim h vs ops) (.of_ne (prefixBang_ne_cycle _ _ _ _)) ?_
    rintro ⟨vs, ops, pos₁, lx₁⟩ ⟨_, _, _, lx₁'⟩ ⟨rfl, rfl, rfl, hx⟩ -
    refine .bind (operand_sim hc hx) (operand_refused hc hr hx) ?_
    rintro ⟨v, s₁, pos₂, lx₂⟩ ⟨_, s₂, _, lx₂'⟩ ⟨rfl, rfl, hy⟩ -
    exact operator_refused hc hr hy _ _ _ _

end

/-! ## Calls inside themselves -/

/-- With less fuel than `k`, one of the macros `active` is evaluated to an end. -/
def Reenters (d : Dialect) (table : Table) (k : ℕ) (active : List Text) : Prop :=
  ∃ name ∈ active, ∃ lx : Lexer, lx.tk = .ident ∧ lx.tkString = name ∧ ∃ text, table.find name = some text ∧
    ∃ j < k, macroCall d (startExpr (parseLoop d table j)) text lx ≠ .more

theorem Reenters.mono {k k' : ℕ} {active : List Text} (h : Reenters d table k active) (hk : k ≤ k') :
    Reenters d table k' active := by
  obtain ⟨name, hname, lx, htk, hs, text, hfind, j, hj, hne⟩ := h
  exact ⟨name, hname, lx, htk, hs, text, hfind, j, Nat.lt_of_lt_of_le hj hk, hne⟩

theorem macroCall_loop_sim {w : GaveUp} {text : Text} {lx lx' : Lexer}
    {loop loop' : List Int → List EToken → Bool → Pos → Lexer → Run Parsed} (hl : LoopSim w loop loop')
    (h : lx.Same lx') :
    Sim w Parsed.Same (macroCall d (startExpr loop) text lx) (macroCall d (startExpr loop') text lx') :=
  macroCall_sim h fun _ _ _ hx => startExpr_sim hl hx

/-- A run refused a call on much fuel is refused it on less, if the parser ends on that. -/
theorem cycle_of_sim {R : α → α → Prop} {x y z : Run α} (hxy : Sim .cycle R x y) (hy : y ≠ .more)
    (hxz : Sim .more R x z) (hz : z = .cycle) : x = .cycle := by
  rcases hxy with hx | hxy
  · exact hx
  · rcases hxz with hx | hxz
    · exact (hy (hxy.more_iff.1 hx)).elim
    · exact hxz.cycle_iff.2 hz

/-- A guarded loop that is refused a call where the parser ends. -/
def CycleReenters (d : Dialect) (table : Table) (k : ℕ) : Prop :=
  ∀ active vs ops s s' pos (lx lx' : Lexer), lx.Same lx' →
    guardedLoop d table k active vs ops s pos lx = .cycle → parseLoop d table k vs ops s' pos lx' ≠ .more →
    Reenters d table k active

theorem startExpr_reenters {k : ℕ} (ih : CycleReenters d table k) {active : List Text} {pos : Pos}
    {lx lx' : Lexer} (h : lx.Same lx') (hc : startExpr (guardedLoop d table k active) pos lx = .cycle)
    (hne : startExpr (parseLoop d table k) pos lx' ≠ .more) : Reenters d table k active := by
  cases pos with
  | none => cases hc
  | some cs => exact ih active _ _ _ _ _ lx lx' h hc hne

theorem macroCall_reenters {k : ℕ} (ih : CycleReenters d table k) {active : List Text} {text : Text}
    {lx lx' : Lexer} (h : lx.Same lx')
    (hc : macroCall d (startExpr (guardedLoop d table k active)) text lx = .cycle)
    (hne : macroCall d (startExpr (parseLoop d table k)) text lx' ≠ .more) : Reenters d table k active := by
  refine Refused.bind (getNextToken_sim h _) getNextToken_refused ?_ hc hne
  rintro ⟨tk, pos₁, lx₁⟩ ⟨_, _, lx₁'⟩ ⟨-, rfl, hx⟩ -
  exact startExpr_reenters ih hx

/-- **Below a macro that is not active, only an active one is entered again.** The macro itself would be
entered again on ever less fuel. -/
theorem enter_reenters {k : ℕ} (ih : ∀ j ≤ k, CycleReenters d table j) {active : List Text}
    {name text : Text} {lx : Lexer} (htk : lx.tk = .ident) (hs : lx.tkString = name)
    (hfind : table.find name = some text)
    (hc : macroCall d (startExpr (guardedLoop d table k (name :: active))) text lx = .cycle) (j : ℕ)
    (hj : j ≤ k) (lx' : Lexer) (h : lx.Same lx')
    (hne : macroCall d (startExpr (parseLoop d table j)) text lx' ≠ .more) : Reenters d table k active := by
  induction j using Nat.strongRecOn generalizing lx' with
  | ind j ihj =>
    have hcj : macroCall d (startExpr (guardedLoop d table j (name :: active))) text lx = .cycle :=
      cycle_of_sim (macroCall_loop_sim (guardedLoop_sim j _) h) hne
        (macroCall_loop_sim (guardedLoop_mono hj _) (Lexer.Same.refl lx)) hc
    obtain ⟨name', hmem, lx₁, htk₁, hs₁, text₁, hfind₁, i, hi, hne₁⟩ := macroCall_reenters (ih j hj) h hcj hne
    rcases List.mem_cons.1 hmem with rfl | hmem
    · obtain rfl : text = text₁ := Option.some.inj (hfind.symm.trans hfind₁)
      exact ihj i hi (by omega) lx₁ ⟨htk.trans htk₁.symm, hs.trans hs₁.symm⟩ hne₁
    · exact ⟨name', hmem, lx₁, htk₁, hs₁, text₁, hfind₁, i, by omega, hne₁⟩

/-- **A refused call is one inside itself.** -/
theorem cycle_reenters (k : ℕ) : CycleReenters d table k := by
  induction k using Nat.strongRecOn with
  | ind k ih =>
    cases k with
    | zero =>
      intro active vs ops s s' pos lx lx' h hc
      cases hc
    | succ k =>
      have ihk : ∀ j ≤ k, CycleReenters d table j := fun j hj => ih j (Nat.lt_succ_of_le hj)
      have hmono : ∀ {active}, Reenters d table k active → Reenters d table (k + 1) active :=
        fun h => h.mono (Nat.le_succ k)
      intro active vs ops s s' pos lx lx' h
      refine loopBody_refused (guardedCalls_ofLoop (guardedLoop_sim k)) ⟨?_, ?_, ?_, ?_⟩ h vs ops s s'
      · intro name text lx lx' h htk hs hfind hc hne
        by_cases hmem : name ∈ active
        · exact ⟨name, hmem, lx', htk, hs, text, hfind, k, Nat.lt_succ_self k, hne⟩
        · have henter : macroCall d (startExpr (guardedLoop d table k (name :: active))) text lx = .cycle := by
            unfold guardedCalls at hc
            simpa only [if_neg hmem] using hc
          exact hmono (enter_reenters ihk (h.1.trans htk) (h.2.trans hs) hfind henter k (Nat.le_refl k) lx' h hne)
      · intro tk pos lx lx' h htk hc hne
        dsimp only [guardedCalls] at hc
        split at hc
        · rename_i hstuck
          exact (hne (unknown_more hstuck.2 (htk hstuck.1) k)).elim
        · exact hmono (startExpr_reenters (ihk k (Nat.le_refl k)) h hc hne)
      · intro pos lx lx' h hc hne
        exact hmono (startExpr_reenters (ihk k (Nat.le_refl k)) h hc hne)
      · intro vs ops s s' pos lx lx' h hc hne
        exact hmono (ihk k (Nat.le_refl k) active vs ops s s' pos lx lx' h hc hne)

/-! ## The evaluation ends -/

/-- The run ended with a value or an error. -/
def Run.returned : Run α → Bool
  | done _ | fail _ => true
  | _ => false

theorem Alike.returned {R : α → α → Prop} {x y : Run α} (h : Alike R x y) : x.returned = y.returned := by
  cases x <;> cases y <;> first | rfl | exact h.elim

/-- Some fuel is enough for the run to end. -/
def Terminates (run : ℕ → Run Parsed) : Prop := ∃ n, run n ≠ .more

/-- Some fuel is enough for a value or an error. -/
def Returns (run : ℕ → Run Parsed) : Prop := ∃ n, (run n).returned

section

variable {pos : Pos} {lx : Lexer}

theorem parseExpression_mono {n m : ℕ} (hnm : n ≤ m) :
    Sim .more Parsed.Same (parseExpression d table n pos lx) (parseExpression d table m pos lx) :=
  startExpr_sim (parseLoop_sim hnm) (.refl lx)

theorem guardedExpression_mono {n m : ℕ} (hnm : n ≤ m) :
    Sim .more Parsed.Same (guardedExpression d table n pos lx) (guardedExpression d table m pos lx) :=
  startExpr_sim (guardedLoop_mono hnm []) (.refl lx)

theorem guardedExpression_alike {n : ℕ} (hc : guardedExpression d table n pos lx ≠ .cycle) :
    Alike Parsed.Same (guardedExpression d table n pos lx) (parseExpression d table n pos lx) :=
  (startExpr_sim (guardedLoop_sim n []) (.refl lx)).resolve_left hc

/-- **The evaluation ends exactly when the guard refuses no call.** -/
theorem parseExpression_terminates :
    Terminates (fun n => parseExpression d table n pos lx) ↔
      ∀ n, guardedExpression d table n pos lx ≠ .cycle := by
  constructor
  · rintro ⟨n, hn⟩ m hm
    have hcycle : guardedExpression d table (max n m) pos lx = .cycle := by
      rcases guardedExpression_mono (Nat.le_max_right n m) with h | h
      · rw [hm] at h
        cases h
      · exact h.cycle_iff.1 hm
    have hmore : parseExpression d table (max n m) pos lx ≠ .more := by
      rcases parseExpression_mono (Nat.le_max_left n m) with h | h
      · exact (hn h).elim
      · exact fun hmax => hn (h.more_iff.2 hmax)
    -- no macro is active at the start
    obtain ⟨name, hname, -⟩ := startExpr_reenters (cycle_reenters _) (.refl lx) hcycle hmore
    cases hname
  · intro hc
    have hends : Ends (Within pos.len)
        (guardedExpression d table (table.inactive [] * (table.size + 1) + pos.len + 1) pos lx) := by
      refine startExpr_ends ?_ (Nat.le_refl _) lx
      intro vs ops s pos' lx' hle
      exact guardedLoop_ends _ [] vs ops s pos' lx' (by omega)
    exact ⟨_, fun h => hends.ne_more ((guardedExpression_alike (hc _)).more_iff.2 h)⟩

/-- **It returns exactly when it also meets nothing that C++ leaves undefined.** -/
theorem parseExpression_returns :
    Returns (fun n => parseExpression d table n pos lx) ↔
      (∀ n, guardedExpression d table n pos lx ≠ .cycle) ∧ ∀ n, guardedExpression d table n pos lx ≠ .fault := by
  constructor
  · rintro ⟨n, hn⟩
    have hne : parseExpression d table n pos lx ≠ .more := by
      intro h
      dsimp only at hn
      rw [h] at hn
      cases hn
    have hc := parseExpression_terminates.1 ⟨n, hne⟩
    refine ⟨hc, fun m hm => ?_⟩
    have hfault : (parseExpression d table m pos lx).returned = false := by
      rw [← (guardedExpression_alike (hc m)).returned, hm]
      rfl
    have hmne : parseExpression d table m pos lx ≠ .more := by
      intro h
      have := (guardedExpression_alike (hc m)).more_iff.2 h
      rw [hm] at this
      cases this
    have h₁ := ((parseExpression_mono (Nat.le_max_left n m)).resolve_left hne).returned
    have h₂ := ((parseExpression_mono (Nat.le_max_right n m)).resolve_left hmne).returned
    rw [hn] at h₁
    rw [hfault, ← h₁] at h₂
    cases h₂
  · rintro ⟨hc, hf⟩
    obtain ⟨n, hn⟩ := parseExpression_terminates.2 hc
    refine ⟨n, ?_⟩
    have halike := guardedExpression_alike (hc n)
    dsimp only at hn ⊢
    rw [← halike.returned]
    have hmore : guardedExpression d table n pos lx ≠ .more := fun h => hn (halike.more_iff.1 h)
    cases hg : guardedExpression d table n pos lx with
    | done p => rfl
    | fail lx => rfl
    | fault => exact (hf n hg).elim
    | cycle => exact (hc n hg).elim
    | more => exact (hmore hg).elim

end

/-- The first token and the guarded parser. -/
def guardedEvaluate (d : Dialect) (table : Table) (n : ℕ) (pos : Pos) (lx : Lexer) : Run Parsed := do
  let (_, pos, lx) ← getNextToken d pos lx
  guardedExpression d table n pos lx

theorem evaluate_terminates {pos : Pos} {lx : Lexer} :
    (Terminates (fun n => evaluate d table n pos lx) ↔ ∀ n, guardedEvaluate d table n pos lx ≠ .cycle) ∧
      (Returns (fun n => evaluate d table n pos lx) ↔
        (∀ n, guardedEvaluate d table n pos lx ≠ .cycle) ∧ ∀ n, guardedEvaluate d table n pos lx ≠ .fault) := by
  unfold evaluate guardedEvaluate
  cases ht : getNextToken d pos lx with
  | done t => exact ⟨parseExpression_terminates, parseExpression_returns⟩
  | fail lx =>
    exact ⟨⟨fun _ _ h => (by cases h), fun _ => ⟨0, fun h => by cases h⟩⟩,
      ⟨fun _ => ⟨fun _ h => (by cases h), fun _ h => (by cases h)⟩, fun _ => ⟨0, rfl⟩⟩⟩
  | fault =>
    exact ⟨⟨fun _ _ h => (by cases h), fun _ => ⟨0, fun h => by cases h⟩⟩,
      ⟨fun ⟨_, h⟩ => (by cases h), fun h => (h.2 0 rfl).elim⟩⟩
  | cycle => exact (getNextToken_ne_cycle pos lx ht).elim
  | more => exact ((getNextToken_ends pos lx).ne_more ht).elim

/-- `#define A A` -/
def selfTable : Table := [(['A'], ['A'])]

/-- The macro that stands for itself is evaluated without end. -/
theorem selfTable_more (n : ℕ) (lx : Lexer) (htk : lx.tk = .ident) (hs : lx.tkString = ['A']) :
    startExpr (parseLoop d selfTable n) (some []) lx = .more := by
  induction n generalizing lx with
  | zero => rfl
  | succ n ih =>
    have hcall : macroCall d (startExpr (parseLoop d selfTable n)) ['A'] lx = .more :=
      ih { lx with tk := .ident, tkString := ['A'] } rfl rfl
    have hident : identOperand d selfTable (.ofLoop (parseLoop d selfTable n)) (some []) lx = .more := by
      have hfind : selfTable.find lx.tkString = some ['A'] := by rw [hs]; rfl
      have hdefined : ¬(d = .preProcess ∧ lx.tkString = definedName) := by
        rw [hs]
        exact fun h => absurd h.2 (by decide)
      unfold identOperand
      rw [if_neg hdefined, hfind]
      dsimp only [Calls.ofLoop]
      rw [hcall]
      rfl
    have hoperand : operand d selfTable (.ofLoop (parseLoop d selfTable n)) (some []) lx = .more := by
      unfold operand
      rw [htk]
      exact hident
    change loopBody d selfTable (.ofLoop (parseLoop d selfTable n)) [] [.exprBegin] true (some []) lx = .more
    unfold loopBody prefixBang
    rw [htk, if_neg (fun h => EToken.noConfusion h), if_neg (fun h => EToken.noConfusion h), Run.done_bind]
    dsimp only
    rw [hoperand]
    rfl

end OpenHT.Htl
