import OpenHT.Vex.LexEnds
import OpenHT.Vex.Parse

/-!
# Where the Verilog parser comes to an end

* `Goes`, `Takes`: programs that end and do not go back in the file, and those that read a token.
* `EndmoduleAhead`: an `endmodule` is still to come, or the program ends before.
* `parseModule_total`: a module ends, if an `endmodule` is ahead of one that is skipped.
* `parseFile_ends_iff`: `Parse` ends exactly for the files in which this is so for each module that it comes to.
-/

namespace OpenHT.Vex.Lex

open Program

variable {exits : CDesign → Bool} {s s' : CDesign} {α β : Type}

/-! ## Programs that end -/

/-- The state after any number of tokens. -/
def Upto (s s' : CDesign) : Prop := Later s s' ∨ s'.pre = s.pre ∧ s'.line = s.line

attribute [local simp] parseConcatSignal

theorem Less.of_same {s₁ s₂ s₃ : CDesign} (h : Less s₃ s₂) (hpre : s₂.pre = s₁.pre) (hline : s₂.line = s₁.line) :
    Less s₃ s₁ := by
  refine ⟨fun hended => h.1 (hended.congr hpre hline), h.2.imp_right fun hlt => ?_⟩
  rw [← place_congr hpre hline]
  exact hlt

theorem Later.upto {s₁ s₂ s₃ : CDesign} (h : Later s₁ s₂) (h' : Upto s₂ s₃) : Later s₁ s₃ := by
  rcases h' with h' | ⟨hpre, hline⟩
  · exact h.trans h'
  · rcases h with h | ⟨h₁, h₂⟩
    · exact .inl (h.congr hpre hline)
    · exact .inr ⟨h₁, h₂.congr hpre hline⟩

theorem Upto.later {s₁ s₂ s₃ : CDesign} (h : Upto s₁ s₂) (h' : Later s₂ s₃) : Later s₁ s₃ := by
  rcases h with h | ⟨hpre, hline⟩
  · exact h.trans h'
  · rcases h' with h' | ⟨h₂, h₃⟩
    · exact .inl (h'.of_same hpre hline)
    · exact .inr ⟨h₂.congr hpre.symm hline.symm, h₃⟩

theorem Upto.trans {s₁ s₂ s₃ : CDesign} (h : Upto s₁ s₂) (h' : Upto s₂ s₃) : Upto s₁ s₃ := by
  rcases h' with h' | ⟨hpre', hline'⟩
  · exact .inl (h.later h')
  · rcases h with h | ⟨hpre, hline⟩
    · exact .inl (h.upto (.inr ⟨hpre', hline'⟩))
    · exact .inr ⟨hpre'.trans hpre, hline'.trans hline⟩

/-- Something is still left behind the first tokens. -/
theorem Less.of_later {s₁ s₂ s₃ : CDesign} (h : Less s₃ s₂) (h' : Later s₁ s₂) : Less s₃ s₁ := by
  rcases h' with h' | ⟨-, h₂⟩
  · exact h.trans h'
  · exact absurd h₂ h.1

/-- What is left is less than before. -/
theorem Less.upto {s₁ s₂ s₃ : CDesign} (h : Less s₂ s₁) (h' : Upto s₂ s₃) : Less s₃ s₁ :=
  (Later.upto (.inl h) h').resolve_right fun hended => h.1 hended.1

/-- A program that ends and does not go back. -/
def Goes (p : Parser α) : Prop := ∀ s, Sound s.pre → Total p s fun _ s' => Sound s'.pre ∧ Upto s s'

/-- A program that reads a token. -/
def Takes (p : Parser α) : Prop := ∀ s, Sound s.pre → Total p s fun _ s' => Sound s'.pre ∧ Later s s'

theorem Takes.goes {p : Parser α} (h : Takes p) : Goes p :=
  fun s hs => (h s hs).mono fun _ _ h' => ⟨h'.1, .inl h'.2⟩

theorem Goes.bind {p : Parser α} {k : α → Parser β} (hp : Goes p) (hk : ∀ a, Goes (k a)) : Goes (p >>= k) := by
  intro s hs
  refine (hp s hs).bind fun a s₁ h₁ => (hk a s₁ h₁.1).mono fun b s₂ h₂ => ?_
  exact ⟨h₂.1, h₁.2.trans h₂.2⟩

theorem Takes.bind {p : Parser α} {k : α → Parser β} (hp : Takes p) (hk : ∀ a, Goes (k a)) : Takes (p >>= k) := by
  intro s hs
  refine (hp s hs).bind fun a s₁ h₁ => (hk a s₁ h₁.1).mono fun b s₂ h₂ => ?_
  exact ⟨h₂.1, h₁.2.upto h₂.2⟩

theorem Goes.takes {p : Parser α} {k : α → Parser β} (hp : Goes p) (hk : ∀ a, Takes (k a)) : Takes (p >>= k) := by
  intro s hs
  refine (hp s hs).bind fun a s₁ h₁ => (hk a s₁ h₁.1).mono fun b s₂ h₂ => ?_
  exact ⟨h₂.1, h₁.2.later h₂.2⟩

theorem Goes.ite {c : Prop} [Decidable c] {p q : Parser α} (hp : Goes p) (hq : Goes q) : Goes (if c then p else q) :=
  fun s hs => Total.ite (fun _ => hp s hs) fun _ => hq s hs

theorem goes_pure (a : α) : Goes (pure a) := fun _ hs => Total.pure ⟨hs, .inr ⟨rfl, rfl⟩⟩

theorem goes_stop : Goes (stop : Parser α) := fun _ _ => Total.stop

theorem goes_get : Goes get := fun _ hs => Total.get ⟨hs, .inr ⟨rfl, rfl⟩⟩

theorem goes_updateModule (f : CModule → CModule) : Goes (updateModule f) :=
  fun _ hs => Total.modify ⟨hs, .inr ⟨rfl, rfl⟩⟩

theorem goes_parseMsg : Goes (parseMsg exits) := fun _ hs =>
  Total.modify_bind (Total.get_bind (Total.ite (fun _ => Total.stop) fun _ => Total.pure ⟨hs, .inr ⟨rfl, rfl⟩⟩))

theorem takes_getNextToken : Takes (getNextToken exits) :=
  fun _ hs => (getNextToken_total hs).mono fun _ _ h => ⟨h.sound, h.later⟩

theorem takes_skipTo (token : EToken) : Takes (skipTo exits token) := fun _ hs => skipTo_total hs

theorem takes_skipStatement : Takes (skipStatement exits) := goes_parseMsg.takes fun _ => takes_skipTo _

theorem goes_signalMapInsert (name : Str) : Goes (signalMapInsert exits name) :=
  goes_parseMsg.bind fun _ => goes_updateModule _

theorem goes_instMapInsert (name : Str) : Goes (instMapInsert exits name) :=
  goes_parseMsg.bind fun _ => goes_updateModule _

/-- An error of which `a` tells the caller. -/
theorem goes_error (a : α) : Goes (do
    skipStatement exits
    return a) := takes_skipStatement.goes.bind fun _ => goes_pure a

/-! ## Signals -/

theorem goes_signalName (t : EToken) : Goes (signalName exits t) := by
  refine Goes.ite takes_skipStatement.goes (goes_get.bind fun s => (goes_signalMapInsert _).bind fun _ => ?_)
  exact takes_getNextToken.goes.bind fun t => Goes.ite takes_skipStatement.goes (goes_pure _)

theorem takes_parseSignal : Takes (parseSignal exits) := by
  have hskip : Goes (skipStatement exits) := takes_skipStatement.goes
  have hnext : Goes (getNextToken exits) := takes_getNextToken.goes
  refine takes_getNextToken.bind fun t => Goes.ite ?_ (goes_signalName t)
  refine hnext.bind fun t => Goes.ite hskip (goes_parseMsg.bind fun _ => ?_)
  refine hnext.bind fun t => Goes.ite hskip (hnext.bind fun t => Goes.ite hskip (goes_parseMsg.bind fun _ => ?_))
  exact hnext.bind fun t => Goes.ite hskip (hnext.bind fun t => goes_signalName t)

theorem goes_declareWire (name : Str) : Goes (declareWire exits name) := by
  refine goes_get.bind fun s => ?_
  cases s.current with
  | none => exact goes_stop
  | some m => exact Goes.ite (goes_pure _) ((goes_signalMapInsert _).bind fun _ => goes_pure _)

theorem goes_closeIndex (name : Str) (t : EToken) : Goes (closeIndex exits name t) :=
  Goes.ite (goes_error _) (takes_getNextToken.goes.bind fun _ => goes_declareWire name)

theorem takes_parsePortSignal : Takes (parsePortSignal exits) := by
  have hnext : Goes (getNextToken exits) := takes_getNextToken.goes
  refine goes_get.takes fun s => takes_getNextToken.bind fun t => Goes.ite ?_ (goes_declareWire _)
  refine hnext.bind fun t => Goes.ite (goes_error _) (goes_parseMsg.bind fun _ => hnext.bind fun t => ?_)
  refine Goes.ite (hnext.bind fun t => Goes.ite (goes_error _) (goes_parseMsg.bind fun _ => ?_)) (goes_closeIndex _ t)
  exact hnext.bind fun t => goes_closeIndex _ t

theorem goes_concatEnd : Goes (concatEnd exits) :=
  goes_get.bind fun _ => Goes.ite (goes_error _) (Goes.ite (goes_pure _) (goes_pure _))

/-- What a round of a loop says that goes on only behind a token. -/
def TakesRound (s : CDesign) (o : β ⊕ α) (s' : CDesign) : Prop :=
  Sound s'.pre ∧ o.elim (fun _ => Less s' s) fun _ => Later s s'

theorem TakesRound.of_less {o : β ⊕ α} (hsound : Sound s'.pre) (h : Less s' s) : TakesRound s o s' := by
  rcases o with b | a
  · exact ⟨hsound, h⟩
  · exact ⟨hsound, .inl h⟩

/-- After a first token that is not the last. -/
theorem takesRound_of_goes {s₁ : CDesign} {p : Parser (β ⊕ α)} (hp : Goes p) (hsound : Sound s₁.pre) (h : Less s₁ s) :
    Total p s₁ (TakesRound s) := (hp s₁ hsound).mono fun _ _ h₂ => .of_less h₂.1 (h.upto h₂.2)

/-- An end of the loop. -/
theorem takesRound_of_inr {s₁ : CDesign} {p : Parser (β ⊕ α)} (hp : Goes p) (hsound : Sound s₁.pre) (h : Later s s₁)
    (hend : Total p s₁ fun o _ => ∃ a, o = .inr a) : Total p s₁ (TakesRound s) := by
  refine ((hp s₁ hsound).and hend).mono ?_
  rintro o s₂ ⟨h₂, a, rfl⟩
  exact ⟨h₂.1, h.upto h₂.2⟩

theorem error_inr (hs : Sound s.pre) (a : α) : Total (do
    skipStatement exits
    return (.inr a : β ⊕ α)) s fun o _ => ∃ a, o = .inr a :=
  (takes_skipStatement s hs).bind fun _ _ _ => Total.pure ⟨a, rfl⟩

/-- **A loop whose rounds read tokens** ends. -/
theorem takes_loop {round : β → Parser (β ⊕ α)}
    (hround : ∀ b s, Sound s.pre → Total (round b) s (TakesRound s)) (b : β) : Takes (loop round b) := by
  intro s hs
  refine Total.loop less_wf (fun _ s₁ => Sound s₁.pre ∧ (s₁ = s ∨ Less s₁ s)) (fun b s₁ hI => ?_) ⟨hs, .inl rfl⟩
  refine (hround b s₁ hI.1).mono fun o s₂ ho => ?_
  rcases o with b' | a
  · refine ⟨⟨ho.1, .inr ?_⟩, ho.2⟩
    rcases hI.2 with rfl | hless
    · exact ho.2
    · exact Less.trans ho.2 hless
  · refine ⟨ho.1, ?_⟩
    rcases hI.2 with rfl | hless
    · exact ho.2
    · exact Later.trans (.inl hless) ho.2

/-- A round that begins with a token, and is the last one at the end of the file. -/
theorem takesRound_next {k : EToken → Parser (β ⊕ α)} (hk : ∀ t, Goes (k t))
    (hend : ∀ s₁, Sound s₁.pre → Total (k .eof) s₁ fun o _ => ∃ a, o = .inr a) (hs : Sound s.pre) :
    Total (getNextToken exits >>= k) s (TakesRound s) := by
  refine (getNextToken_total hs).bind fun t s₁ h₁ => ?_
  by_cases ht : t = .eof
  · subst ht
    exact takesRound_of_inr (hk _) h₁.sound h₁.later (hend s₁ h₁.sound)
  · exact takesRound_of_goes (hk t) h₁.sound (h₁.more ht)

/-! ## Concatenations -/

theorem concatInner_total {concat : Parser Bool}
    (hconcat : Total concat s fun _ s' => Sound s'.pre ∧ Later s s') :
    Total (concatInner exits concat) s fun _ s' => Sound s'.pre ∧ Later s s' := by
  refine hconcat.bind fun b s₁ h₁ => Total.ite (fun _ => ?_) fun _ => Total.pure h₁
  refine (takes_getNextToken.bind (fun _ => goes_concatEnd) s₁ h₁.1).mono fun o s₂ h₂ => ⟨h₂.1, h₁.2.trans h₂.2⟩

/-- A round of a concatenation, where those in it end. -/
theorem concatRound_total {concat : Parser Bool} (hs : Sound s.pre)
    (hconcat : ∀ s₁, Less s₁ s → Sound s₁.pre → Total concat s₁ fun _ s' => Sound s'.pre ∧ Later s₁ s') :
    Total (concatRound exits concat ()) s (TakesRound s) := by
  have hinner (s₁ : CDesign) (hless : Less s₁ s) (hs₁ : Sound s₁.pre) :
      Total (concatInner exits concat) s₁ (TakesRound s) :=
    (concatInner_total (hconcat s₁ hless hs₁)).mono fun o s₂ h₂ => .of_less h₂.1 (hless.upto (.inl h₂.2))
  refine (getNextToken_total hs).bind fun t s₁ h₁ => Total.ite (fun ht => ?_) fun _ => Total.ite (fun ht => ?_) fun _ =>
    Total.ite (fun ht => ?_) fun _ => ?_
  · exact hinner s₁ (h₁.more (by rw [ht]; decide)) h₁.sound
  · refine takesRound_of_goes (takes_parsePortSignal.goes.bind fun b => ?_) h₁.sound (h₁.more (by rw [ht]; decide))
    exact Goes.ite (goes_pure _) goes_concatEnd
  · -- a constant, or how often a concatenation is repeated
    have hless : Less s₁ s := h₁.more (by rw [ht]; decide)
    refine (goes_parseMsg s₁ h₁.sound).bind fun _ s₂ h₂ => (takes_getNextToken s₂ h₂.1).bind fun t s₃ h₃ => ?_
    have hless₃ : Less s₃ s := hless.upto (.inl (h₂.2.later h₃.2))
    exact Total.ite (fun _ => hinner s₃ hless₃ h₃.1) fun _ => takesRound_of_goes goes_concatEnd h₃.1 hless₃
  · exact takesRound_of_inr (goes_error _) h₁.sound h₁.later (error_inr h₁.sound _)

theorem concatWith_agree {n : ℕ} {p q : Parser Bool} (hpq : Agree n p q) :
    Agree n (concatWith exits p) (concatWith exits q) := by
  have hinner : Agree n (concatInner exits p) (concatInner exits q) := Agree.bind hpq fun _ => Agree.refl _
  refine Agree.loop (fun _ => Agree.bind (Agree.refl _) fun t => Agree.ite hinner (Agree.ite (Agree.refl _) ?_)) ()
  refine Agree.ite (Agree.bind (Agree.refl _) fun _ => Agree.bind (Agree.refl _) fun t => ?_) (Agree.refl _)
  exact Agree.ite hinner (Agree.refl _)

theorem parseConcatSignal_succ (n : ℕ) (s : CDesign) :
    parseConcatSignal exits (n + 1) s = concatWith exits (parseConcatSignal exits) n s := by
  have hagree : Agree n (fun _ => parseConcatSignal exits n) (parseConcatSignal exits) := fun _ => rfl
  rw [parseConcatSignal]
  exact concatWith_agree hagree s

/-- **`ParseConcatSignal`** ends. -/
theorem takes_parseConcatSignal : Takes (parseConcatSignal exits) := by
  intro s hs
  induction s using less_wf.induction with
  | _ s ih =>
    refine Total.call parseConcatSignal_succ (Total.loop less_wf
      (fun _ s₁ => Sound s₁.pre ∧ (s₁ = s ∨ Less s₁ s)) (fun _ s₁ hI => ?_) ⟨hs, .inl rfl⟩)
    have hconcat (s₂ : CDesign) (h₂ : Less s₂ s₁) (hs₂ : Sound s₂.pre) :
        Total (parseConcatSignal exits) s₂ fun _ s' => Sound s'.pre ∧ Later s₂ s' := by
      refine ih s₂ ?_ hs₂
      rcases hI.2 with rfl | hless
      · exact h₂
      · exact h₂.trans hless
    refine (concatRound_total hI.1 hconcat).mono fun o s₂ ho => ?_
    rcases o with _ | b
    · refine ⟨⟨ho.1, .inr ?_⟩, ho.2⟩
      rcases hI.2 with rfl | hless
      · exact ho.2
      · exact Less.trans ho.2 hless
    · refine ⟨ho.1, ?_⟩
      rcases hI.2 with rfl | hless
      · exact ho.2
      · exact Later.trans (.inl hless) ho.2

/-! ## Instances -/

theorem goes_connect : Goes (connect exits) := goes_parseMsg.bind fun _ => goes_pure _

theorem goes_signalError : Goes (signalError exits) := goes_error _

theorem takes_parsePortSignalList (moduleName : Str) (portIdx : Option Str) :
    Takes (parsePortSignalList exits moduleName portIdx) := by
  have hnext : Goes (getNextToken exits) := takes_getNextToken.goes
  refine takes_getNextToken.bind fun t => Goes.ite ?_ (Goes.ite ?_ (Goes.ite ?_ (Goes.ite ?_ goes_signalError)))
  · refine takes_parseConcatSignal.goes.bind fun b => Goes.ite (hnext.bind fun _ => goes_connect) (goes_pure _)
  · exact takes_parsePortSignal.goes.bind fun b => Goes.ite (goes_pure _) goes_connect
  · exact goes_parseMsg.bind fun _ => hnext.bind fun _ => goes_connect
  · refine Goes.ite goes_signalError ?_
    cases portIdx with
    | none => exact goes_stop
    | some port => exact Goes.ite goes_signalError (goes_pure _)

theorem goes_usePort (moduleName instName port : Str) (used : List Str) :
    Goes (usePort exits moduleName instName port used) := by
  refine goes_get.bind fun s => ?_
  cases s.findModule moduleName with
  | none => exact goes_stop
  | some m =>
    cases s.current with
    | none => exact goes_stop
    | some current =>
      have hmsg (r : List Str × Option Str) : Goes (do
          parseMsg exits
          return r) := goes_parseMsg.bind fun _ => goes_pure r
      exact Goes.ite (hmsg _) (Goes.ite (hmsg _) ((goes_updateModule _).bind fun _ => goes_pure _))

theorem goes_instEnd : Goes (instEnd exits) :=
  goes_parseMsg.bind fun _ => takes_getNextToken.goes.bind fun _ => Goes.ite takes_skipStatement.goes (goes_pure _)

theorem goes_instError : Goes (instError exits) := goes_error _

theorem takesRound_inst (moduleName instName : Str) (used : List Str) (s : CDesign) (hs : Sound s.pre) :
    Total (instRound exits moduleName instName used) s (TakesRound s) := by
  have hnext : Goes (getNextToken exits) := takes_getNextToken.goes
  refine takesRound_next (fun t => Goes.ite goes_instError ?_) (fun s₁ hs₁ => ?_) hs
  · refine hnext.bind fun t => Goes.ite goes_instError (goes_get.bind fun s => ?_)
    refine (goes_usePort _ _ _ _).bind fun port => ?_
    refine hnext.bind fun t => Goes.ite goes_instError ((takes_parsePortSignalList _ _).goes.bind fun b => ?_)
    refine Goes.ite (goes_parseMsg.bind fun _ => hnext.bind fun t => Goes.ite goes_instError ?_) (goes_pure _)
    exact Goes.ite (goes_instEnd.bind fun _ => goes_pure _) (goes_pure _)
  · rw [if_pos (by decide)]
    exact error_inr hs₁ ()

theorem takes_parseModuleInst (moduleName : Str) : Takes (parseModuleInst exits moduleName) := by
  refine takes_getNextToken.bind fun t => Goes.ite takes_skipStatement.goes (goes_get.bind fun s => ?_)
  refine (goes_instMapInsert _).bind fun _ => takes_getNextToken.goes.bind fun t => Goes.ite takes_skipStatement.goes ?_
  exact (takes_loop (takesRound_inst _ _) _).goes

/-! ## Other statements -/

theorem takes_skipStatementNext : Takes (skipStatementNext exits) :=
  takes_skipStatement.bind fun _ => takes_getNextToken.goes.bind fun _ => goes_pure _

theorem takes_parseSynthesis : Takes (parseSynthesis exits) := by
  have hskip : Goes (skipStatementNext exits) := takes_skipStatementNext.goes
  have hnext : Goes (getNextToken exits) := takes_getNextToken.goes
  refine takes_getNextToken.bind fun t => goes_get.bind fun s => Goes.ite hskip ?_
  refine hnext.bind fun t => Goes.ite hskip (hnext.bind fun t => Goes.ite hskip (hnext.bind fun t => Goes.ite hskip ?_))
  exact hnext.bind fun t => Goes.ite goes_parseMsg (goes_pure _)

theorem takesRound_defparam (s : CDesign) (hs : Sound s.pre) : Total (defparamRound exits ()) s (TakesRound s) := by
  refine takesRound_next (fun t => Goes.ite (goes_error _) ?_) (fun s₁ hs₁ => ?_) hs
  · refine takes_getNextToken.goes.bind fun t => Goes.ite (goes_pure _) (Goes.ite (goes_error _) (goes_pure _))
  · rw [if_pos (by decide)]
    exact error_inr hs₁ false

theorem takes_parseDefparam : Takes (parseDefparam exits) := by
  have hnext : Goes (getNextToken exits) := takes_getNextToken.goes
  refine (takes_loop (fun _ => takesRound_defparam) ()).bind fun b => Goes.ite ?_ (goes_pure _)
  refine hnext.bind fun t => Goes.ite takes_skipStatement.goes (goes_parseMsg.bind fun _ => ?_)
  exact hnext.bind fun t => Goes.ite goes_parseMsg (goes_pure _)

/-- The place, where a line counts as two characters at least, as many as `GetLineBuf` leaves. -/
def padded (s : CDesign) : Rank ×ₗ ℕ := toLex (rank s.pre, max 2 s.line.length)

theorem padded_le : padded s' ≤ padded s ↔ rank s'.pre < rank s.pre ∨
    rank s'.pre = rank s.pre ∧ max 2 s'.line.length ≤ max 2 s.line.length := Prod.Lex.toLex_le_toLex

theorem place_le_padded (s : CDesign) : place s ≤ padded s :=
  Prod.Lex.toLex_le_toLex.2 (.inr ⟨rfl, Nat.le_max_right ..⟩)

theorem padded_le_of_place (h : place s' < place s) : padded s' ≤ padded s := by
  rw [padded_le]
  rcases place_lt.1 h with h | ⟨h, hlen⟩
  · exact .inl h
  · exact .inr ⟨h, by omega⟩

/-- After `GetLineBuf`. -/
theorem padded_le_of_rank (hline : s'.line = ['\n', nul]) (h : rank s'.pre ≤ rank s.pre) : padded s' ≤ padded s := by
  rw [padded_le, hline]
  rcases lt_or_eq_of_le h with h | h
  · exact .inl h
  · exact .inr ⟨h, Nat.le_max_left ..⟩

theorem rank_le_of_place (h : place s' < place s) : rank s'.pre ≤ rank s.pre :=
  (place_lt.1 h).elim le_of_lt fun h => le_of_eq h.1

theorem rank_le_of_room (h : Room s s') : rank s'.pre ≤ rank s.pre := h.elim le_of_lt fun h => le_of_eq h.1

/-- `AdvanceStatementFilePos` gives up the copies that are still to come. -/
theorem advance_spec {st : CPreProcess} (h : Sound st) :
    Sound { st with statement := st.fp } ∧ rank { st with statement := st.fp } ≤ rank st := by
  have hle := h.statement
  refine ⟨⟨Nat.le_refl _, h.index, h.width⟩, ?_⟩
  rw [← not_lt, rank, rank, rankAt_lt]
  dsimp only
  by_cases hrep : st.bRepositionToLineStart = true
  · rw [if_pos hrep, if_pos hrep]
    omega
  · rw [if_neg hrep, if_neg hrep]
    omega

/-- What `ParseIfdef` leaves: the end of the file, or not more than there was. -/
def IfdefEnds (s s' : CDesign) : Prop := Sound s'.pre ∧ (Ended s' ∨ padded s' ≤ padded s)

/-- The token behind a line that `GetLineBuf` has taken. -/
theorem ifdefNext_total {s₁ : CDesign} (hsound : Sound s₁.pre) (hline : s₁.line = ['\n', nul])
    (h : (s₁.pre.fp = [] ∧ s₁.pre.bRepositionToLineStart = false) ∨ rank s₁.pre ≤ rank s.pre) :
    Total (do
      let _ ← getNextToken exits
      return ()) s₁ fun _ s' => IfdefEnds s s' := by
  refine ((getNextToken_total hsound).and (R := fun _ s' => Ended s' ∨ padded s' ≤ padded s) ?_).bind
    fun t s₂ h₂ => Total.pure ⟨h₂.1.sound, h₂.2⟩
  rcases h with ⟨hfp, hrep⟩ | hrank
  · refine ⟨_, getNextToken_newline hline hfp hrep, ?_⟩
    rintro _ _ ⟨⟩
    exact .inl (ended_last _)
  · refine (getNextToken_total hsound).mono fun t s₂ h₂ => ?_
    rcases h₂.later with hless | hended
    · refine hless.2.imp_right fun hlt => ?_
      exact le_trans (padded_le_of_place hlt) (padded_le_of_rank hline hrank)
    · exact .inl hended.2

theorem parseIfdef_total (hs : Sound s.pre) : Total (parseIfdef exits) s fun _ s' => IfdefEnds s s' := by
  refine (getNextToken_total hs).bind fun t s₁ h₁ => Total.ite (fun ht => ?_) fun ht => ?_
  · -- no name
    have hmsg : Total (parseMsg exits) s₁ fun _ s' => s'.pre = s₁.pre :=
      Total.modify_bind (Total.get_bind (Total.ite (fun _ => Total.stop) fun _ => Total.pure rfl))
    refine hmsg.bind fun _ s₂ hpre => Total.modify_bind (ifdefNext_total ?_ rfl ?_)
    · exact hpre ▸ h₁.sound
    · show (s₂.pre.fp = [] ∧ s₂.pre.bRepositionToLineStart = false) ∨ rank s₂.pre ≤ rank s.pre
      rw [hpre]
      rcases h₁.later with hless | hended
      · exact hless.2.imp (fun hended => ⟨hended.fp, hended.atLine⟩) rank_le_of_place
      · exact .inl ⟨hended.2.fp, hended.2.atLine⟩
  · have hident : t = .ident := not_not.1 ht
    have hrank := rank_le_of_room (h₁.ident hident)
    refine Total.get_bind (Total.modify_bind ?_)
    cases s₁.current with
    | none => exact Total.stop
    | some m =>
      refine Total.ite (fun _ => ?_) fun _ => Total.modify_bind (Total.modify ?_)
      · have hmsg : Total (parseMsg exits) { s₁ with line := ['\n', nul] } fun _ s' =>
            s'.pre = s₁.pre ∧ s'.line = ['\n', nul] :=
          Total.modify_bind (Total.get_bind (Total.ite (fun _ => Total.stop) fun _ => Total.pure ⟨rfl, rfl⟩))
        refine hmsg.bind fun _ s₂ h₂ => ifdefNext_total ?_ h₂.2 (.inr ?_)
        · exact h₂.1 ▸ h₁.sound
        · rw [h₂.1]
          exact hrank
      · obtain ⟨hsound, hle⟩ := advance_spec h₁.sound
        exact ⟨hsound, .inr (padded_le_of_rank rfl (le_trans hle hrank))⟩

/-! ## Modules -/

theorem goes_untilEof (a : α) (b : β) : Goes (untilEof a b) :=
  goes_get.bind fun _ => Goes.ite (goes_pure _) (goes_pure _)

theorem goes_moduleMapInsert (name : Str) : Goes (moduleMapInsert exits name) := by
  refine goes_get.bind fun s => Goes.ite (goes_parseMsg.bind fun _ => goes_pure _) ?_
  exact Goes.bind (fun _ hs => Total.modify ⟨hs, .inr ⟨rfl, rfl⟩⟩) fun _ => goes_pure _

theorem takesRound_port (s : CDesign) (hs : Sound s.pre) : Total (portRound exits ()) s (TakesRound s) := by
  refine takesRound_next (fun t => Goes.ite (goes_error _) ?_) (fun s₁ hs₁ => ?_) hs
  · refine goes_get.bind fun s => (goes_signalMapInsert _).bind fun _ => takes_getNextToken.goes.bind fun t => ?_
    exact Goes.ite (goes_error _) (Goes.ite (goes_pure _) (goes_pure _))
  · rw [if_pos (by decide)]
    exact error_inr hs₁ false

/-- A loop goes on only where there is another token. -/
theorem untilEof_total (hs : Sound s'.pre) (hlater : Later s s') (hnext : s'.token ≠ .eof → Less s' s) (a : α) (b : β) :
    Total (untilEof a b) s' (TakesRound s) := by
  refine Total.get_bind (Total.ite (fun _ => Total.pure ⟨hs, hlater⟩) fun ht => Total.pure ⟨hs, hnext ht⟩)

/-- After an error there is a token, or the end of the file. -/
theorem skipStatementNext_total (hs : Sound s.pre) : Total (skipStatementNext exits) s fun _ s' =>
    Sound s'.pre ∧ Later s s' ∧ (s'.token ≠ .eof → Less s' s) := by
  refine (takes_skipStatement s hs).bind fun _ s₁ h₁ => (getNextToken_total h₁.1).bind fun t s₂ h₂ => Total.pure ?_
  refine ⟨h₂.sound, h₁.2.trans h₂.later, fun ht => ?_⟩
  rw [h₂.token] at ht
  exact (h₂.more ht).of_later h₁.2

/-- A statement that begins with a name. -/
theorem statement_total {s₀ : CDesign} {string : Str} (hs : Sound s.pre) (hless : Less s s₀) (hroom : Room s₀ s)
    (hstring : s.string = string) : Total (statement exits string) s fun _ s' => Sound s'.pre ∧ Less s' s₀ := by
  have htakes {p : Parser Unit} (hp : Takes p) : Total p s fun _ s' => Sound s'.pre ∧ Less s' s₀ :=
    (hp s hs).mono fun _ _ h => ⟨h.1, hless.upto (.inl h.2)⟩
  refine Total.ite (fun _ => htakes (takes_skipTo _)) fun _ => Total.ite (fun _ => htakes takes_parseDefparam) fun _ =>
    Total.ite (fun hifdef => ?_) fun _ => Total.ite (fun _ => htakes takes_parseSynthesis) fun _ =>
      htakes takes_skipStatement
  refine (parseIfdef_total hs).mono fun _ s' h => ⟨h.1, hless.1, h.2.imp_right fun hle => ?_⟩
  -- the keyword alone is longer than what `GetLineBuf` leaves
  have hlen : s.string.length = 5 := by
    rw [hstring, hifdef]
    rfl
  have hlt : padded s < place s₀ := by
    refine Prod.Lex.toLex_lt_toLex.2 (hroom.imp_right fun h => ⟨h.1, ?_⟩)
    have hroom := h.2
    dsimp only
    omega
  exact lt_of_le_of_lt (place_le_padded s') (lt_of_le_of_lt hle hlt)

theorem takesRound_statement (bEndOfSignals : Bool) (s : CDesign) (hs : Sound s.pre) :
    Total (statementRound exits bEndOfSignals) s (TakesRound s) := by
  refine (getNextToken_total hs).bind fun t s₁ h₁ => Total.get_bind (Total.ite (fun ht => ?_) fun ht => ?_)
  · refine (skipStatementNext_total h₁.sound).bind fun _ s₂ h₂ => untilEof_total h₂.1 (h₁.later.trans h₂.2.1) ?_ _ _
    exact fun ht => (h₂.2.2 ht).of_later h₁.later
  · have hident : t = .ident := not_not.1 ht
    have hless : Less s₁ s := h₁.more (by rw [hident]; decide)
    have hgoes {p : Parser (Bool ⊕ Unit)} (hp : Goes p) : Total p s₁ (TakesRound s) :=
      takesRound_of_goes hp h₁.sound hless
    refine Total.ite (fun _ => ?_) fun _ => Total.ite (fun _ => ?_) fun _ => ?_
    · exact hgoes (goes_parseMsg.bind fun _ => takes_parseSignal.goes.bind fun _ => goes_untilEof _ _)
    · refine (statement_total h₁.sound hless (h₁.ident hident) rfl).bind fun _ s₂ h₂ => ?_
      exact takesRound_of_goes (goes_untilEof _ _) h₂.1 h₂.2
    · cases s₁.findModule s₁.string with
      | some m =>
        refine hgoes (goes_parseMsg.bind fun _ => ?_)
        exact (takes_parseModuleInst _).goes.bind fun _ => goes_untilEof _ _
      | none =>
        refine Total.ite (fun _ => hgoes ?_) fun _ => hgoes (takes_skipStatement.goes.bind fun _ => goes_untilEof _ _)
        refine takes_getNextToken.goes.bind fun _ => Goes.bind (fun _ hs => ?_) fun _ => goes_pure _
        exact Total.modify ⟨hs, .inr ⟨rfl, rfl⟩⟩

theorem takes_statements : Takes (statements exits) := takes_loop takesRound_statement false

/-! ## Modules that are skipped -/

/-- An identifier `endmodule` is among the tokens that are still to come, or the program ends before one. -/
inductive EndmoduleAhead (exits : CDesign → Bool) : CDesign → Prop
  | here {s s' : CDesign} (h : Ends (getNextToken exits) s (some (.ident, s'))) (hs : s'.string = "endmodule".toList) :
    EndmoduleAhead exits s
  | later {s s' : CDesign} {t : EToken} (h : Ends (getNextToken exits) s (some (t, s')))
    (hs : EndmoduleAhead exits s') : EndmoduleAhead exits s
  | stops {s : CDesign} (h : Ends (getNextToken exits) s none) : EndmoduleAhead exits s

theorem Ended.not_ahead (h : Ended s) : ¬ EndmoduleAhead exits s := by
  intro hahead
  induction hahead with
  | here htoken _ => cases htoken.unique (getNextToken_ended h)
  | later htoken _ ih =>
    cases htoken.unique (getNextToken_ended h)
    exact ih (ended_last _)
  | stops htoken => cases htoken.unique (getNextToken_ended h)

/-- **A module that is skipped** ends where its `endmodule` does. -/
theorem skipModule_total (hs : Sound s.pre) (hahead : EndmoduleAhead exits s) :
    Total (skipModule exits) s fun _ s' => Sound s'.pre ∧ Less s' s := by
  refine Total.loop less_wf (fun _ s₁ => Sound s₁.pre ∧ (s₁ = s ∨ Less s₁ s) ∧ EndmoduleAhead exits s₁)
    (fun _ s₁ hI => ?_) ⟨hs, .inl rfl, hahead⟩
  obtain ⟨hs₁, hbelow, hahead⟩ := hI
  have hrest {s₂ : CDesign} (h : Less s₂ s₁) : Less s₂ s := by
    rcases hbelow with rfl | hbelow
    · exact h
    · exact h.trans hbelow
  -- the token that is read, and the state that the condition speaks of
  have htoken : Total (getNextToken exits) s₁ fun t s₂ =>
      t = .ident ∧ s₂.string = "endmodule".toList ∨ EndmoduleAhead exits s₂ := by
    cases hahead with
    | here h hs =>
      refine ⟨_, h, ?_⟩
      rintro _ _ ⟨⟩
      exact .inl ⟨rfl, hs⟩
    | later h hs =>
      refine ⟨_, h, ?_⟩
      rintro _ _ ⟨⟩
      exact .inr hs
    | stops h =>
      refine ⟨_, h, ?_⟩
      rintro _ _ ⟨⟩
  refine ((getNextToken_total hs₁).and htoken).bind fun t s₂ h₂ => Total.get_bind ?_
  obtain ⟨h₂, hahead₂⟩ := h₂
  have hless : Less s₂ s₁ := by
    refine h₂.more fun ht => ?_
    rcases hahead₂ with ⟨hident, -⟩ | hahead₂
    · rw [ht] at hident
      cases hident
    · exact (h₂.eof ht).not_ahead hahead₂
  refine Total.ite (fun hne => Total.pure ?_) fun _ => Total.pure ⟨h₂.sound, hrest hless⟩
  refine ⟨⟨h₂.sound, .inr (hrest hless), ?_⟩, hless⟩
  refine hahead₂.resolve_left fun hend => ?_
  exact hne.elim (fun h => h hend.1) fun h => h hend.2

/-- **Without an `endmodule`** the loop reads the end of the file again and again. -/
theorem skipModule_hangs (hs : Sound s.pre) (hahead : ¬ EndmoduleAhead exits s) :
    HangsRounds (skipModuleRound exits) () s := by
  have hround {t : EToken} {s₁ s₂ : CDesign} (htoken : Ends (getNextToken exits) s₁ (some (t, s₂)))
      (hne : t ≠ .ident ∨ s₂.string ≠ "endmodule".toList) :
      Ends (skipModuleRound exits ()) s₁ (some (.inl (), s₂)) := by
    refine htoken.bind (Ends.get_bind ?_)
    rw [if_pos hne]
    exact Ends.pure _ _
  have hended {s₁ : CDesign} (h : Ended s₁) : HangsRounds (skipModuleRound exits) () s₁ := by
    have hne : EToken.eof ≠ .ident ∨ (last s₁).string ≠ "endmodule".toList := .inl (by decide)
    exact HangsRounds.of_step (hround (getNextToken_ended h) hne)
      (hangsRounds_of_same (hround (getNextToken_ended (ended_last s₁)) hne))
  induction s using less_wf.induction with
  | _ s ih =>
    by_cases h : Ended s
    · exact hended h
    · have htotal : Total (getNextToken exits) s (NextToken s) := getNextToken_total hs
      obtain ⟨r, hr, htoken⟩ := htotal
      cases r with
      | none => exact absurd (.stops hr) hahead
      | some x =>
        obtain ⟨t, s₁⟩ := x
        have htoken := htoken t s₁ rfl
        have hne : t ≠ .ident ∨ s₁.string ≠ "endmodule".toList := by
          by_cases ht : t = .ident
          · subst ht
            exact .inr fun hstring => hahead (.here hr hstring)
          · exact .inl ht
        have hless : Less s₁ s := htoken.later.resolve_right fun hended => h hended.1
        exact HangsRounds.of_step (hround hr hne) (ih s₁ hless htoken.sound fun hlater => hahead (.later hr hlater))

/-! ## The file -/

theorem moduleName_total (hs : Sound s.pre) : Total (moduleName exits) s fun b s' =>
    Sound s'.pre ∧ Later s s' ∧ (b = false → Less s' s) := by
  refine (getNextToken_total hs).bind fun t s₁ h₁ => Total.get_bind (Total.ite (fun _ => ?_) fun ht => ?_)
  · refine (goes_parseMsg s₁ h₁.sound).bind fun _ s₂ h₂ => Total.pure ⟨h₂.1, h₁.later.upto h₂.2, ?_⟩
    intro htrue
    cases htrue
  · have hless : Less s₁ s := h₁.more (by rw [not_not.1 ht]; decide)
    have hgoes {p : Parser Bool} (hp : Goes p) : Total p s₁ fun b s' =>
        Sound s'.pre ∧ Later s s' ∧ (b = false → Less s' s) :=
      (hp s₁ h₁.sound).mono fun b s₂ h₂ => ⟨h₂.1, h₁.later.upto h₂.2, fun _ => hless.upto h₂.2⟩
    exact Total.ite (fun _ => hgoes (goes_pure _)) fun _ => hgoes ((goes_moduleMapInsert _).bind fun _ => goes_pure _)

/-- **`ParseModule`** ends, if an `endmodule` is ahead of a module that is skipped. -/
theorem parseModule_total (hs : Sound s.pre)
    (hahead : ∀ s₁, Ends (moduleName exits) s (some (true, s₁)) → EndmoduleAhead exits s₁) :
    Total (parseModule exits) s fun _ s' => Sound s'.pre ∧ Less s' s := by
  have hnext : Goes (getNextToken exits) := takes_getNextToken.goes
  have hstatements : Goes (statements exits) := takes_statements.goes
  refine (moduleName_total hs).ends.bind fun b s₁ h₁ => ?_
  obtain ⟨⟨hs₁, hlater, hless⟩, hends⟩ := h₁
  cases b with
  | true =>
    rw [if_pos rfl]
    refine (skipModule_total hs₁ (hahead s₁ hends)).bind fun _ s₂ h₂ => ?_
    refine (hnext.bind (fun _ => goes_pure _) s₂ h₂.1).mono fun _ s₃ h₃ => ⟨h₃.1, ?_⟩
    exact (h₂.2.of_later hlater).upto h₃.2
  | false =>
    rw [if_neg Bool.false_ne_true]
    have hrest : Goes (do
        let t ← getNextToken exits
        if t ≠ .lparen then
          skipStatement exits
          statements exits
        else if ← loop (portRound exits) () then
          let t ← getNextToken exits
          if t ≠ .semicolon then
            parseMsg exits
            statements exits
          else statements exits
        else return ()) := by
      refine hnext.bind fun t => Goes.ite (takes_skipStatement.goes.bind fun _ => hstatements) ?_
      refine (takes_loop (fun _ => takesRound_port) ()).goes.bind fun b => Goes.ite ?_ (goes_pure _)
      refine hnext.bind fun t => ?_
      exact Goes.ite (goes_parseMsg.bind fun _ => hstatements) hstatements
    exact (hrest s₁ hs₁).mono fun _ s₂ h₂ => ⟨h₂.1, (hless rfl).upto h₂.2⟩

/-- A state in which `Parse` begins a round of its loop. -/
inductive Reaches (exits : CDesign → Bool) (s₀ : CDesign) : CDesign → Prop
  | first {s s' : CDesign} {b : Bool} {t : EToken} (h : Ends (getLine exits) s₀ (some (b, s)))
    (h' : Ends (getNextToken exits) s (some (t, s'))) : Reaches exits s₀ s'
  | round {s s' : CDesign} (h : Reaches exits s₀ s) (h' : Ends (parseRound exits ()) s (some (.inl (), s'))) :
    Reaches exits s₀ s'

/-- **An `endmodule` is ahead** of each module without a new name that `Parse` comes to. -/
def ModulesClosed (exits : CDesign → Bool) (s₀ : CDesign) : Prop :=
  ∀ s, Reaches exits s₀ s → s.AtModule → ∀ s₁, Ends (moduleName exits) s (some (true, s₁)) → EndmoduleAhead exits s₁

theorem parseRound_total (hs : Sound s.pre)
    (hahead : s.AtModule → ∀ s₁, Ends (moduleName exits) s (some (true, s₁)) → EndmoduleAhead exits s₁) :
    Total (parseRound exits ()) s fun o s' => Sound s'.pre ∧ o.elim (fun _ => Less s' s) fun _ => True := by
  have hround {p : Parser (Unit ⊕ Unit)} {s₁ : CDesign} (h : Total p s₁ (TakesRound s)) :
      Total p s₁ fun o s' => Sound s'.pre ∧ o.elim (fun _ => Less s' s) fun _ => True :=
    h.mono fun o s₂ h₂ => ⟨h₂.1, by
      rcases o with _ | _
      · exact h₂.2
      · trivial⟩
  refine Total.get_bind (Total.ite (fun _ => Total.pure ⟨hs, trivial⟩) fun _ => ?_)
  refine Total.ite (fun hmodule => ?_) fun _ => ?_
  · refine (parseModule_total hs (hahead hmodule)).bind fun _ s₁ h₁ => hround ?_
    exact untilEof_total h₁.1 (.inl h₁.2) (fun _ => h₁.2) _ _
  · exact (skipStatementNext_total hs).bind fun _ s₁ h₁ => hround (untilEof_total h₁.1 h₁.2.1 h₁.2.2 _ _)

theorem sound_open (file : Str) : Sound (.openFile file) :=
  ⟨Nat.le_refl _, fun _ => rfl, fun h => absurd rfl h⟩

/-- A module that is skipped without an `endmodule`. -/
theorem parseRound_hangs {s₁ : CDesign} (hs₁ : Sound s₁.pre) (hmodule : s.AtModule)
    (hname : Ends (moduleName exits) s (some (true, s₁))) (hahead : ¬ EndmoduleAhead exits s₁) :
    Hangs (parseRound exits ()) s := by
  have heof : s.token ≠ .eof := by
    rw [hmodule.1]
    decide
  have hparse : Hangs (parseModule exits) s := by
    refine Hangs.of_bind hname ?_
    rw [if_pos rfl]
    exact (skipModule_hangs hs₁ hahead).hangs.bind
  refine Hangs.of_bind (Fuel.Returns.const _) ?_
  rw [if_neg heof, if_pos hmodule]
  exact hparse.bind

/-- What comes back from the name of a module. -/
theorem sound_of_moduleName {b : Bool} {s₁ : CDesign} (hs : Sound s.pre)
    (hname : Ends (moduleName exits) s (some (b, s₁))) : Sound s₁.pre := by
  have htotal := moduleName_total hs |>.of_ends hname
  exact htotal.1

theorem reaches_sound {s₀ : CDesign} (hs₀ : Sound s₀.pre) (h : Reaches exits s₀ s) : Sound s.pre := by
  induction h with
  | first hline htoken =>
    have hs₁ := (getLine_total hs₀).of_ends hline
    have hs₂ := (getNextToken_total hs₁.sound).of_ends htoken
    exact hs₂.sound
  | @round s s' _ hround ih =>
    have hahead : s.AtModule → ∀ s₁, Ends (moduleName exits) s (some (true, s₁)) → EndmoduleAhead exits s₁ :=
      fun hmodule s₁ hname => not_not.1 fun hahead =>
        hround.not_hangs (parseRound_hangs (sound_of_moduleName ih hname) hmodule hname hahead)
    exact ((parseRound_total ih hahead).of_ends hround).1

/-- The loop over a file that ends does so from each state that it comes to. -/
theorem Reaches.ends {s₀ : CDesign} {r : Option (Unit × CDesign)} (h : Reaches exits s₀ s)
    (hr : Ends (parseFile exits) s₀ r) : Ends (loop (parseRound exits) ()) s r := by
  induction h with
  | first hline htoken => exact htoken.of_bind (hline.of_bind hr)
  | round _ hround ih => exact hround.loop_step ih

theorem modulesClosed_of_ends {s₀ : CDesign} (hs₀ : Sound s₀.pre) {r : Option (Unit × CDesign)}
    (hr : Ends (parseFile exits) s₀ r) : ModulesClosed exits s₀ := by
  intro s hreach hmodule s₁ hname
  refine not_not.1 fun hahead => (hreach.ends hr).not_hangs_round ?_
  exact parseRound_hangs (sound_of_moduleName (reaches_sound hs₀ hreach) hname) hmodule hname hahead

theorem parseFile_total {s₀ : CDesign} (hs₀ : Sound s₀.pre) (hclosed : ModulesClosed exits s₀) :
    Total (parseFile exits) s₀ fun _ _ => True := by
  refine (getLine_total hs₀).ends.bind fun b s₁ h₁ => (getNextToken_total h₁.1.sound).ends.bind fun t s₂ h₂ => ?_
  refine Total.loop less_wf (fun _ s => Sound s.pre ∧ Reaches exits s₀ s) (fun _ s hI => ?_)
    ⟨h₂.1.sound, .first h₁.2 h₂.2⟩
  refine (parseRound_total hI.1 (hclosed s hI.2)).ends.mono fun o s' h' => ?_
  rcases o with _ | _
  · exact ⟨⟨h'.1.1, .round hI.2 h'.2⟩, h'.1.2⟩
  · trivial

/-- **`Parse` ends** for a file exactly if an `endmodule` is ahead of each module that it skips. -/
theorem parseFile_ends_iff (exits : CDesign → Bool) (file buf : Str) (prims : List CModule) :
    (∃ r, Ends (parseFile exits) (openDesign file buf prims) r) ↔ ModulesClosed exits (openDesign file buf prims) := by
  have hsound : Sound (openDesign file buf prims).pre := sound_open file
  constructor
  · rintro ⟨r, hr⟩
    exact modulesClosed_of_ends hsound hr
  · intro hclosed
    obtain ⟨r, hr, -⟩ := parseFile_total hsound hclosed
    exact ⟨r, hr⟩

/-- No messages are too many. -/
def noExit (_ : CDesign) : Bool := false

/-- A file that ends behind a keyword. -/
def truncated : Str := "module".toList

/-- After its first line. -/
def truncatedLine : CDesign :=
  { putLine (openDesign truncated [] []) { CPreProcess.openFile truncated with fp := [] } truncated with messages := 1 }

/-- After its only token. -/
def truncatedModule : CDesign := { truncatedLine with line := [nul], token := .ident, string := truncated }

theorem truncated_line : Ends (getLine noExit) (openDesign truncated [] []) (some (true, truncatedLine)) := by
  refine ⟨2, fun n hn => ?_⟩
  obtain ⟨k, rfl⟩ : ∃ k, n = k + 2 := ⟨n - 2, by omega⟩
  rfl

theorem truncated_token : Ends (getNextToken noExit) truncatedLine (some (.ident, truncatedModule)) := by
  refine ⟨3, fun n hn => ?_⟩
  obtain ⟨k, rfl⟩ : ∃ k, n = k + 3 := ⟨n - 3, by omega⟩
  rfl

theorem truncated_hangs : ¬ ∀ (exits : CDesign → Bool) (file buf : Str) (prims : List CModule),
    ∃ r, Ends (parseFile exits) (openDesign file buf prims) r := by
  intro h
  obtain ⟨r, hr⟩ := h noExit truncated [] []
  have hclosed := modulesClosed_of_ends (sound_open truncated) hr
  have hreach : Reaches noExit (openDesign truncated [] []) truncatedModule := .first truncated_line truncated_token
  have hended : Ended truncatedModule := ⟨rfl, rfl, rfl⟩
  have hname : Ends (moduleName noExit) truncatedModule
      (some (true, { last truncatedModule with messages := 2 })) := by
    refine (getNextToken_ended hended).bind (Ends.get_bind ?_)
    rw [if_pos (by decide)]
    exact Ends.bind (Ends.modify_bind (Ends.get_bind (Ends.pure _ _))) (Ends.pure _ _)
  have hlast : Ended { last truncatedModule with messages := 2 } := ⟨rfl, rfl, rfl⟩
  exact hlast.not_ahead (hclosed truncatedModule hreach ⟨rfl, rfl⟩ _ hname)

end OpenHT.Vex.Lex
