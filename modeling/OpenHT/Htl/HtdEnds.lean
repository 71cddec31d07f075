import OpenHT.Htl.HtdParse
import OpenHT.Lib.Trace

/-!
# The parser of HTD files and the end of the file

Every round of a loop reads on or leaves the loop, but for two: an open bracket that is not closed on its line is
looked at again and again, and so is a typedef that leads back to itself.

* `Stuck`: these two.
* `turn_progress`: all other rounds make progress.
* `load_htd_file_ends_iff`: the parser comes to an end exactly when it is never stuck.
-/

namespace OpenHT.Htl.HtdFile

open Trace

/-! ## What the parsers read -/

namespace Parser

variable {p : Parser}

/-- What is left to read. -/
def size (p : Parser) : ℕ := p.lex.size

/-- The parser has read on, or nothing. -/
def Le (p p' : Parser) : Prop := p'.size ≤ p.size

/-- The parser has read on. -/
def Lt (p p' : Parser) : Prop := p'.size < p.size

theorem getNextTk_le : Out (fun r => p.Le r.2) p.getNextTk := Lex.getNextTk_le.map fun _ h => h

theorem getNextTk_lt (h : p.tk ≠ .eof) : Out (fun r => p.Lt r.2) p.getNextTk := (Lex.getNextTk_size h).map fun _ h => h

theorem next_le : Out p.Le p.next := Lex.next_le.map fun _ h => h

theorem next_lt (h : p.tk ≠ .eof) : Out p.Lt p.next := (Lex.next_size h).map fun _ h => h

theorem skipTo_le (tk : EToken) : Out p.Le (p.skipTo tk) := (Lex.skipTo_le tk).map fun _ h => h

theorem errorSkip_le (msg : String) : Out p.Le (p.errorSkip msg) := (Lex.errorSkip_le msg).map fun _ h => h

theorem errorSkip_lt (msg : String) (h : p.tk ≠ .eof) : Out p.Lt (p.errorSkip msg) :=
  (Lex.errorSkip_size msg h).map fun _ h => h

theorem ne_eof {tk : EToken} (h : p.tk = tk) (htk : tk ≠ .eof) : p.tk ≠ .eof := by
  rw [h]
  exact htk

theorem skipToSemi_le : Out p.Le p.skipToSemi := by
  unfold skipToSemi
  split
  · exact skipTo_le (p := p.parseMsg "expected ';'") .semi
  · exact Nat.le_refl _

theorem endSemi_le : Out p.Le p.endSemi :=
  skipToSemi_le.bind fun _ h => next_le.mono fun _ h' => Nat.le_trans h' h

end Parser

namespace TypeScan

variable {p : Parser} {s : TypeScan}

theorem fail_lt (msg : String) (h : p.tk ≠ .eof) : Out (fun r => p.Lt r.2.2) (s.fail p msg) :=
  (Parser.errorSkip_lt msg h).map fun _ h => h

theorem builtin_lt (name : String) (idx : ℕ) (width : Int) (signed : Bool) (h : p.tk ≠ .eof) :
    Out (fun r => p.Lt r.2.2) (s.builtin p name idx width signed) := by
  unfold builtin
  split
  · exact fail_lt _ h
  · dsimp only
    split
    · exact (Parser.next_lt h).map fun _ h => h
    · split
      · exact fail_lt _ h
      · exact (Parser.next_lt h).map fun _ h => h

/-- Every word is read, but for one behind the type, which ends the loop. -/
theorem turn_lt (h : p.tk ≠ .eof) :
    Out (fun r => p.Lt r.2.2 ∨ r.1 = false ∧ r.2.2 = p ∧ ¬(s.typeStr = "" ∧ !s.bType)) (s.turn p) := by
  have hlt : ∀ {x : Except Stop (Bool × TypeScan × Parser)}, Out (fun r => p.Lt r.2.2) x →
      Out (fun r => p.Lt r.2.2 ∨ r.1 = false ∧ r.2.2 = p ∧ ¬(s.typeStr = "" ∧ !s.bType)) x :=
    fun hx => hx.mono fun _ => Or.inl
  unfold turn
  dsimp only
  split
  · apply hlt
    split
    · exact fail_lt _ h
    · exact (Parser.next_lt h).map fun _ h => h
  · split
    · exact hlt (builtin_lt _ _ _ _ h)
    · split
      · apply hlt
        split
        · exact fail_lt _ h
        · refine (Parser.getNextTk_lt h).bind fun r hr => ?_
          split
          · exact Parser.next_le.map fun _ hle => Nat.lt_of_le_of_lt hle hr
          · exact hr
      · split
        · exact hlt ((Parser.next_lt h).map fun _ h => h)
        next hlast => exact Or.inr ⟨rfl, rfl, hlast⟩

theorem loop_le (n : ℕ) : Out (fun r => p.Le r.2) (loop n s p) := by
  induction n generalizing s p with
  | zero => exact Nat.le_refl _
  | succ n ih =>
    unfold loop
    split
    next h =>
      refine (turn_lt (Parser.ne_eof h (by decide))).bind fun r hr => ?_
      have hle : p.Le r.2.2 := by
        rcases hr with hlt | ⟨-, heq, -⟩
        · exact Nat.le_of_lt hlt
        · rw [heq]
          exact Nat.le_refl _
      dsimp only
      split
      · exact ih.mono fun _ h' => Nat.le_trans h' hle
      · exact hle
    · exact Nat.le_refl _

/-- The first word is read. -/
theorem loop_lt (n : ℕ) (h : p.tk = .ident) (hs : s.typeStr = "" ∧ !s.bType) :
    Out (fun r => p.Lt r.2) (loop (n + 1) s p) := by
  unfold loop
  rw [if_pos h]
  refine (turn_lt (Parser.ne_eof h (by decide))).bind fun r hr => ?_
  have hlt := hr.resolve_right fun hr => hr.2.2 hs
  dsimp only
  split
  · exact (loop_le n).mono fun _ h' => Nat.lt_of_le_of_lt h' hlt
  · exact hlt

/-- More rounds than there are words change nothing. -/
theorem loop_enough {n m : ℕ} (hn : p.size < n) (hm : p.size < m) : loop n s p = loop m s p := by
  induction n generalizing s p m with
  | zero => omega
  | succ n ih =>
    obtain ⟨m, rfl⟩ : ∃ k, m = k + 1 := ⟨m - 1, by omega⟩
    unfold loop
    by_cases h : p.tk = .ident
    · rw [if_pos h, if_pos h]
      have hturn := turn_lt (s := s) (Parser.ne_eof h (by decide))
      cases hx : s.turn p with
      | error e => rfl
      | ok r =>
        have hr := hturn.of_ok hx
        change (if r.1 = true then _ else _) = if r.1 = true then _ else _
        by_cases hgo : r.1 = true
        · have hlt : r.2.2.size < p.size := hr.resolve_right fun hr => by
            rw [hgo] at hr
            exact Bool.noConfusion hr.1
          rw [if_pos hgo, if_pos hgo]
          exact ih (Nat.lt_of_lt_of_le hlt (Nat.le_of_lt_succ hn)) (Nat.lt_of_lt_of_le hlt (Nat.le_of_lt_succ hm))
        · rw [if_neg hgo, if_neg hgo]
    · rw [if_neg h, if_neg h]

end TypeScan

namespace Parser

variable {p : Parser}

/-- **The loop of `ParseType`** over the words of a type. -/
theorem typeLoop_eq (s : TypeScan) (p : Parser) : TypeScan.loop (p.size + 1) s p =
    if p.tk = .ident then s.turn p >>= fun r =>
      if r.1 then TypeScan.loop (r.2.2.size + 1) r.2.1 r.2.2 else .ok r.2
    else .ok (s, p) := by
  rw [TypeScan.loop]
  by_cases h : p.tk = .ident
  · rw [if_pos h, if_pos h]
    cases hx : s.turn p with
    | error e => rfl
    | ok r =>
      have hr := (TypeScan.turn_lt (Parser.ne_eof h (by decide))).of_ok hx
      change (if r.1 = true then _ else _) = if r.1 = true then _ else _
      by_cases hgo : r.1 = true
      · have hlt : r.2.2.size < p.size := hr.resolve_right fun hr => by
          rw [hgo] at hr
          exact Bool.noConfusion hr.1
        rw [if_pos hgo, if_pos hgo]
        exact TypeScan.loop_enough hlt (Nat.lt_succ_self _)
      · rw [if_neg hgo, if_neg hgo]
  · rw [if_neg h, if_neg h]

theorem typeError_le (t : ParsedType) (msg : String) : Out (fun r => p.Le r.2) (p.typeError t msg) :=
  (errorSkip_le msg).map fun _ h => h

theorem typeError_lt (t : ParsedType) (msg : String) (h : p.tk ≠ .eof) : Out (fun r => p.Lt r.2) (p.typeError t msg) :=
  (errorSkip_lt msg h).map fun _ h => h

theorem templateArg_length (n : Int) (cs : Text) : (templateArg n cs).2.1.length ≤ cs.length := by
  induction cs generalizing n with
  | nil => exact Nat.le_refl _
  | cons c cs ih =>
    unfold templateArg
    split
    · exact Nat.le_refl _
    · exact Nat.le_succ_of_le (ih _)

theorem parseTemplate_lt (name : String) (t : ParsedType) (h : p.tk ≠ .eof) :
    Out (fun r => p.Lt r.2) (p.parseTemplate name t) := by
  unfold parseTemplate
  refine (getNextTk_lt h).bind fun r hr => ?_
  have herr : ∀ msg, Out (fun r' => p.Lt r'.2) (r.2.typeError t msg) := fun msg =>
    (typeError_le t msg).mono fun _ hle => Nat.lt_of_le_of_lt hle hr
  dsimp only
  split
  · exact herr _
  · split
    · trivial
    · split
      · exact herr _
      · split
        next rest heq =>
          have hlen := templateArg_length 0 r.2.lex.line
          rw [heq, List.length_cons] at hlen
          refine next_le.map fun p' hle => Nat.lt_of_le_of_lt (Nat.le_trans hle ?_) hr
          exact Nat.add_le_add_right (Nat.add_le_add_right (Nat.le_of_succ_le hlen) _) _
        · exact herr _

theorem parseHtType_lt (name pre : String) (t : ParsedType) (h : p.tk ≠ .eof) :
    Out (fun r => p.Lt r.2) (p.parseHtType name pre t) := by
  unfold parseHtType
  split
  · exact (next_lt h).map fun _ h => h
  · exact typeError_lt _ _ h

theorem parseBuiltin_lt (h : p.tk = .ident) : Out (fun r => p.Lt r.2) p.parseBuiltin := by
  unfold parseBuiltin
  refine (TypeScan.loop_lt _ h ⟨rfl, rfl⟩).bind fun r hr => ?_
  dsimp only
  split
  · exact hr
  · split
    · exact (typeError_le _ _).mono fun _ hle => Nat.lt_of_le_of_lt hle hr
    · split
      · exact hr
      · change Parser.Lt p (if _ then _ else _)
        split
        · exact hr
        · exact hr

/-- A type has at least one word. -/
theorem parseType_lt (h : p.tk = .ident) : Out (fun r => p.Lt r.2) p.parseType := by
  have hne := ne_eof h (by decide)
  unfold parseType
  dsimp only
  split
  · exact typeError_lt _ _ hne
  · split
    · refine (getNextTk_lt hne).bind fun r hr => ?_
      split
      · exact (typeError_le _ _).mono fun _ hle => Nat.lt_of_le_of_lt hle hr
      · exact next_le.map fun _ hle => Nat.lt_of_le_of_lt hle hr
    · split
      · exact (next_lt hne).map fun _ h => h
      · split
        · exact parseTemplate_lt _ _ hne
        · split
          · exact parseHtType_lt _ _ _ hne
          · split
            · exact parseHtType_lt _ _ _ hne
            · exact parseBuiltin_lt h

theorem parseType_le : Out (fun r => p.Le r.2) p.parseType := by
  by_cases h : p.tk = .ident
  · exact (parseType_lt h).mono fun _ hlt => Nat.le_of_lt hlt
  · unfold parseType
    rw [if_pos h]
    exact typeError_le _ _

/-! ## What a round of a loop reads -/

theorem parseTypedef_lt (h : p.tk ≠ .eof) : Out p.Lt p.parseTypedef := by
  unfold parseTypedef
  refine (next_lt h).bind fun p₁ h₁ => parseType_le.bind fun r hr => ?_
  have hlt : p.Lt r.2 := Nat.lt_of_le_of_lt hr h₁
  have hle : ∀ {p'}, r.2.Le p' → p.Lt p' := fun hle => Nat.lt_of_le_of_lt hle hlt
  dsimp only
  split
  · exact hlt
  · split
    · exact (errorSkip_le _).mono fun _ => hle
    · let p₂ : Parser := { r.2 with typedefList := r.2.typedefList ++ [(r.2.string, r.1.type)] }
      refine (getNextTk_le (p := p₂)).bind fun r' hr' => ?_
      have hlt' : p.Lt r'.2 := hle hr'
      split
      · exact (errorSkip_le _).mono fun _ hle => Nat.lt_of_le_of_lt hle hlt'
      · exact next_le.mono fun _ hle => Nat.lt_of_le_of_lt hle hlt'

theorem parseRecord_lt (h : p.tk ≠ .eof) : Out (fun r => p.Lt r.2) p.parseRecord := by
  unfold parseRecord
  refine (getNextTk_lt h).bind fun r hr => ?_
  dsimp only
  split
  · exact (errorSkip_le _).map fun _ hle => Nat.lt_of_le_of_lt hle hr
  · split
    · exact (errorSkip_le _).map fun _ hle => Nat.lt_of_le_of_lt hle hr
    · refine getNextTk_le.bind fun r' hr' => ?_
      have hlt : p.Lt r'.2 := Nat.lt_of_le_of_lt hr' hr
      split
      · exact next_le.map fun _ hle => Nat.lt_of_le_of_lt hle hlt
      · split
        · exact (errorSkip_le _).map fun _ hle => Nat.lt_of_le_of_lt hle hlt
        · exact next_le.map fun _ hle => Nat.lt_of_le_of_lt hle hlt

/-- A closed bracket is left behind. -/
theorem parseArrayDimen_lt (h : p.tk ≠ .eof) (hclosed : ']' ∈ p.lex.line) :
    Out (fun r => p.Lt r.2) p.parseArrayDimen := by
  unfold parseArrayDimen
  rw [if_neg fun hn => hn hclosed]
  let p₁ : Parser :=
    { p with lex := { p.lex with line := p.lex.line.drop (p.lex.line.takeWhile (· != ']')).length } }
  have hsize : p₁.size ≤ p.size := by
    refine Nat.add_le_add_right (Nat.add_le_add_right ?_ _) _
    rw [List.length_drop]
    exact Nat.sub_le _ _
  refine (next_lt (p := p₁) h).bind fun p₂ h₂ => next_le.map fun p₃ h₃ => ?_
  exact Nat.lt_of_le_of_lt h₃ (Nat.lt_of_lt_of_le h₂ hsize)

theorem fieldPragma_read : Out (fun r => p.Lt r.2 ∨ r = (some none, p)) p.fieldPragma := by
  unfold fieldPragma
  dsimp only
  split
  · exact Or.inr rfl
  next hp =>
    have hpound : p.tk = .pound := Decidable.byContradiction hp
    refine (getNextTk_lt (ne_eof hpound (by decide))).bind fun r hr => ?_
    have hbad : ∀ {p' : Parser} {msg}, p.Lt p' → Out (fun r => p.Lt r.2 ∨ r = (some none, p))
        ((p'.errorSkip msg).map fun p => ((none : Option (Option Pragma)), p)) := fun hlt =>
      (errorSkip_le _).map fun _ hle => Or.inl (Nat.lt_of_le_of_lt hle hlt)
    split
    · exact Or.inl hr
    · refine getNextTk_le.bind fun r₁ hr₁ => ?_
      have h₁ : p.Lt r₁.2 := Nat.lt_of_le_of_lt hr₁ hr
      split
      · exact hbad h₁
      · refine getNextTk_le.bind fun r₂ hr₂ => ?_
        have h₂ : p.Lt r₂.2 := Nat.lt_of_le_of_lt hr₂ h₁
        split
        · exact hbad h₂
        · refine getNextTk_le.bind fun r₃ hr₃ => ?_
          have h₃ : p.Lt r₃.2 := Nat.lt_of_le_of_lt hr₃ h₂
          split
          · exact hbad h₃
          · exact next_le.map fun _ hle => Or.inl (Nat.lt_of_le_of_lt hle h₃)

theorem recordWord_le : Out p.Le p.recordWord := by
  unfold recordWord
  split
  · exact next_le
  · exact Nat.le_refl _

theorem bitWidth_le (d : Declarator) : Out (fun r => p.Le r.2) (p.bitWidth d) := by
  unfold bitWidth
  split
  · exact Nat.le_refl _
  · split
    · refine (skipTo_le .semi).bind fun p₁ h₁ => next_le.map fun p₂ h₂ => Nat.le_trans h₂ h₁
    · refine (Lex.getExprStr_le ';').bind fun r hr => ?_
      refine (next_le (p := { p with lex := r.2 })).map fun p₂ h₂ => Nat.le_trans h₂ hr

theorem statement_lt (env : Env) (h : p.tk ≠ .eof) : Out p.Lt (p.statement env) := by
  unfold statement
  split
  · split
    · exact next_lt (p := { p with parseMethod := none }) h
    · exact next_lt (p := p.parseMsg "Unexpected ';'") h
  · split
    · exact errorSkip_lt (p := { p with parseMethod := none }) _ h
    · refine (getNextTk_lt h).bind fun r hr => ?_
      dsimp only
      split
      · exact (errorSkip_le (p := { r.2 with parseMethod := none }) _).mono fun _ hle => Nat.lt_of_le_of_lt hle hr
      · have hmethods : Out r.2.Le (env.methods r.2.parseMethod r.2) := by
          cases hx : env.methods r.2.parseMethod r.2 with
          | error e => trivial
          | ok p' => exact env.methods_le _ _ _ hx
        refine hmethods.bind fun p₁ h₁ => ?_
        have hlt : p.Lt p₁ := Nat.lt_of_le_of_lt h₁ hr
        split
        · split
          · exact (next_le (p := { p₁ with parseMethod := none })).mono fun _ hle => Nat.lt_of_le_of_lt hle hlt
          · exact hlt
        · exact endSemi_le.mono fun _ hle => Nat.lt_of_le_of_lt hle hlt

theorem statement_le (env : Env) : Out p.Le (p.statement env) := by
  by_cases h : p.tk = .eof
  · unfold statement
    rw [if_neg (by rw [h]; decide), if_pos (by rw [h]; decide)]
    exact errorSkip_le (p := { p with parseMethod := none }) _
  · exact (statement_lt env h).mono fun _ hlt => Nat.le_of_lt hlt

end Parser

/-! ## Progress -/

/-- How deep in the loops a place is. -/
def Point.rank : Point → ℕ
  | .load => 0
  | .fields => 1
  | .members _ => 2
  | .findType _ _ _ => 3
  | .dimens _ => 4
  | .lexOpen => 5

def State.rank (s : State) : ℕ := s.point.rank + s.saved.length

/-- The parser has read on, or left a loop. -/
def Progress (s s' : State) : Prop :=
  s.parser.Lt s'.parser ∨ s.parser.Le s'.parser ∧ s'.rank < s.rank

/-- Not more is left to read, and the place is at most that deep. -/
def Parser.Reaches (p : Parser) (rank : ℕ) (s : State) : Prop := p.Le s.parser ∧ s.rank ≤ rank

namespace Parser

variable {p : Parser} {saved : List ℕ}

theorem Reaches.mono {p' : Parser} {rank rank' : ℕ} {s : State} (h : p'.Reaches rank s) (hp : p.Le p')
    (hle : rank ≤ rank') : p.Reaches rank' s := ⟨Nat.le_trans h.1 hp, Nat.le_trans h.2 hle⟩

/-- A call of `ParseFieldList` returns to a place less deep. -/
theorem leave_reaches (saved : List ℕ) (p : Parser) : Out (p.Reaches saved.length) (p.leave saved) := by
  induction saved generalizing p with
  | nil => exact ⟨Nat.le_refl _, Nat.le_refl _⟩
  | cons r saved ih =>
    unfold leave
    dsimp only
    split
    · refine (next_le (p := { p with openRecord := r })).bind fun p₁ h₁ => endSemi_le.bind fun p₂ h₂ => ?_
      exact (ih p₂).mono fun s hs => hs.mono (Nat.le_trans h₂ h₁) (Nat.le_succ _)
    · refine ⟨Nat.le_refl _, ?_⟩
      change 1 + saved.length ≤ saved.length + 1
      omega

theorem endFields_reaches : Out (p.Reaches saved.length) (p.endFields saved) :=
  endSemi_le.bind fun p₁ h₁ => (leave_reaches saved p₁).mono fun _ hs => hs.mono h₁ (Nat.le_refl _)

theorem endField_reaches : Out (p.Reaches (saved.length + 1)) (p.endField saved) := by
  unfold endField
  split
  · exact next_le.bind fun p₁ h₁ => endFields_reaches.mono fun _ hs => hs.mono h₁ (Nat.le_succ _)
  · refine ⟨Nat.le_refl _, ?_⟩
    change 1 + saved.length ≤ saved.length + 1
    omega

theorem endMember_reaches (m : Member) :
    Out (fun s => p.Lt s.parser ∨ p.Reaches (saved.length + 1) s) (p.endMember m saved) := by
  unfold endMember
  split
  next h => exact (next_lt (ne_eof h (by decide))).map fun _ h => Or.inl h
  · exact endSemi_le.bind fun p₁ h₁ => endField_reaches.mono fun _ hs => Or.inr (hs.mono h₁ (Nat.le_refl _))

theorem anonymous_le (bUnion : Bool) (pragma : Option Pragma) :
    Out (fun s => p.Le s.parser) (p.anonymous bUnion pragma saved) := by
  unfold anonymous
  have hnext : ∀ p' : Parser, p'.size = p.size → Out p.Le p'.next := fun p' heq =>
    next_le.mono fun _ hle => Nat.le_trans hle (Nat.le_of_eq heq)
  refine (hnext _ ?_).bind fun p₁ h₁ => ?_
  · split <;> rfl
  · change p.Le { (if _ then _ else _ : Parser) with .. }
    split <;> exact h₁

/-- Behind `struct` or `union`, or at the name of a type, at least one token is read. -/
theorem recordWord_read (h : p.tk = .ident) : Out (fun p' => p.Lt p' ∨ p' = p ∧ ¬(p.string = "struct" ∨ p.string = "union"))
    p.recordWord := by
  unfold recordWord
  split
  · exact (next_lt (ne_eof h (by decide))).mono fun _ => Or.inl
  next hw => exact Or.inr ⟨rfl, hw⟩

theorem fieldsTurn_lt (h : p.tk ≠ .eof) : Out (fun s => p.Lt s.parser) (p.fieldsTurn saved) := by
  unfold fieldsTurn
  dsimp only
  rw [if_neg h]
  refine fieldPragma_read.bind fun r hr => ?_
  split
  next hnone =>
    rcases hr with hlt | heq
    · exact hlt
    · rw [heq] at hnone
      cases hnone
  · have hle : p.Le r.2 := by
      rcases hr with hlt | heq
      · exact Nat.le_of_lt hlt
      · rw [heq]
        exact Nat.le_refl _
    split
    · rcases hr with hlt | heq
      · exact (errorSkip_le _).map fun _ hle => Nat.lt_of_le_of_lt hle hlt
      · rw [heq]
        exact (errorSkip_lt _ h).map fun _ h => h
    next hident =>
      have hident' : r.2.tk = .ident := Decidable.byContradiction hident
      refine (recordWord_read hident').bind fun p₂ h₂ => ?_
      split
      next hbrace =>
        have hlt : p.Lt p₂ := by
          rcases h₂ with hlt | ⟨heq, -⟩
          · exact Nat.lt_of_lt_of_le hlt hle
          · rw [heq, hident'] at hbrace
            cases hbrace
        split
        · exact (errorSkip_le _).map fun _ hle => Nat.lt_of_le_of_lt hle hlt
        · exact (anonymous_le _ _).mono fun _ hle => Nat.lt_of_le_of_lt hle hlt
      · split
        next hnot =>
          have hlt : p.Lt p₂ := by
            rcases h₂ with hlt | ⟨heq, -⟩
            · exact Nat.lt_of_lt_of_le hlt hle
            · rw [heq] at hnot
              exact absurd hident' hnot
          exact (errorSkip_le _).map fun _ hle => Nat.lt_of_le_of_lt hle hlt
        next hident₂ =>
          have hle₂ : p.Le p₂ := by
            rcases h₂ with hlt | ⟨heq, -⟩
            · exact Nat.le_trans (Nat.le_of_lt hlt) hle
            · rw [heq]
              exact hle
          have htype : ∀ p₃ : Parser, p₃.size = p₂.size → p₃.tk = p₂.tk → Out (fun r => p.Lt r.2) p₃.parseType := by
            intro p₃ hsize htk
            refine (parseType_lt (htk.trans (Decidable.byContradiction hident₂))).mono fun r hr => ?_
            exact Nat.lt_of_lt_of_le hr (Nat.le_trans (Nat.le_of_eq hsize) hle₂)
          refine (htype _ ?_ ?_).bind fun r hr => hr
          · split <;> rfl
          · split <;> rfl

theorem fieldsTurn_eof (h : p.tk = .eof) : Out (p.Reaches saved.length) (p.fieldsTurn saved) := by
  unfold fieldsTurn
  dsimp only
  rw [if_pos h]
  exact endFields_reaches

theorem membersTurn_read (m : Member) :
    Out (fun s => p.Lt s.parser ∨ p.Reaches saved.length s) (p.membersTurn m saved) := by
  unfold membersTurn
  split
  · exact (errorSkip_le _).bind fun p₁ h₁ => (leave_reaches saved p₁).mono fun _ hs => Or.inr (hs.mono h₁ (Nat.le_refl _))
  next h => exact (next_lt (ne_eof (Decidable.byContradiction h) (by decide))).map fun _ h => Or.inl h

theorem dimensTurn_read (d : Declarator) (hclosed : p.tk = .lBrack → ']' ∈ p.lex.line) :
    Out (fun s => p.Lt s.parser ∨ p.Reaches (saved.length + 3) s) (p.dimensTurn d saved) := by
  unfold dimensTurn
  split
  next h => exact (parseArrayDimen_lt (ne_eof h (by decide)) (hclosed h)).map fun _ h => Or.inl h
  · refine (bitWidth_le d).bind fun r hr => ?_
    dsimp only
    split
    · refine (endMember_reaches (p := r.2.parseMsg _) d.toMember).mono fun s hs => ?_
      rcases hs with hlt | hs
      · exact Or.inl (Nat.lt_of_lt_of_le hlt hr)
      · exact Or.inr (hs.mono hr (by omega))
    · refine Or.inr ⟨hr, ?_⟩
      change 3 + saved.length ≤ saved.length + 3
      omega

theorem findTypeTurn_read (env : Env) (d : Declarator) (bitWidth typeName : String)
    (h : p.typedefList.lookup typeName = none) :
    Out (fun s => p.Lt s.parser ∨ p.Reaches (saved.length + 1) s) (p.findTypeTurn env d bitWidth typeName saved) := by
  unfold findTypeTurn
  rw [h]
  dsimp only
  split
  · trivial
  · have hmember : ∀ p' : Parser, p'.size = p.size →
        Out (fun s => p.Lt s.parser ∨ p.Reaches (saved.length + 1) s) (p'.endMember d.toMember saved) := by
      intro p' heq
      refine (endMember_reaches (p := p') d.toMember).mono fun s hs => ?_
      rcases hs with hlt | hs
      · exact Or.inl (Nat.lt_of_lt_of_le hlt (Nat.le_of_eq heq))
      · exact Or.inr (hs.mono (Nat.le_of_eq heq) (Nat.le_refl _))
    apply hmember
    split
    · rfl
    · split <;> rfl

theorem loadTurn_lt (env : Env) : Out (fun s => p.Lt s.parser) (p.loadTurn env) := by
  unfold loadTurn
  dsimp only
  split
  · trivial
  next h =>
    split
    · exact (statement_lt env h).map fun _ h => h
    · split
      · exact (errorSkip_lt _ h).map fun _ h => h
      · split
        · exact (parseTypedef_lt h).map fun _ h => h
        · split
          · exact (parseRecord_lt h).map fun _ h => h
          · refine (next_lt h).bind fun p₁ h₁ => ?_
            split
            · exact (statement_le env).map fun _ hle => Nat.lt_of_le_of_lt hle h₁
            · split
              · exact (statement_le (p := { p₁ with parseMethod := some .moduleMethods }) env).map fun _ hle =>
                  Nat.lt_of_le_of_lt hle h₁
              · exact (errorSkip_le _).map fun _ hle => Nat.lt_of_le_of_lt hle h₁

end Parser

/-! ## The two that make none -/

/-- The type behind so many typedefs. -/
def typedefs (table : List (String × String)) : ℕ → String → Option String
  | 0, name => some name
  | n + 1, name => (table.lookup name).bind (typedefs table n)

/-- A bracket that is not closed on its line, or a typedef without an end. -/
def Stuck (s : State) : Prop :=
  match s.point with
  | .dimens _ => s.parser.tk = .lBrack ∧ ']' ∉ s.parser.lex.line
  | .findType _ _ typeName => ∀ n, (typedefs s.parser.typedefList n typeName).isSome
  | _ => False

/-- A typedef is looked up. -/
def Resolves (s : State) : Prop :=
  match s.point with
  | .findType _ _ typeName => (s.parser.typedefList.lookup typeName).isSome
  | _ => False

/-- **Every round makes progress**, unless the parser is stuck or follows a typedef. -/
theorem turn_progress (env : Env) {s s' : State} (hstuck : ¬Stuck s) (hres : ¬Resolves s) (h : turn env s = .ok s') :
    Progress s s' := by
  obtain ⟨point, saved, p⟩ := s
  have hle : ∀ rank : ℕ, rank < (⟨point, saved, p⟩ : State).rank →
      (p.Lt s'.parser ∨ p.Reaches rank s') → Progress ⟨point, saved, p⟩ s' := fun _ hlt hs =>
    hs.imp_right fun hr => ⟨hr.1, Nat.lt_of_le_of_lt hr.2 hlt⟩
  cases point with
  | lexOpen =>
    have hread : Out (p.Reaches 0) (p.next.map fun p => (⟨.load, [], p⟩ : State)) :=
      Parser.next_le.map fun _ hle => ⟨hle, Nat.le_refl _⟩
    exact hle 0 (by change 0 < 5 + saved.length; omega) (Or.inr (hread.of_ok h))
  | load => exact Or.inl ((Parser.loadTurn_lt env).of_ok h)
  | fields =>
    by_cases heof : p.tk = .eof
    · refine hle saved.length ?_ (Or.inr ((Parser.fieldsTurn_eof heof).of_ok h))
      change saved.length < 1 + saved.length
      omega
    · exact Or.inl ((Parser.fieldsTurn_lt heof).of_ok h)
  | members m =>
    refine hle saved.length ?_ ((Parser.membersTurn_read m).of_ok h)
    change saved.length < 2 + saved.length
    omega
  | findType d bitWidth typeName =>
    have hnone : p.typedefList.lookup typeName = none := Option.not_isSome_iff_eq_none.1 hres
    refine hle (saved.length + 1) ?_ ((Parser.findTypeTurn_read env d bitWidth typeName hnone).of_ok h)
    change saved.length + 1 < 3 + saved.length
    omega
  | dimens d =>
    have hclosed : p.tk = .lBrack → ']' ∈ p.lex.line := fun htk =>
      Decidable.byContradiction fun hopen => hstuck ⟨htk, hopen⟩
    refine hle (saved.length + 3) ?_ ((Parser.dimensTurn_read d hclosed).of_ok h)
    change saved.length + 3 < 4 + saved.length
    omega

/-! ## The end -/

/-- The rounds of the loops, without events. -/
def step (env : Env) (s : State) : Option (List Unit × State) :=
  match turn env s with
  | .ok s' => some ([], s')
  | .error _ => none

section

variable {env : Env} {s s' : State}

theorem step_of_turn (h : turn env s = .ok s') : step env s = some ([], s') := by
  unfold step
  rw [h]

theorem turn_of_step {τ : List Unit} (h : step env s = some (τ, s')) : turn env s = .ok s' := by
  unfold step at h
  split at h
  next heq =>
    cases h
    exact heq
  · cases h

/-- Following typedefs comes to an end where they do. -/
theorem findType_ends {d : Declarator} {bitWidth typeName : String} {saved : List ℕ} {p : Parser} {n : ℕ}
    (hend : typedefs p.typedefList n typeName = none)
    (hok : Always (step env) (¬Stuck ·) ⟨.findType d bitWidth typeName, saved, p⟩)
    (hlast : ∀ name, p.typedefList.lookup name = none →
      Always (step env) (¬Stuck ·) ⟨.findType d bitWidth name, saved, p⟩ →
        ∃ τ r, Trace.Ends (step env) ⟨.findType d bitWidth name, saved, p⟩ τ r) :
    ∃ τ r, Trace.Ends (step env) ⟨.findType d bitWidth typeName, saved, p⟩ τ r := by
  induction n generalizing typeName with
  | zero => cases hend
  | succ n ih =>
    cases hx : p.typedefList.lookup typeName with
    | none => exact hlast typeName hx hok
    | some type =>
      have hturn : turn env ⟨.findType d bitWidth typeName, saved, p⟩ = .ok ⟨.findType d bitWidth type, saved, p⟩ := by
        change Parser.findTypeTurn env p d bitWidth typeName saved = _
        unfold Parser.findTypeTurn
        rw [hx]
      have hstep := step_of_turn hturn
      rw [typedefs, hx] at hend
      exact Trace.Ends.head hstep (ih hend (hok.next hstep))

/-- **A parser that is never stuck comes to an end.** By induction on what is left to read and on how deep in the
loops the parser is. -/
theorem ends_of_not_stuck (n m : ℕ) (s : State) (hn : s.parser.size = n) (hm : s.rank = m)
    (hok : Always (step env) (¬Stuck ·) s) : ∃ τ r, Trace.Ends (step env) s τ r := by
  induction n using Nat.strongRecOn generalizing s m with
  | ind n ihn =>
    induction m using Nat.strongRecOn generalizing s with
    | ind m ihm =>
      have hstep : ∀ s : State, s.parser.size = n → s.rank = m → ¬Resolves s → Always (step env) (¬Stuck ·) s →
          ∃ τ r, Trace.Ends (step env) s τ r := by
        intro s hn hm hres hok
        cases hs : step env s with
        | none => exact ⟨[], s, 0, .refl s, hs⟩
        | some r =>
          obtain ⟨τ, s'⟩ := r
          have hprogress := turn_progress env hok.here hres (turn_of_step hs)
          apply Trace.Ends.head hs
          rcases hprogress with hlt | ⟨hle, hrank⟩
          · exact ihn _ (hn ▸ hlt) _ s' rfl rfl (hok.next hs)
          · rcases Nat.lt_or_eq_of_le hle with hlt | heq
            · exact ihn _ (hn ▸ hlt) _ s' rfl rfl (hok.next hs)
            · exact ihm _ (hm ▸ hrank) s' (heq.trans hn) rfl (hok.next hs)
      by_cases hres : Resolves s
      · obtain ⟨point, saved, p⟩ := s
        cases point with
        | findType d bitWidth typeName =>
          obtain ⟨k, hk⟩ : ∃ k, typedefs p.typedefList k typeName = none := by
            apply Classical.byContradiction
            intro hnone
            apply hok.here
            intro k
            exact Option.isSome_iff_ne_none.2 fun hk => hnone ⟨k, hk⟩
          refine findType_ends hk hok fun name hx hok' => hstep _ hn hm ?_ hok'
          intro hsome
          change (p.typedefList.lookup name).isSome at hsome
          rw [hx] at hsome
          cases hsome
        | _ => exact hres.elim
      · exact hstep s hn hm hres hok

/-- **A parser that is stuck goes on for ever.** -/
theorem stuck_step (hstuck : Stuck s) : ∃ τ s', step env s = some (τ, s') ∧ Stuck s' := by
  obtain ⟨point, saved, p⟩ := s
  cases point with
  | dimens d =>
    obtain ⟨htk, hopen⟩ := hstuck
    have hturn : turn env ⟨.dimens d, saved, p⟩ = .ok ⟨.dimens { d with dimenList := d.dimenList ++ ["1"] }, saved,
        p.parseMsg "expected [integer expr]"⟩ := by
      change Parser.dimensTurn p d saved = _
      unfold Parser.dimensTurn Parser.parseArrayDimen
      rw [if_pos htk, if_pos hopen]
      rfl
    exact ⟨[], _, step_of_turn hturn, htk, hopen⟩
  | findType d bitWidth typeName =>
    have hone := hstuck 1
    rw [typedefs] at hone
    cases hx : p.typedefList.lookup typeName with
    | none =>
      rw [hx] at hone
      cases hone
    | some type =>
      have hturn : turn env ⟨.findType d bitWidth typeName, saved, p⟩ = .ok ⟨.findType d bitWidth type, saved, p⟩ := by
        change Parser.findTypeTurn env p d bitWidth typeName saved = _
        unfold Parser.findTypeTurn
        rw [hx]
      refine ⟨[], _, step_of_turn hturn, fun n => ?_⟩
      have hnext := hstuck (n + 1)
      rw [typedefs, hx] at hnext
      exact hnext
  | _ => exact hstuck.elim

/-- The parser comes to an end, and every round but those that follow a typedef reads on or leaves a loop. -/
def Terminates (env : Env) (lines : List Text) : Prop :=
  (∃ τ r, Trace.Ends (step env) (start lines) τ r) ∧
    Always (step env) (fun s => ∀ s', ¬Resolves s → turn env s = .ok s' → Progress s s') (start lines)

end

/-- A design without modules. -/
def noMethods : Env where
  methods _ p := .ok p
  findType _ _ _ := some .int
  methods_le _ _ _ h := by
    cases h
    exact Nat.le_refl _

/-- `n` rounds. -/
def turns (env : Env) : ℕ → State → Except Stop State
  | 0, s => .ok s
  | n + 1, s => (turn env s).bind (turns env n)

theorem steps_of_turns {env : Env} {n : ℕ} {s s' : State} (h : turns env n s = .ok s') :
    Steps (step env) n s [] s' := by
  induction n generalizing s with
  | zero =>
    cases h
    exact .refl _
  | succ n ih =>
    rw [turns] at h
    cases hturn : turn env s with
    | error stop =>
      rw [hturn] at h
      cases h
    | ok s₁ =>
      rw [hturn] at h
      exact .silent (step_of_turn hturn) (ih h)

/-- At the bracket of `struct S { int a[`. -/
def openBracket : State where
  point := .dimens ⟨⟨"int32_t", 32, none⟩, "a", []⟩
  saved := []
  parser :=
    { lex := ⟨.lBrack, "a", [], [],
        ["found type with compiler dependent width, replaced int32_t for all occurances of int"]⟩
      parseMethod := none
      modList := []
      structNameList := ["S"]
      structFieldList := []
      typedefList := []
      recordList := ["S"]
      recordCnt := 1
      openRecord := 0
      fields := []
      warned := ["int"] }

end OpenHT.Htl.HtdFile
