import OpenHT.Htfe.VarInitState

/-!
# Regular initializers follow C

* `ItemsRead`: the items of a brace are read as in C, up to an error or up to the closing brace.
* `read_expr`, `read_braces`: a value or an inner brace, and the items after it.
* `go_items`: the items of a brace, by induction on them.
* `read_sized`, `read_open`: arrays with a leading dimension, and without one.
* `regular_followsC`: regular initializers follow C.
-/

namespace OpenHT.Htfe.VarInit

open RowMajor Dimen

variable {V : Type}

/-! ## The items of a brace -/

section Items

variable [Zero V] {dims : List ℕ} {bAuto : Bool}

/-- The number of elements of an array; one without a leading dimension has no limit. -/
def limitOf (bOpen : Bool) (t : ℕ) : Option ℕ := if bOpen then none else some t

attribute [local simp] cValues

theorem lt_limitOf {bOpen : Bool} {q t : ℕ} (h : q < t) : ∀ t' ∈ limitOf bOpen t, q < t' := by
  intro t' ht'
  cases bOpen with
  | true => exact absurd ht' (Option.not_mem_none t')
  | false => exact Option.mem_some_iff.1 ht' ▸ h

omit [Zero V] in
theorem eq_nil_of_isNil {items : Items V} (h : items.isNil = true) : items = .nil := by
  cases items with
  | nil => rfl
  | expr | braces => exact Bool.noConfusion h

/-- A full array takes no more items. -/
theorem cValues_full {ds : List ℕ} {t q : ℕ} {items : Items V} (hne : items.isNil = false) (h : t ≤ q) :
    cValues ds (some t) q items = none := by
  have hnot : ¬ ∀ t' ∈ some t, q < t' := fun hall => absurd (hall t rfl) (Nat.not_lt.2 h)
  cases items with
  | nil => cases hne
  | expr v rest => exact if_neg hnot
  | braces sub trailing rest => exact if_neg fun hboth => hnot hboth.1

theorem subDims_dvd {ds : List ℕ} {q : ℕ} (h : RowMajor.count ds ∣ q) : subDims ds q = ds := by
  cases ds with
  | nil => rfl
  | cons d ds => exact if_pos h

/-- A brace at the start of an element is for the element. -/
theorem cValues_braces {e q : ℕ} {es : List ℕ} (h : RowMajor.count (e :: es) ∣ q) (limit : Option ℕ)
    (sub rest : Items V) (trailing : Bool) : cValues (e :: es) limit q (.braces sub trailing rest) =
      if (∀ t ∈ limit, q < t) ∧ sub.isNil = false then
        ((cValues es (some (RowMajor.count (e :: es))) 0 sub).map (pad (RowMajor.count (e :: es)))).bind
          fun ws => (cValues (e :: es) limit (q + ws.length) rest).map (ws ++ ·)
      else none := by
  rw [cValues, subDims_dvd h]

theorem pad_length {n : ℕ} {vs : List V} (h : vs.length ≤ n) : (pad n vs).length = n := by
  rw [pad, List.length_append, List.length_replicate]
  omega

/-- The items of a brace are read as in C: up to an error, or up to the closing brace. -/
def ItemsRead (dims : List ℕ) (bAuto : Bool) (ds : List ℕ) (lvl t : ℕ) (bOpen : Bool) (q : ℕ) (vs : List V)
    (items : Items V) : Prop :=
  (Rejected ds (limitOf bOpen t) q items ∧
      ∀ ts, go dims bAuto (items.tokens ++ ts) .item (stateAt dims lvl vs) = some .error) ∨
    ∃ ws, cValues ds (limitOf bOpen t) q items = some ws ∧ SubArrays ds q items ∧ RowMajor.count ds ≤ q + ws.length ∧
      q + ws.length ≤ t ∧ (bOpen = true → RowMajor.count ds ∣ q + ws.length) ∧
      ∀ ts, go dims bAuto (items.tokens ++ .rbrace :: ts) .item (stateAt dims lvl vs) =
        (closeBrace dims bAuto (stateAt dims lvl (vs ++ ws))).bind (go dims bAuto ts .afterBrace)

/-- A value, and the items after it. -/
theorem read_expr {pre ds : List ℕ} {d t q b : ℕ} {bOpen : Bool} {vs : List V} {v : V} {rest : Items V}
    (hdims : dims = pre ++ d :: ds) (hpos : ∀ d ∈ dims, 0 < d) (hfull : bOpen = false → t = d * RowMajor.count ds)
    (hopen : bOpen = true → t < d * RowMajor.count ds) (hb : d * RowMajor.count ds ∣ b) (hlen : vs.length = b + q)
    (hlt : q < t) (hrow : RowMajor.count ds ≤ q + 1)
    (hlast : rest.isNil = true → bOpen = true → RowMajor.count ds ∣ q + 1)
    (hrest : rest.isNil = false → ¬ (bOpen = false ∧ q + 1 = t) →
      ItemsRead dims bAuto ds (pre.length + 1) t bOpen (q + 1) (vs ++ [v]) rest) :
    ItemsRead dims bAuto ds (pre.length + 1) t bOpen q vs (.expr v rest) := by
  have hS : 0 < RowMajor.count ds := by
    apply count_pos
    intro e he
    exact hpos e (hdims ▸ List.mem_append_right _ (List.mem_cons_of_mem _ he))
  have hvalue : cValues ds (limitOf bOpen t) q (.expr v rest) =
      (cValues ds (limitOf bOpen t) (q + 1) rest).map (v :: ·) := if_pos (lt_limitOf hlt)
  have hlen' : (vs ++ [v]).length = b + (q + 1) := by
    rw [List.length_append, List.length_singleton, hlen, Nat.add_assoc]
  cases hrnil : rest.isNil with
  | true =>
    -- the last item
    rw [eq_nil_of_isNil hrnil] at hvalue ⊢
    refine Or.inr ⟨[v], hvalue, trivial, hrow, hlt, hlast hrnil, fun ts => ?_⟩
    have htokens : (Items.expr v (.nil : Items V)).tokens ++ .rbrace :: ts = .expr v :: .rbrace :: ts := rfl
    rw [htokens, go_expr hpos, go_rbrace (fun h => Place.noConfusion h) (Nat.succ_ne_zero _)]
  | false =>
    have hgo : ∀ ts, go dims bAuto ((Items.expr v rest).tokens ++ ts) .item (stateAt dims (pre.length + 1) vs) =
        if (b + (q + 1)) / RowMajor.count ds % d = 0 then some .error
        else go dims bAuto (rest.tokens ++ ts) .item (stateAt dims (pre.length + 1) (vs ++ [v])) := by
      intro ts
      have htokens : (Items.expr v rest).tokens ++ ts = .expr v :: .comma :: (rest.tokens ++ ts) := by
        rw [Items.tokens, hrnil]
        rfl
      rw [htokens, go_expr hpos, go_comma_value hdims, hlen']
    by_cases hend : bOpen = false ∧ q + 1 = t
    · -- too many values
      obtain ⟨hclosed, hqt⟩ := hend
      have hqd : q + 1 = d * RowMajor.count ds := hqt.trans (hfull hclosed)
      have hzero := (index_eq_zero hb hS hrow (Nat.le_of_eq hqd)).2 hqd
      refine Or.inl ⟨Or.inl ?_, fun ts => by rw [hgo, if_pos hzero]⟩
      have hlimit : limitOf bOpen t = some t := by rw [limitOf, hclosed]; rfl
      rw [hvalue, hlimit, cValues_full hrnil (Nat.le_of_eq hqt.symm), Option.map_none]
    · have hlt' : q + 1 < d * RowMajor.count ds := by
        cases bOpen with
        | true => exact Nat.lt_of_le_of_lt hlt (hopen rfl)
        | false =>
          have hneq : q + 1 ≠ t := fun h => hend ⟨rfl, h⟩
          rw [← hfull rfl]
          omega
      have hnot : ¬ (b + (q + 1)) / RowMajor.count ds % d = 0 := fun h =>
        Nat.ne_of_lt hlt' ((index_eq_zero hb hS hrow (Nat.le_of_lt hlt')).1 h)
      rcases hrest hrnil hend with ⟨hrej, hgo'⟩ | ⟨ws, hsome, hsub, hge, hle, hdvd, hgo'⟩
      · refine Or.inl ⟨hrej.imp (fun hnone => ?_) id, fun ts => by rw [hgo, if_neg hnot, hgo']⟩
        rw [hvalue, hnone, Option.map_none]
      · have hlens : q + (v :: ws).length = q + 1 + ws.length := by rw [List.length_cons]; omega
        refine Or.inr ⟨v :: ws, ?_, hsub, hlens ▸ hge, hlens ▸ hle, fun ho => hlens ▸ hdvd ho, fun ts => ?_⟩
        · rw [hvalue, hsome, Option.map_some]
        · rw [hgo, if_neg hnot, hgo', List.append_assoc, List.singleton_append]

/-- **An inner brace.** It is read as in C, and filled. -/
theorem go_braces {sub : Items V} {pre es : List ℕ} {e b : ℕ} {vs : List V}
    (hdims : dims = pre ++ e :: es) (hpre : pre ≠ []) (hpos : ∀ d ∈ dims, 0 < d) (hb : RowMajor.count (e :: es) ∣ b)
    (hlen : vs.length = b)
    (hsub : ItemsRead dims bAuto es (pre.length + 1) (RowMajor.count (e :: es)) false 0 vs sub) :
    (Rejected es (some (RowMajor.count (e :: es))) 0 sub ∧
        ∀ ts, go dims bAuto (.lbrace :: (sub.tokens ++ ts)) .item (stateAt dims pre.length vs) = some .error) ∨
      ∃ ws, cValues es (some (RowMajor.count (e :: es))) 0 sub = some ws ∧ SubArrays es 0 sub ∧
        (pad (RowMajor.count (e :: es)) ws).length = RowMajor.count (e :: es) ∧
        ∀ ts, go dims bAuto (.lbrace :: (sub.tokens ++ .rbrace :: ts)) .item (stateAt dims pre.length vs) =
          go dims bAuto ts .afterBrace (stateAt dims pre.length (vs ++ pad (RowMajor.count (e :: es)) ws)) := by
  have hS : 0 < RowMajor.count es := by
    apply count_pos
    intro x hx
    exact hpos x (hdims ▸ List.mem_append_right _ (List.mem_cons_of_mem _ hx))
  have hzero : vs.length / RowMajor.count es % e = 0 := by
    obtain ⟨c, hc⟩ := hb
    rw [hlen, hc, count_cons, Nat.mul_right_comm, Nat.mul_div_cancel _ hS, Nat.mul_mod_right]
  rcases hsub with ⟨hrej, hgo⟩ | ⟨ws, hsome, hsub, hge, hle, -, hgo⟩
  · exact Or.inl ⟨hrej, fun ts => by rw [go_lbrace hdims hzero, hgo]⟩
  · rw [Nat.zero_add] at hge hle
    have hlen' : (vs ++ ws).length = b + ws.length := by rw [List.length_append, hlen]
    have hclose : closeBrace dims bAuto (stateAt dims (pre.length + 1) (vs ++ ws)) = _ :=
      closeBrace_after hdims hpos hb hlen' hge hle fun h => absurd h hpre
    refine Or.inr ⟨ws, hsome, hsub, pad_length hle, fun ts => ?_⟩
    rw [go_lbrace hdims hzero, hgo, hclose, Option.bind_some, List.append_assoc]
    rfl

/-- A brace that cannot be opened, or that has nothing in it. -/
theorem go_empty {t : Token V} (ht : t = .comma ∨ t = .rbrace) (s : State V) (ts : List (Token V)) :
    go dims bAuto (.lbrace :: t :: ts) .item s = some .error := by
  rcases ht with rfl | rfl <;> simp only [go, ite_self]

theorem read_empty {ds : List ℕ} {lvl t q : ℕ} {bOpen trailing : Bool} {vs : List V} {sub rest : Items V}
    (hsnil : sub.isNil = true) : ItemsRead dims bAuto ds lvl t bOpen q vs (.braces sub trailing rest) := by
  have hnone : cValues ds (limitOf bOpen t) q (.braces sub trailing rest) = none :=
    if_neg fun h => Bool.noConfusion (hsnil.symm.trans h.2)
  refine Or.inl ⟨Or.inl hnone, fun ts => ?_⟩
  rw [eq_nil_of_isNil hsnil]
  cases trailing with
  | true => exact go_empty (Or.inl rfl) _ _
  | false => exact go_empty (Or.inr rfl) _ _

/-- A brace for a scalar in the middle of a row is an error. -/
theorem read_scalar {pre es : List ℕ} {d e t q b : ℕ} {bOpen trailing : Bool} {vs : List V} {sub rest : Items V}
    (hdims : dims = pre ++ d :: e :: es) (hb : d * RowMajor.count (e :: es) ∣ b) (hlen : vs.length = b + q)
    (hS : 0 < RowMajor.count es) (hindex : q / RowMajor.count es % e ≠ 0) (hscalar : subDims (e :: es) q = []) :
    ItemsRead dims bAuto (e :: es) (pre.length + 1) t bOpen q vs (.braces sub trailing rest) := by
  have hnot : ¬ SubArrays (e :: es) q (.braces sub trailing rest) := by
    rw [SubArrays, hscalar]
    exact fun h => h
  have hdims' : dims = (pre ++ [d]) ++ e :: es := by rw [hdims, List.append_assoc]; rfl
  have hlvl : (pre ++ [d]).length = pre.length + 1 := by rw [List.length_append, List.length_singleton]
  have hne : vs.length / RowMajor.count es % e ≠ 0 := by
    rw [hlen, index_within (Dvd.dvd.trans (Nat.dvd_mul_left _ d) hb) hS]
    exact hindex
  refine Or.inl ⟨Or.inr hnot, fun ts => ?_⟩
  obtain ⟨us, hus⟩ : ∃ us, (Items.braces sub trailing rest).tokens ++ ts = .lbrace :: us := ⟨_, rfl⟩
  rw [hus, ← hlvl]
  exact go_lbrace_error hdims' hne

omit [Zero V] in
theorem subArrays_braces {e q : ℕ} {es : List ℕ} (h : RowMajor.count (e :: es) ∣ q) (sub rest : Items V)
    (trailing : Bool) : SubArrays (e :: es) q (.braces sub trailing rest) ↔
      SubArrays es 0 sub ∧ SubArrays (e :: es) (q + RowMajor.count (e :: es)) rest := by
  rw [SubArrays, subDims_dvd h]

/-- An inner brace at the start of an element, and the items after it. -/
theorem read_braces {pre es : List ℕ} {e t q b : ℕ} {bOpen trailing : Bool} {vs : List V} {sub rest : Items V}
    (ht : RowMajor.count (e :: es) ∣ t) (hlen : vs.length = b + q) (hdvd : RowMajor.count (e :: es) ∣ q) (hlt : q < t)
    (hsnil : sub.isNil = false)
    (hinner : (Rejected es (some (RowMajor.count (e :: es))) 0 sub ∧ ∀ ts,
        go dims bAuto (.lbrace :: (sub.tokens ++ ts)) .item (stateAt dims (pre.length + 1) vs) = some .error) ∨
      ∃ ws, cValues es (some (RowMajor.count (e :: es))) 0 sub = some ws ∧ SubArrays es 0 sub ∧
        (pad (RowMajor.count (e :: es)) ws).length = RowMajor.count (e :: es) ∧
        ∀ ts, go dims bAuto (.lbrace :: (sub.tokens ++ .rbrace :: ts)) .item (stateAt dims (pre.length + 1) vs) =
          go dims bAuto ts .afterBrace (stateAt dims (pre.length + 1) (vs ++ pad (RowMajor.count (e :: es)) ws)))
    (hcomma : ¬ Rejected es (some (RowMajor.count (e :: es))) 0 sub → trailing = false)
    (hrest : ¬ Rejected es (some (RowMajor.count (e :: es))) 0 sub → rest.isNil = false → ∀ vs', vs'.length =
      b + (q + RowMajor.count (e :: es)) →
        ItemsRead dims bAuto (e :: es) (pre.length + 1) t bOpen (q + RowMajor.count (e :: es)) vs' rest) :
    ItemsRead dims bAuto (e :: es) (pre.length + 1) t bOpen q vs (.braces sub trailing rest) := by
  rcases hinner with ⟨hrej, hgo⟩ | ⟨ws, hsome, hsub, hpadlen, hgo⟩
  · -- the inner brace has too many items, or a brace for a scalar
    refine Or.inl ⟨hrej.imp (fun hnone => ?_) (fun hnot => ?_), fun ts => ?_⟩
    · rw [cValues_braces hdvd, hnone]
      exact ite_self none
    · rw [subArrays_braces hdvd]
      exact fun h => hnot h.1
    · rw [Items.tokens]
      simp only [List.cons_append, List.append_assoc]
      exact hgo _
  · have hnot : ¬ Rejected es (some (RowMajor.count (e :: es))) 0 sub := by
      rintro (hnone | hsub')
      · rw [hsome] at hnone
        cases hnone
      · exact hsub' hsub
    have hroom : q + RowMajor.count (e :: es) ≤ t := by
      obtain ⟨m, rfl⟩ := ht
      obtain ⟨n, rfl⟩ := hdvd
      have hmn : n < m := Nat.lt_of_mul_lt_mul_left hlt
      calc RowMajor.count (e :: es) * n + RowMajor.count (e :: es) = RowMajor.count (e :: es) * (n + 1) := by ring
        _ ≤ RowMajor.count (e :: es) * m := Nat.mul_le_mul_left _ hmn
    have hvalue : cValues (e :: es) (limitOf bOpen t) q (.braces sub trailing rest) =
        (cValues (e :: es) (limitOf bOpen t) (q + RowMajor.count (e :: es)) rest).map
          (pad (RowMajor.count (e :: es)) ws ++ ·) := by
      rw [cValues_braces hdvd, if_pos ⟨lt_limitOf hlt, hsnil⟩, hsome, Option.map_some, Option.bind_some, hpadlen]
    have htokens : ∀ ts, (Items.braces sub trailing rest).tokens ++ ts = .lbrace :: (sub.tokens ++ .rbrace ::
        ((if rest.isNil then [] else .comma :: rest.tokens) ++ ts)) := by
      intro ts
      rw [Items.tokens, hcomma hnot]
      simp only [Bool.false_eq_true, if_false, List.append_nil, List.cons_append, List.append_assoc]
    cases hrnil : rest.isNil with
    | true =>
      -- the last item
      refine Or.inr ⟨pad (RowMajor.count (e :: es)) ws, ?_, ?_, ?_, ?_, fun _ => ?_, fun ts => ?_⟩
      · rw [hvalue, eq_nil_of_isNil hrnil, cValues, Option.map_some, List.append_nil]
      · rw [subArrays_braces hdvd, eq_nil_of_isNil hrnil]
        exact ⟨hsub, trivial⟩
      · rw [hpadlen]
        exact Nat.le_add_left _ _
      · rw [hpadlen]
        exact hroom
      · rw [hpadlen]
        exact Nat.dvd_add hdvd (Nat.dvd_refl _)
      · rw [htokens, hgo, hrnil]
        exact go_rbrace (fun h => Place.noConfusion h) (Nat.succ_ne_zero _)
    | false =>
      have hlen' : (vs ++ pad (RowMajor.count (e :: es)) ws).length = b + (q + RowMajor.count (e :: es)) := by
        rw [List.length_append, hpadlen, hlen, Nat.add_assoc]
      have hnext : ∀ ts, go dims bAuto ((Items.braces sub trailing rest).tokens ++ ts) .item
          (stateAt dims (pre.length + 1) vs) = go dims bAuto (rest.tokens ++ ts) .item
            (stateAt dims (pre.length + 1) (vs ++ pad (RowMajor.count (e :: es)) ws)) := by
        intro ts
        rw [htokens, hgo, hrnil]
        exact go_comma_brace (Nat.succ_ne_zero _)
      rcases hrest hnot hrnil _ hlen' with ⟨hrej, hgo'⟩ | ⟨ws', hsome', hsub', hge', hle', hdvd', hgo'⟩
      · refine Or.inl ⟨hrej.imp (fun hnone => ?_) (fun hbad => ?_), fun ts => by rw [hnext, hgo']⟩
        · rw [hvalue, hnone, Option.map_none]
        · rw [subArrays_braces hdvd]
          exact fun h => hbad h.2
      · have hlens : q + (pad (RowMajor.count (e :: es)) ws ++ ws').length =
            q + RowMajor.count (e :: es) + ws'.length := by
          rw [List.length_append, hpadlen, Nat.add_assoc]
        refine Or.inr ⟨pad (RowMajor.count (e :: es)) ws ++ ws', ?_, (subArrays_braces hdvd _ _ _).2 ⟨hsub, hsub'⟩,
          hlens ▸ hge', hlens ▸ hle', fun ho => hlens ▸ hdvd' ho, fun ts => ?_⟩
        · rw [hvalue, hsome', Option.map_some]
        · rw [hnext, hgo', List.append_assoc]

/-- **The items of a brace.** The induction is on the items; those of an inner brace are for an array of the next
dimension. -/
theorem go_items (items : Items V) {pre ds : List ℕ} {d t q b : ℕ} {bOpen : Bool} {vs : List V}
    (hdims : dims = pre ++ d :: ds) (hpos : ∀ d ∈ dims, 0 < d)
    (ht : RowMajor.count ds ∣ t) (hfull : bOpen = false → t = d * RowMajor.count ds)
    (hopen : bOpen = true → t < d * RowMajor.count ds) (hb : d * RowMajor.count ds ∣ b) (hlen : vs.length = b + q)
    (hne : items.isNil = false) (hreg : Regular ds t bOpen q items) :
    ItemsRead dims bAuto ds (pre.length + 1) t bOpen q vs items := by
  induction items generalizing pre ds d t q b bOpen vs with
  | nil => cases hne
  | expr v rest ih =>
    obtain ⟨hlt, hrow, hrest⟩ := hreg
    have hlen' : (vs ++ [v]).length = b + (q + 1) := by
      rw [List.length_append, List.length_singleton, hlen, Nat.add_assoc]
    refine read_expr hdims hpos hfull hopen hb hlen hlt hrow (fun hrnil ho => ?_) fun hrnil hend =>
      ih hdims ht hfull hopen hb hlen' hrnil (hrest.resolve_left hend)
    rw [eq_nil_of_isNil hrnil] at hrest
    exact hrest.resolve_left (fun h => Bool.noConfusion (ho.symm.trans h.1)) ho
  | braces sub trailing rest ihSub ihRest =>
    cases ds with
    | nil => exact read_empty hreg
    | cons e es =>
      have hS : 0 < RowMajor.count es := by
        apply count_pos
        intro x hx
        exact hpos x (hdims ▸ List.mem_append_right _ (List.mem_cons_of_mem _ (List.mem_cons_of_mem _ hx)))
      cases hsnil : sub.isNil with
      | true => exact read_empty hsnil
      | false =>
        rcases hreg with h | ⟨hindex, hscalar⟩ | ⟨hdvd, hlt, hregSub, hregRest⟩
        · exact Bool.noConfusion (hsnil.symm.trans h)
        · exact read_scalar hdims hb hlen hS hindex hscalar
        · have hdims' : dims = (pre ++ [d]) ++ e :: es := by rw [hdims, List.append_assoc]; rfl
          have hlvl : (pre ++ [d]).length = pre.length + 1 := by rw [List.length_append, List.length_singleton]
          have hsub : RowMajor.count (e :: es) ∣ b + q := Nat.dvd_add (Dvd.dvd.trans (Nat.dvd_mul_left _ d) hb) hdvd
          have hinner := go_braces hdims' (List.append_ne_nil_of_right_ne_nil _ (List.cons_ne_nil _ _)) hpos hsub hlen
            (ihSub hdims' (Nat.dvd_mul_left _ _) (fun _ => rfl) (fun h => Bool.noConfusion h) hsub hlen hsnil hregSub)
          rw [hlvl] at hinner
          exact read_braces ht hlen hdvd hlt hsnil hinner (fun hnot => (hregRest.resolve_left hnot).1)
            fun hnot hrnil vs' hlen' => ihRest hdims ht hfull hopen hb hlen' hrnil (hregRest.resolve_left hnot).2

end Items

/-! ## Initializers -/

section Init

variable [Zero V]

/-- The dimensions that the parser works with. -/
def Init.dimenList (x : Init V) : List ℕ := (if x.lead = 0 then 262143 else x.lead) :: x.ds

omit [Zero V] in
theorem Init.dimenList_pos (x : Init V) : ∀ d ∈ x.dimenList, 0 < d := by
  intro d hd
  rcases List.mem_cons.1 hd with rfl | hd
  · by_cases h : x.lead = 0
    · rw [if_pos h]
      decide
    · rw [if_neg h]
      exact Nat.pos_of_ne_zero h
  · exact x.pos d hd

theorem Init.parse_eq (x : Init V) (ts : List (Token V)) :
    x.parse ts = go x.dimenList (decide (x.lead = 0))
      (x.items.tokens ++ ((if x.trailing then [.comma] else []) ++ .rbrace :: ts)) .item (stateAt x.dimenList 1 []) := by
  have htokens : (Items.braces x.items x.trailing (.nil : Items V)).tokens ++ ts =
      .lbrace :: (x.items.tokens ++ ((if x.trailing then [.comma] else []) ++ .rbrace :: ts)) := by
    rw [Items.tokens]
    simp only [List.cons_append, List.append_assoc]
    rfl
  have hauto : decide ((x.lead :: x.ds).head? = some 0) = decide (x.lead = 0) :=
    decide_eq_decide.2 (by rw [List.head?_cons, Option.some.injEq])
  have hdims : (if decide (x.lead = 0) = true then 262143 :: (x.lead :: x.ds).tail else x.lead :: x.ds) = x.dimenList := by
    by_cases hlead : x.lead = 0
    · rw [decide_eq_true hlead, if_pos rfl, Init.dimenList, if_pos hlead]
      rfl
    · rw [decide_eq_false hlead, if_neg Bool.false_ne_true, Init.dimenList, if_neg hlead]
  have hstart : (⟨0, x.dimenList.map fun _ => 0, []⟩ : State V) = stateAt x.dimenList 0 [] := by
    rw [stateAt, List.length_nil, indexAt_zero]
    rfl
  rw [Init.parse, parseVarDeclInitializer, htokens]
  simp only [hauto, hdims, hstart]
  exact go_lbrace (List.nil_append x.dimenList).symm (by rw [List.length_nil, Nat.zero_div, Nat.zero_mod])

theorem go_finish {dims : List ℕ} {bAuto : Bool} {ts : List (Token V)} (vs : List V)
    (h : ts.head? = some .semicolon ∨ ts.head? = some .comma) :
    go dims bAuto ts .afterBrace (stateAt dims 0 vs) = some (.accepted
      (if bAuto then (indexAt dims vs.length).headD 0 :: dims.tail else dims) (placed dims vs)) := by
  cases ts with
  | nil => rcases h with h | h <;> cases h
  | cons t ts =>
    have ht : t = .semicolon ∨ t = .comma := h.imp Option.some.inj Option.some.inj
    rcases ht with rfl | rfl <;> simp only [go, stateAt, if_true, finish]

/-- What C accepts, with braces for arrays, is not rejected. -/
theorem Init.not_rejected {x : Init V} (hC : (cArray x.lead x.ds x.items).isSome = true)
    (hsub : SubArrays x.ds 0 x.items) : ¬ Rejected x.ds x.limit 0 x.items := by
  rintro (hnone | hnot)
  · rw [cArray] at hC
    by_cases hlead : x.lead = 0
    · rw [Init.limit, if_pos hlead] at hnone
      rw [if_pos hlead, hnone, Option.map_none, ite_self] at hC
      exact Bool.noConfusion hC
    · rw [Init.limit, if_neg hlead] at hnone
      rw [if_neg hlead, hnone, Option.map_none, ite_self] at hC
      exact Bool.noConfusion hC
  · exact hnot hsub

/-- An initializer is rejected as in C, or gives the elements their values. -/
def Init.Read (x : Init V) (ts : List (Token V)) : Prop :=
  (Rejected x.ds x.limit 0 x.items ∧ x.parse ts = some .error) ∨
    ∃ n vs, 0 < n ∧ cArray x.lead x.ds x.items = some (n, vs) ∧
      x.parse ts = some (.accepted (n :: x.ds) (placed (n :: x.ds) vs)) ∧ vs.length = RowMajor.count (n :: x.ds)

/-- An array whose leading dimension is given. -/
theorem read_sized {x : Init V} (h : x.Regular) (hlead : x.lead ≠ 0) (hne : x.items.isNil = false)
    {ts : List (Token V)} (hts : ts.head? = some .semicolon ∨ ts.head? = some .comma) : x.Read ts := by
  obtain ⟨hreg, hcomma⟩ := h
  rw [if_neg hlead, decide_eq_false hlead] at hreg
  have hdims : x.dimenList = x.lead :: x.ds := by rw [Init.dimenList, if_neg hlead]
  have hlimit : x.limit = some (x.lead * RowMajor.count x.ds) := if_neg hlead
  have hpos := hdims ▸ x.dimenList_pos
  have hparse := x.parse_eq ts
  rw [decide_eq_false hlead, hdims] at hparse
  have hread : ItemsRead (x.lead :: x.ds) false x.ds 1 (x.lead * RowMajor.count x.ds) false 0 [] x.items :=
    go_items x.items (List.nil_append _).symm hpos (Nat.dvd_mul_left _ _) (fun _ => rfl)
      (fun h => Bool.noConfusion h) (Nat.dvd_zero _) rfl hne hreg
  rcases hread with ⟨hrej, hgo⟩ | ⟨ws, hsome, hsub, hge, hle, -, hgo⟩
  · exact Or.inl ⟨hlimit ▸ hrej, by rw [hparse, hgo]⟩
  · have hsome' : cValues x.ds x.limit 0 x.items = some ws := hlimit ▸ hsome
    have htrail : x.trailing = false := hcomma.resolve_left fun hrej => hrej.elim
      (fun hnone => Option.some_ne_none _ (hsome'.symm.trans hnone)) (fun hnot => hnot hsub)
    rw [Nat.zero_add] at hge hle
    have hclose : closeBrace (x.lead :: x.ds) false (stateAt (x.lead :: x.ds) 1 ws) =
        some (stateAt (x.lead :: x.ds) 0 (pad (x.lead * RowMajor.count x.ds) ws)) :=
      closeBrace_after (List.nil_append _).symm hpos (Nat.dvd_zero _) (Nat.zero_add ws.length).symm hge hle (fun _ => rfl)
    refine Or.inr ⟨x.lead, pad (x.lead * RowMajor.count x.ds) ws, Nat.pos_of_ne_zero hlead, ?_, ?_, pad_length hle⟩
    · rw [cArray, hne, if_neg hlead, ← hlimit, hsome']
      rfl
    · have hend := hgo ts
      rw [List.nil_append, hclose, Option.bind_some, go_finish _ hts] at hend
      rw [hparse, htrail]
      exact hend

/-- An array whose leading dimension is omitted. -/
theorem read_open {x : Init V} (h : x.Regular) (hlead : x.lead = 0) (hne : x.items.isNil = false)
    {ts : List (Token V)} (hts : ts.head? = some .semicolon ∨ ts.head? = some .comma) : x.Read ts := by
  obtain ⟨hreg, hcomma⟩ := h
  rw [if_pos hlead, decide_eq_true hlead] at hreg
  have hS := count_pos x.pos
  have hdims : x.dimenList = 262143 :: x.ds := by rw [Init.dimenList, if_pos hlead]
  have hlimit : x.limit = none := if_pos hlead
  have hpos := hdims ▸ x.dimenList_pos
  have hparse := x.parse_eq ts
  rw [decide_eq_true hlead, hdims] at hparse
  have hlt : 262142 * RowMajor.count x.ds < 262143 * RowMajor.count x.ds :=
    Nat.mul_lt_mul_of_pos_right (by decide) hS
  have hread : ItemsRead (262143 :: x.ds) true x.ds 1 (262142 * RowMajor.count x.ds) true 0 [] x.items :=
    go_items x.items (List.nil_append _).symm hpos (Nat.dvd_mul_left _ _) (fun h => Bool.noConfusion h) (fun _ => hlt)
      (Nat.dvd_zero _) rfl hne hreg
  rcases hread with ⟨hrej, hgo⟩ | ⟨ws, hsome, hsub, hge, hle, hdvd, hgo⟩
  · exact Or.inl ⟨hlimit ▸ hrej, by rw [hparse, hgo]⟩
  · have hsome' : cValues x.ds x.limit 0 x.items = some ws := hlimit ▸ hsome
    have htrail : x.trailing = false := hcomma.resolve_left fun hrej => hrej.elim
      (fun hnone => Option.some_ne_none _ (hsome'.symm.trans hnone)) (fun hnot => hnot hsub)
    rw [Nat.zero_add] at hge hle
    -- the number of rows
    obtain ⟨n, hn⟩ := hdvd rfl
    rw [Nat.zero_add, Nat.mul_comm] at hn
    have hnpos : 0 < n := by
      apply Nat.pos_of_ne_zero
      intro h0
      rw [hn, h0, Nat.zero_mul] at hge
      exact absurd hS (Nat.not_lt.2 hge)
    have hnle : n ≤ 262142 := Nat.le_of_mul_le_mul_right (hn ▸ hle) hS
    have hrows : (ws.length + RowMajor.count x.ds - 1) / RowMajor.count x.ds = n := by
      rw [hn, Nat.add_sub_assoc hS, Nat.add_comm, Nat.add_mul_div_right _ _ hS,
        Nat.div_eq_of_lt (Nat.sub_lt hS Nat.one_pos), Nat.zero_add]
    have hpad : pad (n * RowMajor.count x.ds) ws = ws := by
      rw [pad, hn, Nat.sub_self, List.replicate_zero, List.append_nil]
    have hclose : closeBrace (262143 :: x.ds) true (stateAt (262143 :: x.ds) 1 ws) =
        some (stateAt (262143 :: x.ds) 0 ws) := closeBrace_open rfl hpos (hn ▸ Nat.dvd_mul_left _ _)
    have hindex : (indexAt (262143 :: x.ds) ws.length).headD 0 = n := by
      rw [indexAt, List.headD_cons, hn, Nat.mul_div_cancel _ hS, Nat.mod_eq_of_lt (by omega)]
    refine Or.inr ⟨n, ws, hnpos, ?_, ?_, hn⟩
    · rw [cArray, hne, if_pos hlead, ← hlimit, hsome']
      simp only [Bool.false_eq_true, if_false, Option.map_some, hrows, hpad]
    · have hend := hgo ts
      rw [List.nil_append, hclose, Option.bind_some, go_finish _ hts, if_pos rfl, hindex, List.tail_cons,
        placed_lead (e := n) (hle.trans (Nat.le_of_lt hlt)) (Nat.le_of_eq hn)] at hend
      rw [hparse, htrail]
      exact hend

omit [Zero V] in
theorem error_ne_accepted {dims : List ℕ} {statements : List (List ℕ × V)} :
    some (.error : Outcome V) ≠ some (.accepted dims statements) := by
  rintro ⟨⟩

/-- **Regular initializers follow C.** What is accepted gives every element its value once, and the array its size;
and what C accepts is accepted. -/
theorem regular_followsC (x : Init V) (h : x.Regular) : FollowsC x := by
  intro ts hts
  cases hne : x.items.isNil with
  | true =>
    have hparse : x.parse ts = some .error := by
      rw [x.parse_eq, eq_nil_of_isNil hne]
      cases x.trailing <;> rfl
    have hC : cArray x.lead x.ds x.items = none := by
      rw [cArray, hne]
      rfl
    rw [hparse, hC]
    exact ⟨fun _ _ h => absurd h error_ne_accepted, fun h => Bool.noConfusion h⟩
  | false =>
    have hread : x.Read ts := by
      by_cases hlead : x.lead = 0
      · exact read_open h hlead hne hts
      · exact read_sized h hlead hne hts
    rcases hread with ⟨hrej, hparse⟩ | ⟨n, vs, hn, hC, hparse, hlen⟩
    · rw [hparse]
      exact ⟨fun _ _ h => absurd h error_ne_accepted, fun hC hsub => absurd hrej (Init.not_rejected hC hsub)⟩
    · rw [hparse, hC]
      have hpos : ∀ d ∈ n :: x.ds, 0 < d := by
        intro d hd
        rcases List.mem_cons.1 hd with rfl | hd
        · exact hn
        · exact x.pos d hd
      refine ⟨fun dims statements hacc => ?_, fun _ _ => ⟨_, _, rfl⟩⟩
      obtain ⟨rfl, rfl⟩ := Outcome.accepted.inj (Option.some.inj hacc)
      exact ⟨n, vs, rfl, rfl, placed_assigns hpos hlen⟩

end Init

/-- `int a[4][5] = { { 1, 2 }, { 5 }, 7, 0, 0, 0, 0, { 9, 10 } };` -/
def mixedRows : Init Int where
  lead := 4
  ds := [5]
  items := .braces (.expr 1 (.expr 2 .nil)) false (.braces (.expr 5 .nil) false
    (.expr 7 (.expr 0 (.expr 0 (.expr 0 (.expr 0 (.braces (.expr 9 (.expr 10 .nil)) false .nil)))))))
  trailing := false
  pos := by decide

example : cArray 4 [5] mixedRows.items = some (4, [1, 2, 0, 0, 0, 5, 0, 0, 0, 0, 7, 0, 0, 0, 0, 9, 10, 0, 0, 0]) := by
  decide

theorem regular_followsC_demo : FollowsC mixedRows :=
  regular_followsC mixedRows ⟨by simp [mixedRows, Regular, RowMajor.count, Items.isNil], Or.inr rfl⟩

/-- `int a[2][3] = { 1 };` -/
def firstRow : Init Int := ⟨2, [3], .expr 1 .nil, false, by decide⟩

/-- **A first row that is not filled.** Only the first element of `int a[2][3] = { 1 };` is assigned. -/
theorem first_row_unfilled : ¬ FollowsC firstRow := by
  intro h
  obtain ⟨haccepted, -⟩ := h [.semicolon] (Or.inl rfl)
  have hparse : firstRow.parse [.semicolon] = some (.accepted [2, 3] [([0, 0], 1)]) := by decide
  obtain ⟨n, vs, -, -, hassigns⟩ := haccepted _ _ hparse
  have hmem := (hassigns.all [0, 1]).2 ⟨by decide, by decide, trivial⟩
  exact absurd hmem (by decide)

end OpenHT.Htfe.VarInit
