import Mathlib.Data.List.Forall2

/-!
# Values shared by key

A table makes the value of a request the first time that it sees the request's key, and later requests with this key
share the value.

* `insert`, `shared`: one request, and the values that a sequence of requests gets.
* `first`: the first request with the key of another.
* `shared_eq`: every request gets the value of the first one with its key.
* `forall₂_shared_iff`: when every value suits its request.
-/

namespace OpenHT.Intern

variable {κ τ δ : Type} [DecidableEq κ]

/-- The value under a key, made when there is none. -/
def insert (tbl : List (κ × τ)) (k : κ) (new : τ) : τ × List (κ × τ) :=
  match tbl.lookup k with
  | some t => (t, tbl)
  | none => (new, tbl ++ [(k, new)])

/-- The values that the requests get. -/
def shared (key : δ → κ) (make : δ → τ) : List (κ × τ) → List δ → List τ
  | _, [] => []
  | tbl, d :: ds =>
    let r := insert tbl (key d) (make d)
    r.1 :: shared key make r.2 ds

/-- The first of the requests with a key. -/
def first (key : δ → κ) (ds : List δ) (d : δ) : δ := (ds.find? fun e => key e = key d).getD d

variable {key : δ → κ} {make : δ → τ}

/-- The table after the requests `ds`. -/
def Holds (key : δ → κ) (make : δ → τ) (tbl : List (κ × τ)) (ds : List δ) : Prop :=
  ∀ k, tbl.lookup k = (ds.find? fun e => key e = k).map make

theorem insert_fst {tbl : List (κ × τ)} {ds : List δ} (h : Holds key make tbl ds) (d : δ) :
    (insert tbl (key d) (make d)).1 = make (first key ds d) := by
  have hd := h (key d)
  unfold insert first
  cases hf : ds.find? fun e => key e = key d with
  | none => simp [hd, hf]
  | some e => simp [hd, hf]

theorem Holds.insert {tbl : List (κ × τ)} {ds : List δ} (h : Holds key make tbl ds) (d : δ) :
    Holds key make (insert tbl (key d) (make d)).2 (ds ++ [d]) := by
  intro k
  have hk := h k
  have hd := h (key d)
  rw [List.find?_append]
  cases hf : ds.find? fun e => key e = key d with
  | some e =>
    -- The key is known, and a later request does not change what is found.
    have hsnd : (Intern.insert tbl (key d) (make d)).2 = tbl := by simp [Intern.insert, hd, hf]
    rw [hsnd, hk]
    by_cases hkd : key d = k
    · subst hkd
      simp [hf]
    · simp [hkd]
  | none =>
    have hsnd : (Intern.insert tbl (key d) (make d)).2 = tbl ++ [(key d, make d)] := by
      simp [Intern.insert, hd, hf]
    rw [hsnd, List.lookup_append, hk]
    by_cases hkd : key d = k
    · subst hkd
      simp [hf]
    · have hne : (k == key d) = false := by simpa using fun h => hkd h.symm
      simp [hkd, hne, List.lookup_cons]

/-- **Every request gets the value of the first one with its key.** -/
theorem shared_append {tbl : List (κ × τ)} {pre : List δ} (h : Holds key make tbl pre) (ds : List δ) :
    shared key make tbl ds = ds.map fun d => make (first key (pre ++ ds) d) := by
  induction ds generalizing tbl pre with
  | nil => rfl
  | cons d ds ih =>
    have htail := ih (h.insert d)
    have hhead : first key (pre ++ d :: ds) d = first key pre d := by
      unfold first
      rw [List.find?_append]
      cases pre.find? fun e => key e = key d with
      | none => simp
      | some e => simp
    simp only [shared, List.map_cons, insert_fst h d, htail, hhead, List.append_assoc, List.singleton_append]

theorem shared_eq (ds : List δ) : shared key make [] ds = ds.map fun d => make (first key ds d) := by
  have hempty : Holds key make ([] : List (κ × τ)) [] := fun _ => rfl
  exact shared_append hempty ds

theorem key_first (ds : List δ) (d : δ) : key (first key ds d) = key d := by
  unfold first
  cases h : ds.find? fun e => key e = key d with
  | none => rfl
  | some e => simpa using List.find?_some h

theorem first_mem {ds : List δ} {d : δ} (h : d ∈ ds) : first key ds d ∈ ds := by
  unfold first
  cases hf : ds.find? fun e => key e = key d with
  | none => exact h
  | some e => exact List.mem_of_find?_eq_some hf

/-- Requests with one key have one first request. -/
theorem first_congr {ds : List δ} {d₁ d₂ : δ} (h₁ : d₁ ∈ ds) (h : key d₁ = key d₂) :
    first key ds d₁ = first key ds d₂ := by
  unfold first
  rw [h]
  cases hf : ds.find? fun e => key e = key d₂ with
  | some e => rfl
  | none => exact absurd h (by simpa using List.find?_eq_none.1 hf d₁ h₁)

theorem forall₂_shared_iff (R : τ → δ → Prop) (ds : List δ) :
    List.Forall₂ R (shared key make [] ds) ds ↔ ∀ d ∈ ds, R (make (first key ds d)) d := by
  rw [shared_eq, List.forall₂_map_left_iff, List.forall₂_same]

end OpenHT.Intern
