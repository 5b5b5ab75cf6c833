import Mathlib

/-!
# Vectors of records found by a key

Runtime code often keeps a `Vec` of records, finds one with
`iter().position(|r| r.0 == k)` and takes it out with `remove(pos)`, to change it and push
it back at the end, or to drop it. `extract` does both steps at once. This module says what
they do to the keys of the records and to a sum over the records, for any record type and
key.
-/

namespace KeyedList

variable {α κ : Type*} [DecidableEq κ]

/-- `iter().position(|r| key(r) == k)`: the index of the first record with key `k`. -/
def position (key : α → κ) (k : κ) (l : List α) : Option ℕ := l.findIdx? fun a => key a = k

/-- `position` followed by `remove(pos)`: the first record with key `k` and the vector
without it. -/
def extract (key : α → κ) (k : κ) : List α → Option (α × List α)
  | [] => none
  | a :: l =>
    if key a = k then some (a, l)
    else (extract key k l).map fun r => (r.1, a :: r.2)

variable {key : α → κ} {k : κ} {l l' : List α} {a : α}

@[simp] theorem extract_nil : extract key k [] = none := rfl

theorem extract_cons (b : α) (l : List α) :
    extract key k (b :: l) =
      if key b = k then some (b, l) else (extract key k l).map fun r => (r.1, b :: r.2) := rfl

theorem position_cons (b : α) (l : List α) :
    position key k (b :: l) =
      if key b = k then some 0 else (position key k l).map fun i => i + 1 := by
  simp [position, List.findIdx?_cons]

/-- `extract` is `position` followed by `remove`. -/
theorem extract_eq_position_remove (l : List α) :
    extract key k l = (position key k l).bind fun i => l[i]?.map fun a => (a, l.eraseIdx i) := by
  induction l with
  | nil => rfl
  | cons b l ih =>
    by_cases hb : key b = k
    · simp [extract_cons, position_cons, hb]
    · rw [extract_cons, if_neg hb, ih, position_cons, if_neg hb]
      cases position key k l with
      | none => rfl
      | some i =>
        simp only [Option.bind_some, Option.map_some, List.getElem?_cons_succ,
          List.eraseIdx_cons_succ, Option.map_map]
        rfl

theorem extract_eq_none_iff : extract key k l = none ↔ k ∉ l.map key := by
  induction l with
  | nil => simp
  | cons b l ih =>
    by_cases hb : key b = k
    · simp [extract_cons, hb]
    · simp [extract_cons, hb, ih, Ne.symm hb]

theorem position_eq_none_iff : position key k l = none ↔ k ∉ l.map key := by
  simp [position, List.findIdx?_eq_none_iff]

/-- What `extract` finds has the key looked for, and the vector is that record and the
rest, up to order. -/
theorem extract_spec (h : extract key k l = some (a, l')) : key a = k ∧ l.Perm (a :: l') := by
  induction l generalizing l' with
  | nil => simp at h
  | cons b l ih =>
    by_cases hb : key b = k
    · simp only [extract_cons, hb, ↓reduceIte, Option.some.injEq, Prod.mk.injEq] at h
      obtain ⟨rfl, rfl⟩ := h
      exact ⟨hb, .refl _⟩
    · simp only [extract_cons, hb, ↓reduceIte, Option.map_eq_some_iff] at h
      obtain ⟨⟨a', l''⟩, hex, hr⟩ := h
      simp only [Prod.mk.injEq] at hr
      obtain ⟨rfl, rfl⟩ := hr
      obtain ⟨hk, hperm⟩ := ih hex
      exact ⟨hk, (hperm.cons b).trans (.swap _ _ _)⟩

/-- The vector left by `extract` keeps the order of the others. -/
theorem sublist_of_extract (h : extract key k l = some (a, l')) : l'.Sublist l := by
  induction l generalizing l' with
  | nil => simp at h
  | cons b l ih =>
    by_cases hb : key b = k
    · simp only [extract_cons, hb, ↓reduceIte, Option.some.injEq, Prod.mk.injEq] at h
      obtain ⟨rfl, rfl⟩ := h
      exact List.sublist_cons_self _ _
    · simp only [extract_cons, hb, ↓reduceIte, Option.map_eq_some_iff] at h
      obtain ⟨⟨a', l''⟩, hex, hr⟩ := h
      simp only [Prod.mk.injEq] at hr
      obtain ⟨rfl, rfl⟩ := hr
      exact (ih hex).cons_cons b

section Extracted

variable (h : extract key k l = some (a, l'))
include h

theorem key_of_extract : key a = k := (extract_spec h).1

/-- Taking a record out lowers a sum over the records by that record's term. -/
theorem sum_map_of_extract (f : α → ℕ) : (l.map f).sum = f a + (l'.map f).sum := by
  rw [((extract_spec h).2.map f).sum_eq, List.map_cons, List.sum_cons]

theorem length_of_extract : l.length = l'.length + 1 := by
  rw [(extract_spec h).2.length_eq, List.length_cons]

theorem nodup_keys_of_extract (hnd : (l.map key).Nodup) : (l'.map key).Nodup := by
  have hperm := (extract_spec h).2.map key
  rw [List.map_cons] at hperm
  exact (List.nodup_cons.mp (hperm.nodup_iff.mp hnd)).2

/-- With distinct keys, taking a record out removes exactly its key. -/
theorem mem_keys_of_extract (hnd : (l.map key).Nodup) (x : κ) :
    x ∈ l'.map key ↔ x ∈ l.map key ∧ x ≠ k := by
  have hperm := (extract_spec h).2.map key
  rw [List.map_cons] at hperm
  have hnd' := hperm.nodup_iff.mp hnd
  rw [hperm.mem_iff, List.mem_cons, ← key_of_extract h]
  constructor
  · intro hx
    refine ⟨.inr hx, ?_⟩
    rintro rfl
    exact (List.nodup_cons.mp hnd').1 hx
  · rintro ⟨hx | hx, hne⟩
    · exact absurd hx hne
    · exact hx

end Extracted

omit [DecidableEq κ] in
/-- Pushing a record with a new key keeps the keys distinct. -/
theorem nodup_keys_append (hnd : (l.map key).Nodup) (ha : key a ∉ l.map key) :
    ((l ++ [a]).map key).Nodup := by
  rw [List.map_append, List.map_singleton, List.nodup_append]
  refine ⟨hnd, List.nodup_singleton _, ?_⟩
  intro x hx y hy
  rw [List.mem_singleton] at hy
  rintro rfl
  exact ha (hy ▸ hx)

end KeyedList
