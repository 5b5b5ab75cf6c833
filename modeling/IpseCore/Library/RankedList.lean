import Mathlib

/-!
# Lists ranked by a key

A ranking keeps its entries by non-increasing key. A new entry goes in after every entry of
at least its key, before the first smaller one: the place a linear scan with `>=` finds, so
that ties go after the entries already there. Inserting there keeps the list ranked, and so
does keeping any sublist of it: the entries left when one is taken out, or the first `n` when
the list is cut. A ranking of distinct names, cut to `n` entries after an insertion of a new
name, is again such a ranking.
-/

namespace RankedList

variable {α β γ : Type*} [LinearOrder β] (key : α → β)

/-- Ranked by non-increasing key. -/
def Ranked (l : List α) : Prop := l.Pairwise fun a b => key b ≤ key a

/-- The place of key `k`: after every entry of at least that key before the first smaller
one. -/
def insertIndex (l : List α) (k : β) : ℕ := (l.takeWhile fun a => k ≤ key a).length

/-- Insert `x` at its place. -/
def insert (l : List α) (x : α) : List α := l.insertIdx (insertIndex key l (key x)) x

variable {key}

theorem Ranked.sublist {l l' : List α} (h : Ranked key l) (hsub : l'.Sublist l) :
    Ranked key l' :=
  List.Pairwise.sublist hsub h

theorem insertIndex_le (l : List α) (k : β) : insertIndex key l k ≤ l.length :=
  (List.takeWhile_sublist _).length_le

theorem insertIdx_append_length (l₁ l₂ : List α) (x : α) :
    (l₁ ++ l₂).insertIdx l₁.length x = l₁ ++ x :: l₂ := by
  induction l₁ with
  | nil => simp
  | cons a l ih => simp [ih]

/-- `insert` puts `x` between the entries of at least its key and the rest. -/
theorem insert_eq (l : List α) (x : α) :
    insert key l x =
      l.takeWhile (fun a => key x ≤ key a) ++ x :: l.dropWhile (fun a => key x ≤ key a) := by
  have h := insertIdx_append_length (l.takeWhile fun a => key x ≤ key a)
    (l.dropWhile fun a => key x ≤ key a) x
  rw [List.takeWhile_append_dropWhile] at h
  exact h

theorem perm_insert (l : List α) (x : α) : (insert key l x).Perm (x :: l) :=
  List.perm_insertIdx x l (insertIndex_le l (key x))

theorem length_insert (l : List α) (x : α) : (insert key l x).length = l.length + 1 :=
  (perm_insert l x).length_eq

theorem mem_insert {l : List α} {x y : α} : y ∈ insert key l x ↔ y = x ∨ y ∈ l := by
  rw [(perm_insert l x).mem_iff, List.mem_cons]

/-- Every entry after the place of `x` has a smaller key than `x`. -/
theorem key_lt_of_mem_dropWhile {l : List α} (h : Ranked key l) {x b : α}
    (hb : b ∈ l.dropWhile fun a => key x ≤ key a) : key b < key x := by
  have hdrop : Ranked key (l.dropWhile fun a => key x ≤ key a) :=
    h.sublist (List.dropWhile_suffix _).sublist
  cases hd : l.dropWhile (fun a => key x ≤ key a) with
  | nil =>
    rw [hd] at hb
    cases hb
  | cons d rest =>
    -- the first entry there stopped the scan, and the others rank below it
    have hfirst : key d < key x := by
      have hstop := List.head_dropWhile_not (fun a => decide (key x ≤ key a)) (l := l)
        (by rw [hd]; exact List.cons_ne_nil d rest)
      simp only [hd, List.head_cons, decide_eq_false_iff_not, not_le] at hstop
      exact hstop
    rw [hd] at hb hdrop
    rcases List.mem_cons.mp hb with rfl | hb
    · exact hfirst
    · exact lt_of_le_of_lt (List.rel_of_pairwise_cons hdrop hb) hfirst

/-- Inserting at the place keeps a list ranked. -/
theorem Ranked.insert {l : List α} (h : Ranked key l) (x : α) : Ranked key (insert key l x) := by
  have hsplit := List.takeWhile_append_dropWhile (p := fun a => decide (key x ≤ key a)) (l := l)
  have happ : Ranked key ((l.takeWhile fun a => key x ≤ key a) ++
      (l.dropWhile fun a => key x ≤ key a)) := by
    rw [hsplit]
    exact h
  obtain ⟨htake, hdrop, hcross⟩ := List.pairwise_append.mp happ
  rw [insert_eq]
  refine List.pairwise_append.mpr
    ⟨htake, List.pairwise_cons.mpr ⟨fun b hb => (key_lt_of_mem_dropWhile h hb).le, hdrop⟩, ?_⟩
  intro a ha b hb
  rcases List.mem_cons.mp hb with rfl | hb
  · -- an entry before the place has at least the key of `x`
    have hpa := List.mem_takeWhile_imp ha
    exact of_decide_eq_true hpa
  · exact hcross a ha b hb

/-- A ranking of distinct names within `n` entries. -/
structure Bounded (key : α → β) (name : α → γ) (n : ℕ) (l : List α) : Prop where
  ranked : Ranked key l
  nodup : (l.map name).Nodup
  length_le : l.length ≤ n

variable {name : α → γ} {n : ℕ}

theorem Bounded.sublist {l l' : List α} (h : Bounded key name n l) (hsub : l'.Sublist l) :
    Bounded key name n l' where
  ranked := h.ranked.sublist hsub
  nodup := h.nodup.sublist (hsub.map name)
  length_le := hsub.length_le.trans h.length_le

/-- The first `n` entries of a ranking of distinct names, with `x` inserted at its place or
not, when the name of `x` is new. -/
theorem bounded_take_insert {l : List α} (hl : Ranked key l) (hnd : (l.map name).Nodup)
    {x : α} (hx : name x ∉ l.map name) (p : Prop) [Decidable p] :
    Bounded key name n ((if p then insert key l x else l).take n) := by
  -- before the cut the list is ranked, of distinct names
  have hfull : Ranked key (if p then insert key l x else l) ∧
      ((if p then insert key l x else l).map name).Nodup := by
    split_ifs
    · refine ⟨hl.insert x, ?_⟩
      exact (((perm_insert l x).map name).nodup_iff).mpr (List.nodup_cons.mpr ⟨hx, hnd⟩)
    · exact ⟨hl, hnd⟩
  have hsub := List.take_sublist n (if p then insert key l x else l)
  exact ⟨hfull.1.sublist hsub, hfull.2.sublist (hsub.map name), List.length_take_le _ _⟩

/-- What is left of such a list is `x` or an entry of `l`. -/
theorem mem_of_mem_take_insert {l : List α} {x y : α} {p : Prop} [Decidable p]
    (hy : y ∈ (if p then insert key l x else l).take n) : y = x ∨ y ∈ l := by
  have hy' := List.mem_of_mem_take hy
  split_ifs at hy'
  · exact mem_insert.mp hy'
  · exact .inr hy'

end RankedList
