import IpseCore.PocStaking.Model

/-!
# The staking ledger

The books of PocStaking are three maps kept in step: which miners are registered, each
miner's `total_staking` and list of stakers `(staker, bond, deposit)`, and `MinersOf`, the
miners each user stakes on. `LedgerView` is that part of the storage, and `LedgerView.Inv`
what keeps it consistent: the total is the sum of the bonds, stakers are distinct with
positive bonds and at most `StakerMaxNumber` of them, and `MinersOf` is the inverse of the
staker lists.

Four operations change the books: registering a miner, adding a staker, replacing a
staker's entry with a new bond, and removing a staker. Each keeps the invariant under the
conditions the pallet checks. Every call of the pallet acts on the books as one of them or
not at all, so the invariant holds in every reachable state.
-/

namespace IpseCore.PocStaking

/-- The bond of a staker's entry `(staker, bond, deposit)`. -/
def bondOf {A : Type} (e : A × ℕ × ℕ) : ℕ := e.2.1

/-- The books of the pallet. -/
@[ext] structure LedgerView (A : Type) where
  /-- Whether a miner is registered (`DiskOf` has an entry). -/
  registered : A → Bool
  /-- `total_staking` and `others` of a miner's `StakingInfoOf`. -/
  books : A → Option (ℕ × List (A × ℕ × ℕ))
  /-- `MinersOf`. -/
  minersOf : A → List A

/-- A miner's books balance: the total is the sum of the bonds, the stakers are distinct,
every bond is positive, and there are at most `StakerMaxNumber` stakers. -/
structure BooksWellFormed {A : Type} (c : Config) (total : ℕ) (others : List (A × ℕ × ℕ)) :
    Prop where
  total_eq : total = (others.map bondOf).sum
  nodup : (others.map Prod.fst).Nodup
  bond_pos : ∀ e ∈ others, 0 < bondOf e
  length_le : others.length ≤ c.stakerMaxNumber

namespace LedgerView

variable {A : Type} [DecidableEq A]

/-- The stakers of a miner, none when it has no books. -/
def stakers (v : LedgerView A) (m : A) : List A :=
  match v.books m with
  | some (_, others) => others.map Prod.fst
  | none => []

/-- The consistency of the books. -/
structure Inv (c : Config) (v : LedgerView A) : Prop where
  registered_eq : ∀ m, v.registered m = (v.books m).isSome
  wellFormed : ∀ m total others, v.books m = some (total, others) →
    BooksWellFormed c total others
  minersOf_iff : ∀ st m, m ∈ v.minersOf st ↔ st ∈ v.stakers m
  minersOf_nodup : ∀ st, (v.minersOf st).Nodup

/-- Register a miner with empty books. -/
def register (v : LedgerView A) (miner : A) : LedgerView A :=
  { v with registered := Function.update v.registered miner true,
           books := Function.update v.books miner (some (0, [])) }

/-- Store a miner's total and stakers. -/
def setBooks (v : LedgerView A) (miner : A) (total : ℕ) (others : List (A × ℕ × ℕ)) :
    LedgerView A :=
  { v with books := Function.update v.books miner (some (total, others)) }

/-- Record that `staker` stakes on `miner`. -/
def addMiner (v : LedgerView A) (staker miner : A) : LedgerView A :=
  { v with minersOf := Function.update v.minersOf staker (v.minersOf staker ++ [miner]) }

/-- Forget that `staker` stakes on `miner`. -/
def removeMiner (v : LedgerView A) (staker miner : A) : LedgerView A :=
  { v with minersOf :=
      Function.update v.minersOf staker ((v.minersOf staker).filter (· ≠ miner)) }

section Fields

variable (v : LedgerView A) (miner staker : A) (total : ℕ) (others : List (A × ℕ × ℕ))

@[simp] theorem registered_register_self : (v.register miner).registered miner = true := by
  simp [register]

@[simp] theorem books_register_self : (v.register miner).books miner = some (0, []) := by
  simp [register]

theorem registered_register_of_ne {m : A} (hm : m ≠ miner) :
    (v.register miner).registered m = v.registered m := by
  simp [register, hm]

theorem books_register_of_ne {m : A} (hm : m ≠ miner) :
    (v.register miner).books m = v.books m := by
  simp [register, hm]

@[simp] theorem minersOf_register : (v.register miner).minersOf = v.minersOf := rfl

@[simp] theorem registered_setBooks :
    (v.setBooks miner total others).registered = v.registered := rfl

@[simp] theorem books_setBooks_self :
    (v.setBooks miner total others).books miner = some (total, others) := by
  simp [setBooks]

theorem books_setBooks_of_ne {m : A} (hm : m ≠ miner) :
    (v.setBooks miner total others).books m = v.books m := by
  simp [setBooks, hm]

@[simp] theorem minersOf_setBooks : (v.setBooks miner total others).minersOf = v.minersOf := rfl

@[simp] theorem registered_addMiner : (v.addMiner staker miner).registered = v.registered := rfl

@[simp] theorem books_addMiner : (v.addMiner staker miner).books = v.books := rfl

@[simp] theorem minersOf_addMiner_self :
    (v.addMiner staker miner).minersOf staker = v.minersOf staker ++ [miner] := by
  simp [addMiner]

theorem minersOf_addMiner_of_ne {st : A} (hst : st ≠ staker) :
    (v.addMiner staker miner).minersOf st = v.minersOf st := by
  simp [addMiner, hst]

@[simp] theorem registered_removeMiner :
    (v.removeMiner staker miner).registered = v.registered := rfl

@[simp] theorem books_removeMiner : (v.removeMiner staker miner).books = v.books := rfl

@[simp] theorem minersOf_removeMiner_self :
    (v.removeMiner staker miner).minersOf staker = (v.minersOf staker).filter (· ≠ miner) := by
  simp [removeMiner]

theorem minersOf_removeMiner_of_ne {st : A} (hst : st ≠ staker) :
    (v.removeMiner staker miner).minersOf st = v.minersOf st := by
  simp [removeMiner, hst]

@[simp] theorem removeMiner_removeMiner :
    (v.removeMiner staker miner).removeMiner staker miner = v.removeMiner staker miner := by
  ext m
  · rfl
  · rfl
  · by_cases hm : m = staker
    · subst hm
      simp [List.filter_filter]
    · simp [minersOf_removeMiner_of_ne _ _ _ hm]

@[simp] theorem stakers_addMiner : (v.addMiner staker miner).stakers = v.stakers := rfl

@[simp] theorem stakers_removeMiner : (v.removeMiner staker miner).stakers = v.stakers := rfl

@[simp] theorem stakers_setBooks_self :
    (v.setBooks miner total others).stakers miner = others.map Prod.fst := by
  simp [stakers]

theorem stakers_setBooks_of_ne {m : A} (hm : m ≠ miner) :
    (v.setBooks miner total others).stakers m = v.stakers m := by
  simp only [stakers, books_setBooks_of_ne v miner total others hm]

end Fields

omit [DecidableEq A] in
theorem stakers_of_books {v : LedgerView A} {m : A} {total : ℕ} {others : List (A × ℕ × ℕ)}
    (h : v.books m = some (total, others)) : v.stakers m = others.map Prod.fst := by
  simp [stakers, h]

omit [DecidableEq A] in
theorem stakers_of_books_none {v : LedgerView A} {m : A} (h : v.books m = none) :
    v.stakers m = [] := by
  simp [stakers, h]

variable {c : Config} {v : LedgerView A} {miner staker : A} {total : ℕ}
  {all others : List (A × ℕ × ℕ)}

/-- Registering a miner that is not registered keeps the books consistent. -/
theorem Inv.register (h : Inv c v) (hnew : v.registered miner = false) :
    Inv c (v.register miner) := by
  have hnone : v.books miner = none := by
    simpa [h.registered_eq miner] using hnew
  have hstakers : ∀ m, (v.register miner).stakers m = v.stakers m := by
    intro m
    by_cases hm : m = miner
    · subst hm
      simp [stakers, hnone]
    · simp only [stakers, books_register_of_ne v miner hm]
  refine ⟨?_, ?_, ?_, h.minersOf_nodup⟩
  · intro m
    by_cases hm : m = miner
    · subst hm
      simp
    · rw [registered_register_of_ne v miner hm, books_register_of_ne v miner hm,
        h.registered_eq m]
  · intro m total' others' hb
    by_cases hm : m = miner
    · subst hm
      simp only [books_register_self, Option.some.injEq, Prod.mk.injEq] at hb
      obtain ⟨rfl, rfl⟩ := hb
      exact ⟨rfl, List.nodup_nil, by simp, by simp⟩
    · rw [books_register_of_ne v miner hm] at hb
      exact h.wellFormed m total' others' hb
  · intro st m
    rw [hstakers]
    exact h.minersOf_iff st m

/-- Adding a new staker with a positive bond to a miner with room keeps the books
consistent. -/
theorem Inv.addStaker (h : Inv c v) (hbooks : v.books miner = some (total, others))
    (hfresh : staker ∉ others.map Prod.fst) (hlen : others.length < c.stakerMaxNumber)
    {amount : ℕ} (hpos : 0 < amount) (d : ℕ) :
    Inv c ((v.setBooks miner (total + amount) (others ++ [(staker, amount, d)])).addMiner
      staker miner) := by
  have hwf := h.wellFormed miner total others hbooks
  have hmissing : miner ∉ v.minersOf staker := by
    rw [h.minersOf_iff, stakers_of_books hbooks]
    exact hfresh
  refine ⟨?_, ?_, ?_, ?_⟩
  · intro m
    by_cases hm : m = miner
    · subst hm
      simp [h.registered_eq, hbooks]
    · simp [books_setBooks_of_ne v miner _ _ hm, h.registered_eq m]
  · intro m total' others' hb
    by_cases hm : m = miner
    · subst hm
      simp only [books_addMiner, books_setBooks_self, Option.some.injEq, Prod.mk.injEq] at hb
      obtain ⟨rfl, rfl⟩ := hb
      refine ⟨?_, KeyedList.nodup_keys_append hwf.nodup hfresh, ?_, ?_⟩
      · simp [hwf.total_eq, bondOf]
      · intro e he
        rcases List.mem_append.mp he with he | he
        · exact hwf.bond_pos e he
        · rw [List.mem_singleton] at he
          subst he
          exact hpos
      · simp only [List.length_append, List.length_singleton]
        omega
    · rw [books_addMiner, books_setBooks_of_ne v miner _ _ hm] at hb
      exact h.wellFormed m total' others' hb
  · intro st m
    by_cases hst : st = staker <;> by_cases hm : m = miner
    · subst hst hm
      simp
    · subst hst
      simp [stakers_setBooks_of_ne v miner _ _ hm, hm, h.minersOf_iff]
    · subst hm
      simp [minersOf_addMiner_of_ne _ _ _ hst, hst, h.minersOf_iff, stakers_of_books hbooks]
    · simp [minersOf_addMiner_of_ne _ _ _ hst, stakers_setBooks_of_ne v miner _ _ hm,
        h.minersOf_iff]
  · intro st
    by_cases hst : st = staker
    · subst hst
      rw [minersOf_addMiner_self, List.nodup_append]
      refine ⟨h.minersOf_nodup st, List.nodup_singleton _, ?_⟩
      intro a ha b hb
      rw [List.mem_singleton] at hb
      rintro rfl
      exact hmissing (hb ▸ ha)
    · rw [minersOf_addMiner_of_ne _ _ _ hst]
      exact h.minersOf_nodup st

section Extracted

variable {e : A × ℕ × ℕ} (h : Inv c v) (hbooks : v.books miner = some (total, all))
  (hex : KeyedList.extract Prod.fst staker all = some (e, others))
include h hbooks hex

/-- The books of the miner with the staker's entry taken out, before the new total is
stored: its stakers are distinct, their bonds positive, and they are fewer than before. -/
theorem wellFormed_of_extract :
    total = bondOf e + (others.map bondOf).sum ∧ (others.map Prod.fst).Nodup ∧
      staker ∉ others.map Prod.fst ∧ (∀ e' ∈ others, 0 < bondOf e') ∧
      others.length + 1 ≤ c.stakerMaxNumber := by
  have hwf := h.wellFormed miner total all hbooks
  have hnodup := KeyedList.nodup_keys_of_extract hex hwf.nodup
  have hgone : staker ∉ others.map Prod.fst := by
    rw [KeyedList.mem_keys_of_extract hex hwf.nodup]
    exact fun hs => hs.2 rfl
  have hperm := (KeyedList.extract_spec hex).2
  refine ⟨?_, hnodup, hgone, ?_, ?_⟩
  · rw [hwf.total_eq, KeyedList.sum_map_of_extract hex]
  · intro e' he'
    exact hwf.bond_pos e' (hperm.mem_iff.mpr (List.mem_cons_of_mem e he'))
  · rw [← KeyedList.length_of_extract hex]
    exact hwf.length_le

/-- Pushing the staker back with a new positive bond, the total moved by the same amount,
keeps the books consistent. -/
theorem Inv.replaceStaker {nowBond nowStaking : ℕ}
    (htotal : nowStaking + bondOf e = total + nowBond) (hpos : 0 < nowBond) (d : ℕ) :
    Inv c (v.setBooks miner nowStaking (others ++ [(staker, nowBond, d)])) := by
  obtain ⟨htotal_eq, hnodup, hgone, hbond, hlen⟩ := wellFormed_of_extract h hbooks hex
  have hkey := KeyedList.key_of_extract hex
  have hperm := (KeyedList.extract_spec hex).2.map Prod.fst
  -- the stakers are the same as before, the replaced one now at the end
  have hsame : ∀ st, st ∈ (others ++ [(staker, nowBond, d)]).map Prod.fst ↔ st ∈ all.map Prod.fst := by
    intro st
    rw [hperm.mem_iff]
    simp [hkey, or_comm]
  refine ⟨?_, ?_, ?_, h.minersOf_nodup⟩
  · intro m
    by_cases hm : m = miner
    · subst hm
      simp [h.registered_eq, hbooks]
    · simp [books_setBooks_of_ne v miner _ _ hm, h.registered_eq m]
  · intro m total' others' hb
    by_cases hm : m = miner
    · subst hm
      simp only [books_setBooks_self, Option.some.injEq, Prod.mk.injEq] at hb
      obtain ⟨rfl, rfl⟩ := hb
      refine ⟨?_, KeyedList.nodup_keys_append hnodup hgone, ?_, ?_⟩
      · simp only [List.map_append, List.sum_append, List.map_singleton, List.sum_singleton]
        simp only [bondOf] at htotal htotal_eq ⊢
        omega
      · intro e' he'
        rcases List.mem_append.mp he' with he' | he'
        · exact hbond e' he'
        · rw [List.mem_singleton] at he'
          subst he'
          exact hpos
      · simpa using hlen
    · rw [books_setBooks_of_ne v miner _ _ hm] at hb
      exact h.wellFormed m total' others' hb
  · intro st m
    by_cases hm : m = miner
    · subst hm
      rw [stakers_setBooks_self, hsame, minersOf_setBooks, h.minersOf_iff,
        stakers_of_books hbooks]
    · rw [stakers_setBooks_of_ne v miner _ _ hm, minersOf_setBooks]
      exact h.minersOf_iff st m

/-- Dropping the staker, the total lowered by its bond, and forgetting the miner in the
staker's `MinersOf` keeps the books consistent. -/
theorem Inv.removeStaker {nowStaking : ℕ} (htotal : nowStaking + bondOf e = total) :
    Inv c ((v.setBooks miner nowStaking others).removeMiner staker miner) := by
  obtain ⟨htotal_eq, hnodup, hgone, hbond, hlen⟩ := wellFormed_of_extract h hbooks hex
  have hwf := h.wellFormed miner total all hbooks
  refine ⟨?_, ?_, ?_, ?_⟩
  · intro m
    by_cases hm : m = miner
    · subst hm
      simp [h.registered_eq, hbooks]
    · simp [books_setBooks_of_ne v miner _ _ hm, h.registered_eq m]
  · intro m total' others' hb
    by_cases hm : m = miner
    · subst hm
      simp only [books_removeMiner, books_setBooks_self, Option.some.injEq, Prod.mk.injEq] at hb
      obtain ⟨rfl, rfl⟩ := hb
      exact ⟨by omega, hnodup, hbond, by omega⟩
    · rw [books_removeMiner, books_setBooks_of_ne v miner _ _ hm] at hb
      exact h.wellFormed m total' others' hb
  · intro st m
    by_cases hst : st = staker <;> by_cases hm : m = miner
    · subst hst hm
      simp [hgone]
    · subst hst
      simp [stakers_setBooks_of_ne v miner _ _ hm, hm, h.minersOf_iff]
    · subst hm
      simp only [minersOf_removeMiner_of_ne _ _ _ hst, minersOf_setBooks, stakers_removeMiner,
        stakers_setBooks_self, KeyedList.mem_keys_of_extract hex hwf.nodup, h.minersOf_iff,
        stakers_of_books hbooks]
      exact ⟨fun hs => ⟨hs, hst⟩, fun hs => hs.1⟩
    · simp [minersOf_removeMiner_of_ne _ _ _ hst, stakers_setBooks_of_ne v miner _ _ hm,
        h.minersOf_iff]
  · intro st
    by_cases hst : st = staker
    · subst hst
      rw [minersOf_removeMiner_self]
      exact (h.minersOf_nodup st).filter _
    · rw [minersOf_removeMiner_of_ne _ _ _ hst]
      exact h.minersOf_nodup st

end Extracted

end LedgerView

end IpseCore.PocStaking
