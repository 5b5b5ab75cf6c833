import IpseCore.Balances

/-!
# Balance locks

`set_lock`, `extend_lock` and IPSE's `lock_add_amount` and `lock_sub_amount` share one body:
the first lock with the id absorbs the new lock, the later locks with that id are dropped, and
the new lock is pushed when no lock had the id. What a lock of an id amounts to after each
setter is therefore the combination with the first lock of that id, or the new lock itself.

For `set_lock` and the two raising setters the push is what is wanted. For `lock_sub_amount`
it is not: on an account without a lock of the id, subtracting an amount locks that amount.
-/

namespace IpseCore.Balances

open Unsigned

variable {A : Type} [DecidableEq A]

/-- The amount of the first lock with id `id`, `0` when there is none. -/
def lockAmount (id : LockIdentifier) (locks : List BalanceLock) : ℕ :=
  ((locks.find? fun l => l.id = id).map BalanceLock.amount).getD 0

/-- The greatest amount of the locks whose reasons `update_locks` counts for `r`. -/
def frozenOf (r : Reasons) (locks : List BalanceLock) : ℕ :=
  locks.foldl (fun m l => if l.reasons = .All ∨ l.reasons = r then max m l.amount else m) 0

section Merge

variable (combine : BalanceLock → BalanceLock → BalanceLock) (id : LockIdentifier)

theorem mergeLock_none_of_forall_ne {ls : List BalanceLock} (h : ∀ l ∈ ls, l.id ≠ id) :
    mergeLock combine id ls none = ls := by
  induction ls with
  | nil => rfl
  | cons l ls ih =>
    rw [mergeLock, if_neg (h l List.mem_cons_self), ih fun l' hl' => h l' (List.mem_cons_of_mem _ hl')]

/-- Without a lock of the id, the new lock is pushed behind the others. -/
theorem mergeLock_of_forall_ne {ls : List BalanceLock} (h : ∀ l ∈ ls, l.id ≠ id)
    (new : BalanceLock) : mergeLock combine id ls (some new) = ls ++ [new] := by
  induction ls with
  | nil => rfl
  | cons l ls ih =>
    rw [mergeLock, if_neg (h l List.mem_cons_self), ih fun l' hl' => h l' (List.mem_cons_of_mem _ hl')]
    rfl

/-- The first lock with the id after a merge: the first one before, combined with the new
lock, or the new lock when there was none. The combination with the new lock must keep the
id. -/
theorem find?_mergeLock {new : BalanceLock}
    (hcombine : ∀ l, l.id = id → (combine l new).id = id) (hnew : new.id = id)
    (ls : List BalanceLock) :
    (mergeLock combine id ls (some new)).find? (fun l => l.id = id) =
      some (((ls.find? fun l => l.id = id).map fun l => combine l new).getD new) := by
  induction ls with
  | nil => simp [mergeLock, hnew]
  | cons l ls ih =>
    by_cases hl : l.id = id
    · rw [mergeLock, if_pos hl]
      simp [hl, hcombine l hl]
    · rw [mergeLock, if_neg hl]
      simp [hl, ih]

end Merge

/-- The amount of the lock of the id after a change with an amount and reasons. -/
theorem lockAmount_changeLock (combine : BalanceLock → BalanceLock → BalanceLock) (ed : ℕ)
    (s : State A) (id : LockIdentifier) (who : A) (amount : ℕ) (reasons : WithdrawReasons)
    (hcombine : ∀ l, l.id = id → (combine l ⟨id, amount, .ofWithdrawReasons reasons⟩).id = id) :
    lockAmount id ((changeLock combine ed s id who amount reasons).locks who) =
      if amount = 0 ∨ reasons = ∅ then lockAmount id (s.locks who)
      else ((((s.locks who).find? fun l => l.id = id).map fun l =>
        combine l ⟨id, amount, .ofWithdrawReasons reasons⟩).getD
          ⟨id, amount, .ofWithdrawReasons reasons⟩).amount := by
  unfold changeLock
  split_ifs with h
  · rfl
  · simp only [updateLocks, Function.update_self, lockAmount]
    rw [find?_mergeLock combine id hcombine rfl]
    rfl

/-- A change of one account's lock leaves the locks of every other account. -/
theorem changeLock_locks_of_ne (combine : BalanceLock → BalanceLock → BalanceLock) (ed : ℕ)
    (s : State A) (id : LockIdentifier) {who who' : A} (h : who' ≠ who) (amount : ℕ)
    (reasons : WithdrawReasons) : (changeLock combine ed s id who amount reasons).locks who' = s.locks who' := by
  unfold changeLock
  split_ifs
  · rfl
  · simp [updateLocks, Function.update_of_ne h]

/-- `lock_sub_amount` of at most what the lock of the id holds lowers that lock by exactly the
amount. -/
theorem lockAmount_lockSubAmount (ed : ℕ) (s : State A) (id : LockIdentifier) (who : A)
    {amount : ℕ} (hle : amount ≤ lockAmount id (s.locks who)) {reasons : WithdrawReasons}
    (hreasons : reasons ≠ ∅) :
    lockAmount id ((lockSubAmount ed s id who amount reasons).locks who) =
      lockAmount id (s.locks who) - amount := by
  rw [lockSubAmount, lockAmount_changeLock _ _ _ _ _ _ _ (fun _ h => h)]
  split_ifs with hchange
  · rcases hchange with rfl | hempty
    · rw [Nat.sub_zero]
    · exact absurd hempty hreasons
  · -- a positive amount below the lock's: there is a lock of the id, and it is lowered
    have hpos : 0 < amount := Nat.pos_of_ne_zero (not_or.mp hchange).1
    cases hfind : (s.locks who).find? fun l => l.id = id with
    | none => simp [lockAmount, hfind] at hle; omega
    | some l =>
      have hl : lockAmount id (s.locks who) = l.amount := by simp [lockAmount, hfind]
      rw [hl]
      rfl

theorem accountOf_postMutation_self (ed : ℕ) (s : State A) (who : A) {new : AccountData}
    (h : ¬new.total < ed) : accountOf (postMutation ed s who new) who = new := by
  rw [postMutation, if_neg h]
  simp [accountOf]

/-- What `update_locks` stores for an account that stays alive: the frozen amounts of the
new locks. -/
theorem accountOf_updateLocks (ed : ℕ) (s : State A) (who : A) (locks : List BalanceLock)
    (halive : ed ≤ (accountOf s who).total) :
    accountOf (updateLocks ed s who locks) who =
      { accountOf s who with miscFrozen := frozenOf .Misc locks, feeFrozen := frozenOf .Fee locks } :=
  accountOf_postMutation_self ed s who (not_lt.mpr halive)

/-- A lock counted for `r` and pushed last bounds what is frozen for `r` from below. -/
theorem le_frozenOf_append (r : Reasons) (ls : List BalanceLock) (l : BalanceLock)
    (hl : l.reasons = .All ∨ l.reasons = r) : l.amount ≤ frozenOf r (ls ++ [l]) := by
  rw [frozenOf, List.foldl_append, List.foldl_cons, List.foldl_nil, if_pos hl]
  exact le_max_right _ _

/-- `lock_sub_amount` on an account without a lock of the id locks the amount it was to
release: the new lock is pushed behind the others, and when the account stays alive, what
is frozen for the lock's reasons rises to at least that amount. -/
theorem lockSubAmount_locks_absent (ed : ℕ) (s : State A) (id : LockIdentifier) (who : A)
    {amount : ℕ} (hamount : 0 < amount) {reasons : WithdrawReasons} (hreasons : reasons ≠ ∅)
    (habsent : ∀ l ∈ s.locks who, l.id ≠ id) :
    (lockSubAmount ed s id who amount reasons).locks who =
        s.locks who ++ [⟨id, amount, .ofWithdrawReasons reasons⟩] ∧
      (ed ≤ (accountOf s who).total →
        (Reasons.ofWithdrawReasons reasons ≠ .Fee →
          amount ≤ (accountOf (lockSubAmount ed s id who amount reasons) who).miscFrozen) ∧
        (Reasons.ofWithdrawReasons reasons ≠ .Misc →
          amount ≤ (accountOf (lockSubAmount ed s id who amount reasons) who).feeFrozen)) := by
  have hchange : ¬(amount = 0 ∨ reasons = ∅) := not_or.mpr ⟨by omega, hreasons⟩
  have hmerge := mergeLock_of_forall_ne (fun l new => ⟨l.id, saturatingSub l.amount new.amount,
    l.reasons.bitor new.reasons⟩) id habsent ⟨id, amount, .ofWithdrawReasons reasons⟩
  have hsub : lockSubAmount ed s id who amount reasons =
      updateLocks ed s who (s.locks who ++ [⟨id, amount, .ofWithdrawReasons reasons⟩]) := by
    rw [lockSubAmount, changeLock, if_neg hchange, hmerge]
  refine ⟨by rw [hsub]; simp [updateLocks], fun halive => ?_⟩
  rw [hsub, accountOf_updateLocks ed s who _ halive]
  -- the reasons of a lock are one of the three, and only `Fee` escapes `misc_frozen`
  constructor
  · intro hfee
    refine le_frozenOf_append .Misc (s.locks who) ⟨id, amount, .ofWithdrawReasons reasons⟩ ?_
    cases h : Reasons.ofWithdrawReasons reasons <;> simp_all
  · intro hmisc
    refine le_frozenOf_append .Fee (s.locks who) ⟨id, amount, .ofWithdrawReasons reasons⟩ ?_
    cases h : Reasons.ofWithdrawReasons reasons <;> simp_all

/-- Account 1 holds 100 and no lock. Releasing 50 from its lock `pocstake` locks 50: the
account gets a lock of 50, and 50 of its balance is frozen for transfers and reserves. -/
theorem lockSubAmount_locks_unlocked_account :
    let s : State ℕ := ⟨fun a => if a = 1 then some ⟨100, 0, 0, 0⟩ else none, fun _ => [], 100⟩
    let reasons : WithdrawReasons := {.Transfer, .Reserve}
    s.locks 1 = [] ∧ (accountOf s 1).miscFrozen = 0 ∧
    (lockSubAmount 1 s "pocstake" 1 50 reasons).locks 1 =
        s.locks 1 ++ [⟨"pocstake", 50, .ofWithdrawReasons reasons⟩] ∧
      (1 ≤ (accountOf s 1).total →
        (Reasons.ofWithdrawReasons reasons ≠ .Fee →
          50 ≤ (accountOf (lockSubAmount 1 s "pocstake" 1 50 reasons) 1).miscFrozen) ∧
        (Reasons.ofWithdrawReasons reasons ≠ .Misc →
          50 ≤ (accountOf (lockSubAmount 1 s "pocstake" 1 50 reasons) 1).feeFrozen)) :=
  ⟨rfl, rfl, lockSubAmount_locks_absent 1 _ "pocstake" 1 (by decide) (by decide) (by simp)⟩

end IpseCore.Balances
