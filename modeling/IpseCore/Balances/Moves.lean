import Mathlib.Logic.Relation
import IpseCore.Balances

/-!
# What the IPSE pallets do to balances

The IPSE pallets reach Balances through two traits. Through `ReservableCurrency` they reserve,
release, slash and repatriate reserved funds; through `LockableCurrency` they set and change
locks, which all end in `update_locks`. None of these calls mints: each keeps the total issuance
or lowers it, when `post_mutation` reaps an account below the existential deposit or a slash is
dropped. `Reservable` and `Op` are these calls as steps between states of the pallet, and
`Moves` any sequence of them. A pallet whose every call is such a sequence never raises the total
issuance, and one that only calls `ReservableCurrency` never changes a lock.

PoC's rewards are the one place where the IPSE runtime mints, through `deposit_creating`, which
is not among these steps.
-/

namespace IpseCore.Balances

variable {A : Type} [DecidableEq A]

/-- One call of `ReservableCurrency`, at any existential deposit. A slash is dropped at once,
as PocStaking's `StakingSlash` does. -/
inductive Reservable : State A → State A → Prop
  | reserve (ed : ℕ) (s : State A) (who : A) (value : ℕ) :
      Reservable s (reserve ed s who value).state
  | unreserve (ed : ℕ) (s : State A) (who : A) (value : ℕ) :
      Reservable s (unreserve ed s who value).2
  | slashReserved (ed : ℕ) (s : State A) (who : A) (value : ℕ) :
      Reservable s (dropNegative (slashReserved ed s who value).2 (slashReserved ed s who value).1.1)
  | repatriateReserved (ed : ℕ) (s : State A) (slashed beneficiary : A) (value : ℕ)
      (status : BalanceStatus) :
      Reservable s (repatriateReserved ed s slashed beneficiary value status).2

/-- One call of `ReservableCurrency` or `LockableCurrency`. -/
inductive Op : State A → State A → Prop
  | reservable {s s' : State A} : Reservable s s' → Op s s'
  | updateLocks (ed : ℕ) (s : State A) (who : A) (locks : List BalanceLock) :
      Op s (updateLocks ed s who locks)

/-- Any sequence of calls of `ReservableCurrency`. -/
def Reserves : State A → State A → Prop := Relation.ReflTransGen Reservable

/-- Any sequence of calls of `ReservableCurrency` and `LockableCurrency`. -/
def Moves : State A → State A → Prop := Relation.ReflTransGen Op

variable {s s₁ s₂ : State A}

/-! ### No call mints -/

theorem postMutation_totalIssuance_le (ed : ℕ) (s : State A) (who : A) (new : AccountData) :
    (postMutation ed s who new).totalIssuance ≤ s.totalIssuance := by
  unfold postMutation
  split_ifs
  · exact Nat.sub_le _ _
  · exact le_rfl

theorem reserve_totalIssuance_le (ed : ℕ) (s : State A) (who : A) (value : ℕ) :
    (reserve ed s who value).state.totalIssuance ≤ s.totalIssuance := by
  unfold reserve
  split
  · exact le_rfl
  · dsimp only
    -- every rejection returns the state it was given
    split
    · exact le_rfl
    · split
      · exact le_rfl
      · split_ifs
        · exact postMutation_totalIssuance_le _ _ _ _
        · exact le_rfl

theorem unreserve_totalIssuance_le (ed : ℕ) (s : State A) (who : A) (value : ℕ) :
    (unreserve ed s who value).2.totalIssuance ≤ s.totalIssuance := by
  unfold unreserve
  split_ifs
  · exact le_rfl
  · exact postMutation_totalIssuance_le _ _ _ _

theorem slashReserved_totalIssuance_le (ed : ℕ) (s : State A) (who : A) (value : ℕ) :
    (slashReserved ed s who value).2.totalIssuance ≤ s.totalIssuance := by
  unfold slashReserved
  split_ifs
  · exact le_rfl
  · exact postMutation_totalIssuance_le _ _ _ _

theorem repatriateReserved_totalIssuance_le (ed : ℕ) (s : State A) (slashed beneficiary : A)
    (value : ℕ) (status : BalanceStatus) :
    (repatriateReserved ed s slashed beneficiary value status).2.totalIssuance ≤
      s.totalIssuance := by
  unfold repatriateReserved
  split_ifs
  · exact le_rfl
  · -- repatriating to oneself releases the funds or leaves them
    cases status
    · exact unreserve_totalIssuance_le _ _ _ _
    · exact le_rfl
  · split
    · exact le_rfl
    · dsimp only
      split
      · exact le_rfl
      · -- the debit and the credit may each reap their account
        exact (postMutation_totalIssuance_le _ _ _ _).trans (postMutation_totalIssuance_le _ _ _ _)

theorem updateLocks_totalIssuance_le (ed : ℕ) (s : State A) (who : A) (locks : List BalanceLock) :
    (updateLocks ed s who locks).totalIssuance ≤ s.totalIssuance :=
  postMutation_totalIssuance_le _ _ _ _

namespace Reservable

theorem totalIssuance_le (h : Reservable s₁ s₂) : s₂.totalIssuance ≤ s₁.totalIssuance := by
  cases h with
  | reserve => exact reserve_totalIssuance_le _ _ _ _
  | unreserve => exact unreserve_totalIssuance_le _ _ _ _
  | slashReserved => exact (Nat.sub_le _ _).trans (slashReserved_totalIssuance_le _ _ _ _)
  | repatriateReserved => exact repatriateReserved_totalIssuance_le _ _ _ _ _ _

/-- `ReservableCurrency` leaves every lock as it is. -/
theorem locks_eq (h : Reservable s₁ s₂) : s₂.locks = s₁.locks := by
  cases h <;> simp

end Reservable

theorem Op.totalIssuance_le (h : Op s₁ s₂) : s₂.totalIssuance ≤ s₁.totalIssuance := by
  cases h with
  | reservable h => exact h.totalIssuance_le
  | updateLocks => exact updateLocks_totalIssuance_le _ _ _ _

/-! ### Sequences of calls -/

namespace Reserves

theorem refl (s : State A) : Reserves s s := Relation.ReflTransGen.refl

theorem of_eq (h : s₂ = s₁) : Reserves s₁ s₂ := h ▸ refl s₁

theorem trans (h₁ : Reserves s s₁) (h₂ : Reserves s₁ s₂) : Reserves s s₂ :=
  Relation.ReflTransGen.trans h₁ h₂

theorem single (h : Reservable s₁ s₂) : Reserves s₁ s₂ := Relation.ReflTransGen.single h

/-- Calls of `ReservableCurrency` leave every lock as it is. -/
theorem locks_eq (h : Reserves s₁ s₂) : s₂.locks = s₁.locks := by
  induction h with
  | refl => rfl
  | tail _ hstep ih => exact hstep.locks_eq.trans ih

theorem moves (h : Reserves s₁ s₂) : Moves s₁ s₂ :=
  Relation.ReflTransGen.mono (fun _ _ => Op.reservable) _ _ h

end Reserves

namespace Moves

theorem refl (s : State A) : Moves s s := Relation.ReflTransGen.refl

theorem of_eq (h : s₂ = s₁) : Moves s₁ s₂ := h ▸ refl s₁

theorem trans (h₁ : Moves s s₁) (h₂ : Moves s₁ s₂) : Moves s s₂ :=
  Relation.ReflTransGen.trans h₁ h₂

theorem reservable (h : Reservable s₁ s₂) : Moves s₁ s₂ :=
  Relation.ReflTransGen.single (Op.reservable h)

/-- A lock setter: nothing for a zero amount or no reasons, else one `update_locks`. -/
theorem changeLock (combine : BalanceLock → BalanceLock → BalanceLock) (ed : ℕ) (s : State A)
    (id : LockIdentifier) (who : A) (amount : ℕ) (reasons : WithdrawReasons) :
    Moves s (changeLock combine ed s id who amount reasons) := by
  unfold Balances.changeLock
  split_ifs
  · exact refl s
  · exact Relation.ReflTransGen.single (Op.updateLocks _ _ _ _)

theorem setLock (ed : ℕ) (s : State A) (id : LockIdentifier) (who : A) (amount : ℕ)
    (reasons : WithdrawReasons) : Moves s (setLock ed s id who amount reasons) :=
  changeLock _ ed s id who amount reasons

theorem lockAddAmount (ed : ℕ) (s : State A) (id : LockIdentifier) (who : A) (amount : ℕ)
    (reasons : WithdrawReasons) : Moves s (lockAddAmount ed s id who amount reasons) :=
  changeLock _ ed s id who amount reasons

theorem lockSubAmount (ed : ℕ) (s : State A) (id : LockIdentifier) (who : A) (amount : ℕ)
    (reasons : WithdrawReasons) : Moves s (lockSubAmount ed s id who amount reasons) :=
  changeLock _ ed s id who amount reasons

/-- A sequence of calls never raises the total issuance. -/
theorem totalIssuance_le (h : Moves s₁ s₂) : s₂.totalIssuance ≤ s₁.totalIssuance := by
  induction h with
  | refl => exact le_rfl
  | tail _ hstep ih => exact hstep.totalIssuance_le.trans ih

end Moves

end IpseCore.Balances
