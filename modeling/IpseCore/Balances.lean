import Mathlib.Data.Finset.Insert
import IpseCore.Library.Transition
import IpseCore.Library.MachineInt

/-!
# The Balances pallet

The part of `frame/balances` that the IPSE pallets call: reservation, release and
repatriation of reserved funds, minting by `deposit_creating`, and the balance
locks, with IPSE's added `lock_add_amount` and `lock_sub_amount`.

Accounts live in the system account store: an account that is not stored reads
as zero, and `post_mutation` removes an account whose total falls below the
existential deposit, sending its dust out of the total issuance. Imbalances
returned to callers are dropped in this runtime, so a positive imbalance raises
the total issuance and a negative one lowers it.
-/

namespace IpseCore.Balances

open Unsigned

/-- Balances are `u128`. -/
def balanceBits : ℕ := 128

/-- `AccountData`: the balance of one account. -/
structure AccountData where
  /-- Non-reserved part of the balance. -/
  free : ℕ
  /-- Balance set aside by other pallets. -/
  reserved : ℕ
  /-- What `free` may not drop below for anything but fees. -/
  miscFrozen : ℕ
  /-- What `free` may not drop below for fees. -/
  feeFrozen : ℕ
  deriving DecidableEq, Repr, Inhabited

/-- `Reasons` of a balance lock. -/
inductive Reasons where
  | Fee
  | Misc
  | All
  deriving DecidableEq, Repr

/-- `WithdrawReason` flags. -/
inductive WithdrawReason where
  | TransactionPayment
  | Transfer
  | Reserve
  | Fee
  | Tip
  deriving DecidableEq, Repr

/-- `WithdrawReasons`: a set of flags. -/
abbrev WithdrawReasons := Finset WithdrawReason

/-- `impl From<WithdrawReasons> for Reasons`. -/
def Reasons.ofWithdrawReasons (r : WithdrawReasons) : Reasons :=
  if r = {.TransactionPayment} then .Fee
  else if .TransactionPayment ∈ r then .All
  else .Misc

/-- `impl BitOr for Reasons`. -/
def Reasons.bitor (a b : Reasons) : Reasons := if a = b then a else .All

/-- `LockIdentifier`, eight bytes, written as text. -/
abbrev LockIdentifier := String

/-- `BalanceLock`. -/
structure BalanceLock where
  /-- The lock's identifier. -/
  id : LockIdentifier
  /-- The amount frozen. -/
  amount : ℕ
  /-- Which withdrawals the lock restricts. -/
  reasons : Reasons
  deriving DecidableEq, Repr

/-- `AccountData::frozen`. -/
def AccountData.frozen (a : AccountData) : Reasons → ℕ
  | .All => max a.miscFrozen a.feeFrozen
  | .Misc => a.miscFrozen
  | .Fee => a.feeFrozen

/-- `AccountData::total`. -/
def AccountData.total (a : AccountData) : ℕ := saturatingAdd balanceBits a.free a.reserved

/-- `Error` of the Balances pallet, as far as the modelled calls raise it. -/
inductive Error where
  | InsufficientBalance
  | Overflow
  | LiquidityRestrictions
  | DeadAccount
  deriving DecidableEq, Repr

/-- `BalanceStatus` of `repatriate_reserved`. -/
inductive BalanceStatus where
  | Free
  | Reserved
  deriving DecidableEq, Repr

/-- The storage of the Balances pallet over accounts `A`. -/
structure State (A : Type) where
  /-- The system account store: `none` for an account that does not exist. -/
  account : A → Option AccountData
  /-- `Locks`. -/
  locks : A → List BalanceLock
  /-- `TotalIssuance`. -/
  totalIssuance : ℕ

variable {A : Type} [DecidableEq A]

/-- `Self::account`: a missing account reads as zero. -/
def accountOf (s : State A) (who : A) : AccountData := (s.account who).getD default

/-- `post_mutation`, as applied by `try_mutate_account`: an account below the existential
deposit is removed and its dust burnt. -/
def postMutation (ed : ℕ) (s : State A) (who : A) (new : AccountData) : State A :=
  if new.total < ed then
    { s with account := Function.update s.account who none,
             totalIssuance := s.totalIssuance - new.total }
  else { s with account := Function.update s.account who (some new) }

/-- Dropping a positive imbalance raises the total issuance. -/
def dropPositive (s : State A) (amount : ℕ) : State A :=
  { s with totalIssuance := saturatingAdd balanceBits s.totalIssuance amount }

/-- Dropping a negative imbalance lowers the total issuance. -/
def dropNegative (s : State A) (amount : ℕ) : State A :=
  { s with totalIssuance := s.totalIssuance - amount }

/-- `ensure_can_withdraw`, as `reserve` calls it: the new free balance must cover what is
frozen for reservations. -/
def canWithdraw (s : State A) (who : A) (amount newBalance : ℕ) : Bool :=
  amount = 0 || (accountOf s who).frozen (.ofWithdrawReasons {.Reserve}) ≤ newBalance

/-- `can_reserve`. -/
def canReserve (s : State A) (who : A) (value : ℕ) : Bool :=
  if value = 0 then true
  else match checkedSub (accountOf s who).free value with
    | none => false
    | some newBalance => canWithdraw s who value newBalance

/-- `reserve`: move `value` from free to reserved; on failure nothing changes. -/
def reserve (ed : ℕ) (s : State A) (who : A) (value : ℕ) : Machine.Outcome Error (State A) :=
  if value = 0 then .ok s
  else
    let a := accountOf s who
    match checkedSub a.free value with
    | none => .error .InsufficientBalance s
    | some free =>
      match checkedAdd balanceBits a.reserved value with
      | none => .error .Overflow s
      | some reserved =>
        if canWithdraw s who value free then
          .ok (postMutation ed s who { a with free := free, reserved := reserved })
        else .error .LiquidityRestrictions s

/-- `unreserve`: release up to `value` of the reserved balance; returns what could not be
released. -/
def unreserve (ed : ℕ) (s : State A) (who : A) (value : ℕ) : ℕ × State A :=
  if value = 0 then (0, s)
  else
    let a := accountOf s who
    let actual := min a.reserved value
    (value - actual, postMutation ed s who
      { a with reserved := a.reserved - actual, free := saturatingAdd balanceBits a.free actual })

/-- `slash_reserved`: burn up to `value` of the reserved balance. Returns the negative
imbalance and what could not be slashed. -/
def slashReserved (ed : ℕ) (s : State A) (who : A) (value : ℕ) : (ℕ × ℕ) × State A :=
  if value = 0 then ((0, 0), s)
  else
    let a := accountOf s who
    let actual := min a.reserved value
    ((actual, value - actual), postMutation ed s who { a with reserved := a.reserved - actual })

/-- `repatriate_reserved`: move up to `value` of `slashed`'s reserved balance to
`beneficiary`. Returns what could not be moved. -/
def repatriateReserved (ed : ℕ) (s : State A) (slashed beneficiary : A) (value : ℕ)
    (status : BalanceStatus) : Except Error ℕ × State A :=
  if value = 0 then (.ok 0, s)
  else if slashed = beneficiary then
    match status with
    | .Free =>
      let released := unreserve ed s slashed value
      (.ok released.1, released.2)
    | .Reserved => (.ok (value - (accountOf s slashed).reserved), s)
  else
    match s.account beneficiary with
    | none => (.error .DeadAccount, s)
    | some dest =>
      let source := accountOf s slashed
      let actual := min source.reserved value
      let credited := match status with
        | .Free => checkedAdd balanceBits dest.free actual
        | .Reserved => checkedAdd balanceBits dest.reserved actual
      match credited with
      | none => (.error .Overflow, s)
      | some amount =>
        let dest' := match status with
          | .Free => { dest with free := amount }
          | .Reserved => { dest with reserved := amount }
        let s₁ := postMutation ed s slashed { source with reserved := source.reserved - actual }
        (.ok (value - actual), postMutation ed s₁ beneficiary dest')

/-- `deposit_creating`: mint `value` into `who`, creating the account when `value` reaches
the existential deposit. Returns the positive imbalance. -/
def depositCreating (ed : ℕ) (s : State A) (who : A) (value : ℕ) : ℕ × State A :=
  if value = 0 then (0, s)
  else if value < ed ∧ s.account who = none then (0, s)
  else
    let a := accountOf s who
    match checkedAdd balanceBits a.free value with
    | none => (0, s)
    | some free => (value, postMutation ed s who { a with free := free })

/-- `update_locks`: recompute the frozen amounts from the locks and store the locks. -/
def updateLocks (ed : ℕ) (s : State A) (who : A) (locks : List BalanceLock) : State A :=
  let a := accountOf s who
  let misc := locks.foldl (fun m l => if l.reasons = .All ∨ l.reasons = .Misc then max m l.amount
    else m) 0
  let fee := locks.foldl (fun m l => if l.reasons = .All ∨ l.reasons = .Fee then max m l.amount
    else m) 0
  let s' := postMutation ed s who { a with miscFrozen := misc, feeFrozen := fee }
  { s' with locks := Function.update s'.locks who locks }

/-- The `filter_map`-then-push pattern of the lock setters: the first lock with the new
lock's id becomes `combine old new`, later locks with that id are dropped, and the new
lock is pushed when it was not taken. -/
def mergeLock (combine : BalanceLock → BalanceLock → BalanceLock) (id : LockIdentifier) :
    List BalanceLock → Option BalanceLock → List BalanceLock
  | [], none => []
  | [], some new => [new]
  | l :: ls, pending =>
    if l.id = id then
      match pending with
      | some new => combine l new :: mergeLock combine id ls none
      | none => mergeLock combine id ls none
    else l :: mergeLock combine id ls pending

/-- The lock setters share one body and differ in how an existing lock absorbs the new one. -/
def changeLock (combine : BalanceLock → BalanceLock → BalanceLock) (ed : ℕ) (s : State A)
    (id : LockIdentifier) (who : A) (amount : ℕ) (reasons : WithdrawReasons) : State A :=
  if amount = 0 ∨ reasons = ∅ then s
  else
    updateLocks ed s who
      (mergeLock combine id (s.locks who) (some ⟨id, amount, .ofWithdrawReasons reasons⟩))

/-- `set_lock`: the new lock replaces one with the same id. -/
def setLock (ed : ℕ) (s : State A) (id : LockIdentifier) (who : A) (amount : ℕ)
    (reasons : WithdrawReasons) : State A :=
  changeLock (fun _ new => new) ed s id who amount reasons

/-- `extend_lock`: the larger amount and the union of reasons. -/
def extendLock (ed : ℕ) (s : State A) (id : LockIdentifier) (who : A) (amount : ℕ)
    (reasons : WithdrawReasons) : State A :=
  changeLock (fun l new => ⟨l.id, max l.amount new.amount, l.reasons.bitor new.reasons⟩)
    ed s id who amount reasons

/-- `lock_add_amount` (added by IPSE): the amounts add, saturating. -/
def lockAddAmount (ed : ℕ) (s : State A) (id : LockIdentifier) (who : A) (amount : ℕ)
    (reasons : WithdrawReasons) : State A :=
  changeLock (fun l new => ⟨l.id, saturatingAdd balanceBits l.amount new.amount,
    l.reasons.bitor new.reasons⟩) ed s id who amount reasons

/-- `lock_sub_amount` (added by IPSE): the amounts subtract, saturating at zero. -/
def lockSubAmount (ed : ℕ) (s : State A) (id : LockIdentifier) (who : A) (amount : ℕ)
    (reasons : WithdrawReasons) : State A :=
  changeLock (fun l new => ⟨l.id, saturatingSub l.amount new.amount,
    l.reasons.bitor new.reasons⟩) ed s id who amount reasons

/-- `remove_lock`. -/
def removeLock (ed : ℕ) (s : State A) (id : LockIdentifier) (who : A) : State A :=
  updateLocks ed s who ((s.locks who).filter fun l => l.id ≠ id)

/-! ### Spec lemmas -/

@[simp] theorem accountOf_update_self (s : State A) (who : A) (a : Option AccountData) :
    accountOf { s with account := Function.update s.account who a } who = a.getD default := by
  simp [accountOf]

@[simp] theorem accountOf_update_ne (s : State A) {who who' : A} (h : who' ≠ who)
    (a : Option AccountData) :
    accountOf { s with account := Function.update s.account who a } who' = accountOf s who' := by
  simp [accountOf, Function.update_of_ne h]

theorem accountOf_postMutation_ne (ed : ℕ) (s : State A) {who who' : A} (h : who' ≠ who)
    (new : AccountData) : accountOf (postMutation ed s who new) who' = accountOf s who' := by
  unfold postMutation
  split_ifs <;> simp [accountOf, Function.update_of_ne h]

/-- `unreserve` releases up to `value`, whoever reserved it: at most the rest stays reserved. -/
theorem reserved_unreserve_le (ed : ℕ) (s : State A) (who : A) (value : ℕ) :
    (accountOf (unreserve ed s who value).2 who).reserved ≤ (accountOf s who).reserved - value := by
  unfold unreserve
  split_ifs with h0
  · rw [h0, Nat.sub_zero]
  · dsimp only
    unfold postMutation
    split_ifs
    · -- the account is reaped and reserves nothing
      simp only [accountOf, Function.update_self, Option.getD_none]
      exact Nat.zero_le _
    · simp only [accountOf_update_self, Option.getD_some]
      omega

/-! ### What leaves the locks alone -/

@[simp] theorem postMutation_locks (ed : ℕ) (s : State A) (who : A) (new : AccountData) :
    (postMutation ed s who new).locks = s.locks := by
  unfold postMutation
  split_ifs <;> rfl

@[simp] theorem reserve_locks (ed : ℕ) (s : State A) (who : A) (value : ℕ) :
    (reserve ed s who value).state.locks = s.locks := by
  unfold reserve
  split_ifs
  · rfl
  · dsimp only
    split
    · rfl
    · split
      · rfl
      · split_ifs <;> simp

@[simp] theorem unreserve_locks (ed : ℕ) (s : State A) (who : A) (value : ℕ) :
    (unreserve ed s who value).2.locks = s.locks := by
  unfold unreserve
  split_ifs <;> simp

@[simp] theorem slashReserved_locks (ed : ℕ) (s : State A) (who : A) (value : ℕ) :
    (slashReserved ed s who value).2.locks = s.locks := by
  unfold slashReserved
  split_ifs <;> simp

@[simp] theorem repatriateReserved_locks (ed : ℕ) (s : State A) (slashed beneficiary : A)
    (value : ℕ) (status : BalanceStatus) :
    (repatriateReserved ed s slashed beneficiary value status).2.locks = s.locks := by
  unfold repatriateReserved
  split_ifs
  · rfl
  · cases status <;> simp
  · split
    · rfl
    · dsimp only
      split <;> simp

omit [DecidableEq A] in
@[simp] theorem dropNegative_locks (s : State A) (amount : ℕ) :
    (dropNegative s amount).locks = s.locks := rfl

/-- A rejected reservation changes nothing. -/
theorem reserve_error {ed : ℕ} {s : State A} {who : A} {value : ℕ} {e : Error}
    (h : (reserve ed s who value).result = .error e) : (reserve ed s who value).state = s := by
  unfold reserve at h ⊢
  split_ifs at h ⊢ with h0
  · simp at h
  · dsimp only at h ⊢
    cases hsub : checkedSub (accountOf s who).free value with
    | none => simp
    | some free =>
      cases hadd : checkedAdd balanceBits (accountOf s who).reserved value with
      | none => simp
      | some reserved =>
        rw [hsub, hadd] at h
        dsimp only at h ⊢
        split_ifs at h ⊢
        · simp at h
        · simp

/-- An accepted `reserve` of a positive value finds it in the free balance and room for it in
the reserved one, and moves it across. -/
theorem reserve_of_ok {ed : ℕ} {s : State A} {who : A} {value : ℕ} (hpos : value ≠ 0)
    (h : (reserve ed s who value).result = .ok ()) :
    value ≤ (accountOf s who).free ∧ (accountOf s who).reserved + value ≤ maxOf balanceBits ∧
      (reserve ed s who value).state = postMutation ed s who
        { accountOf s who with
          free := (accountOf s who).free - value
          reserved := (accountOf s who).reserved + value } := by
  unfold reserve at h ⊢
  rw [if_neg hpos] at h ⊢
  dsimp only at h ⊢
  cases hsub : checkedSub (accountOf s who).free value with
  | none => simp [hsub] at h
  | some free =>
    cases hadd : checkedAdd balanceBits (accountOf s who).reserved value with
    | none => simp [hsub, hadd] at h
    | some reserved =>
      obtain ⟨hle, rfl⟩ := checkedSub_eq_some_iff.mp hsub
      obtain ⟨hfit, rfl⟩ := checkedAdd_eq_some_iff.mp hadd
      rw [hsub, hadd] at h
      dsimp only at h ⊢
      split_ifs at h ⊢
      · exact ⟨hle, hfit, rfl⟩
      · exact absurd h (by simp)

/-- `post_mutation` of an account at or above the existential deposit stores it. -/
theorem postMutation_of_le {ed : ℕ} (s : State A) (who : A) {new : AccountData}
    (h : ed ≤ new.total) :
    postMutation ed s who new = { s with account := Function.update s.account who (some new) } :=
  if_neg (Nat.not_lt.mpr h)

/-- `unreserve` undoes an accepted `reserve` of the same value, on a stored account at or above
the existential deposit whose free balance is a `u128`: everything is released and the balances
are as they were. -/
theorem unreserve_reserve {ed : ℕ} {s : State A} {who : A} {value : ℕ} {a : AccountData}
    (ha : s.account who = some a) (hed : ed ≤ a.total) (hfree : a.free ≤ maxOf balanceBits)
    (hok : (reserve ed s who value).result = .ok ()) :
    unreserve ed (reserve ed s who value).state who value = (0, s) := by
  have hacc : accountOf s who = a := by simp [accountOf, ha]
  by_cases h0 : value = 0
  · subst h0
    simp [reserve, unreserve]
  obtain ⟨hle, -, hstate⟩ := reserve_of_ok h0 hok
  rw [hacc] at hle hstate
  -- the moved account has the same total, so it stays stored
  have htotal : ({ a with free := a.free - value, reserved := a.reserved + value } :
      AccountData).total = a.total := by
    simp only [AccountData.total, saturatingAdd]
    omega
  rw [hstate, postMutation_of_le s who (htotal ▸ hed)]
  -- all of `value` is reserved now, and releasing it gives the free balance back
  have hmin : min (a.reserved + value) value = value := min_eq_right (Nat.le_add_left _ _)
  have hback : ({ { a with free := a.free - value, reserved := a.reserved + value } with
      reserved := a.reserved + value - value
      free := saturatingAdd balanceBits (a.free - value) value } : AccountData) = a := by
    rw [saturatingAdd_of_le (by omega), Nat.add_sub_cancel, Nat.sub_add_cancel hle]
  simp only [unreserve, if_neg h0, accountOf_update_self, Option.getD_some, hmin, Nat.sub_self]
  rw [hback, postMutation_of_le _ who hed]
  simp only [Function.update_idem]
  rw [← ha, Function.update_eq_self]

-- Account 1 holds 100 and reserves 30; releasing 30 gives the balances back.
example :
    let s : State ℕ := ⟨fun a => if a = 1 then some ⟨100, 0, 0, 0⟩ else none, fun _ => [], 100⟩
    unreserve 1 (reserve 1 s 1 30).state 1 30 = (0, s) :=
  unreserve_reserve rfl (by decide) (by decide) (by decide)

/-- `deposit_creating` mints at most the amount asked for. -/
theorem depositCreating_fst_le (ed : ℕ) (s : State A) (who : A) (value : ℕ) :
    (depositCreating ed s who value).1 ≤ value := by
  unfold depositCreating
  split_ifs
  · simp
  · simp
  · dsimp only
    split <;> simp

/-- The total issuance is not touched by `deposit_creating` itself: the imbalance it
returns is what the caller's drop adds. -/
theorem depositCreating_totalIssuance_le (ed : ℕ) (s : State A) (who : A) (value : ℕ) :
    (depositCreating ed s who value).2.totalIssuance ≤ s.totalIssuance := by
  unfold depositCreating
  split_ifs
  · simp
  · simp
  · dsimp only
    split
    · simp
    · unfold postMutation
      split_ifs <;> simp

omit [DecidableEq A] in
theorem dropPositive_totalIssuance_le (s : State A) (amount : ℕ) :
    (dropPositive s amount).totalIssuance ≤ s.totalIssuance + amount :=
  saturatingAdd_le _ _ _

end IpseCore.Balances
