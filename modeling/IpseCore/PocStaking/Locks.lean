import IpseCore.PocStaking.Books
import IpseCore.Balances.Locks

/-!
# The two ledgers of the staking lock

PocStaking keeps what it has locked of an account twice: as the Balances lock `pocstake`, and
as the entries of its own `Locks`. `lock_add_amount` pushes the whole amount onto `Locks` and
raises the Balances lock through `set_lock` or Balances' `lock_add_amount`, and the latter
saturates at `u128::MAX`. So the two ledgers agree after a lock exactly when the recorded sum
still fits in a `u128`. An account that has recorded more than `u128::MAX / 2` can pass it: its
reserve has to be released between the reservations and the locks, which another pallet's
`unreserve` does.
-/

namespace IpseCore.PocStaking

open Unsigned

variable {A H : Type} [DecidableEq A]

/-- The amount of `who`'s Balances lock `pocstake`, `0` when there is none. -/
def lockedOf (w : World A H) (who : A) : ℕ :=
  Balances.lockAmount stakingId (w.balances.locks who)

/-- The sum of the amounts `Locks[who]` records. -/
def recordedOf (w : World A H) (who : A) : ℕ :=
  (((w.staking.locks who).getD []).map Prod.snd).sum

theorem lockReasons_ne_empty : lockReasons ≠ ∅ := by decide

variable (c : Config)

theorem recordedOf_lockAddAmount (w : World A H) (who : A) (amount expire : ℕ) :
    recordedOf (lockAddAmount c w who amount expire) who = recordedOf w who + amount := by
  unfold lockAddAmount recordedOf
  dsimp only
  rw [lock_staking]
  cases w.staking.locks who <;> simp

/-- What the Balances lock amounts to after `lock(.., Add, amount)`, as it is set when `Locks`
has no entry and raised, saturating, when it has one. -/
theorem lockedOf_lock_add (w : World A H) (who : A) {amount : ℕ} (hpos : 0 < amount) :
    lockedOf (lock c w who .Add amount) who =
      if (w.staking.locks who).isNone then amount
      else (((w.balances.locks who).find? fun l => l.id = stakingId).map fun l =>
        saturatingAdd Balances.balanceBits l.amount amount).getD amount := by
  have hchange : ¬(amount = 0 ∨ lockReasons = ∅) := not_or.mpr ⟨by omega, lockReasons_ne_empty⟩
  unfold lock lockedOf
  split_ifs with hnone
  · simp only [World.setBalances]
    rw [Balances.setLock, Balances.lockAmount_changeLock _ _ _ _ _ _ _ (fun _ _ => rfl),
      if_neg hchange]
    cases (w.balances.locks who).find? fun l => l.id = stakingId <;> rfl
  · simp only [World.setBalances]
    rw [Balances.lockAddAmount, Balances.lockAmount_changeLock _ _ _ _ _ _ _ (fun _ h => h),
      if_neg hchange]
    cases (w.balances.locks who).find? fun l => l.id = stakingId <;> rfl

/-- PocStaking's `lock_add_amount` of a `u128` amount, on an account whose ledgers agree: the
sum `Locks` records grows by the amount, and the Balances lock by the amount up to
`u128::MAX`. The ledgers still agree exactly when the new sum fits in a `u128`. -/
theorem lockAddAmount_ledgers (w : World A H) (who : A) {amount : ℕ} (expire : ℕ)
    (hpos : 0 < amount) (hu128 : amount ≤ maxOf Balances.balanceBits)
    (hagree : lockedOf w who = recordedOf w who) :
    lockedOf (lockAddAmount c w who amount expire) who =
        min (recordedOf w who + amount) (maxOf Balances.balanceBits) ∧
      recordedOf (lockAddAmount c w who amount expire) who = recordedOf w who + amount := by
  refine ⟨?_, recordedOf_lockAddAmount c w who amount expire⟩
  have hlocked : lockedOf (lockAddAmount c w who amount expire) who =
      lockedOf (lock c w who .Add amount) who := rfl
  rw [hlocked, lockedOf_lock_add c w who hpos, ← hagree]
  cases hfind : (w.balances.locks who).find? fun l => l.id = stakingId with
  | none =>
    -- no lock yet: the new lock is the amount, and there was nothing to add it to
    have hzero : lockedOf w who = 0 := by simp [lockedOf, Balances.lockAmount, hfind]
    rw [hzero, Nat.zero_add, min_eq_left hu128]
    split_ifs <;> rfl
  | some l =>
    have hl : lockedOf w who = l.amount := by simp [lockedOf, Balances.lockAmount, hfind]
    rw [hl]
    split_ifs with hnone
    · -- `Locks` has no entry, so it records nothing and the lock is empty
      have hrec : recordedOf w who = 0 := by
        simp [recordedOf, Option.isNone_iff_eq_none.mp hnone]
      rw [hagree, hrec] at hl
      rw [← hl, Nat.zero_add, min_eq_left hu128]
    · rfl

/-- Account 1, holding `2^127 + 10^14`, stakes `2^127` on itself, bids everything for the
recommended list and leaves both: `Locks` records `2^128 + 10^14`, while the Balances lock stops
at `u128::MAX`. -/
theorem lockAddAmount_ledgers_past_u128 :
    let c := runtimeConfig
    let b : Balances.State ℕ :=
      ⟨fun a => if a = 1 then some ⟨2 ^ 127 + 10 ^ 14, 0, 0, 0⟩ else none, fun _ => [],
        2 ^ 127 + 10 ^ 14⟩
    let m := machine c (fun _ h => h) b ()
    let staked : List (Event ℕ Unit) := [.call (.signed 1) (.register 1 0 50 none)] ++
      List.replicate 300 .nextBlock ++ [.call (.signed 1) (.staking 1 (2 ^ 127))]
    let refund := (Balances.unreserve c.existentialDeposit (m.run staked).balances 1
      (2 ^ 127 + 10 ^ 14)).2
    let leave : List (Event ℕ Unit) := [.external refund (),
      .call (.signed 1) (.requestUpToList (2 ^ 127 + 10 ^ 14)), .call (.signed 1) (.exitStaking 1)]
    let w := m.run (staked ++ leave)
    let w' := m.run (staked ++ leave ++ [.call (.signed 1) .requestDownFromList])
    let before := unreserve c w 1 (2 ^ 127 + 10 ^ 14)
    let expire := saturatingAdd blockNumberBits w.blockNumber c.recommendLockExpire
    lockedOf w 1 = 2 ^ 127 ∧ recordedOf w 1 = 2 ^ 127 ∧
    lockedOf w' 1 = maxOf Balances.balanceBits ∧ recordedOf w' 1 = 2 ^ 128 + 10 ^ 14 ∧
    lockedOf (lockAddAmount c before 1 (2 ^ 127 + 10 ^ 14) expire) 1 =
        min (recordedOf before 1 + (2 ^ 127 + 10 ^ 14)) (maxOf Balances.balanceBits) ∧
      recordedOf (lockAddAmount c before 1 (2 ^ 127 + 10 ^ 14) expire) 1 =
        recordedOf before 1 + (2 ^ 127 + 10 ^ 14) :=
  ⟨by decide +kernel, by decide +kernel, by decide +kernel, by decide +kernel,
    lockAddAmount_ledgers runtimeConfig _ 1 _ (by decide) (by decide) (by decide +kernel)⟩

/-! ### The ledgers along a run

Apart from the saturation the two ledgers move together. A lock adds the same amount to both
(`lockAddAmount_grows`). `unlock` takes the due entries out of `Locks` and lowers the lock by
their sum, which on agreeing ledgers the lock holds (`unlock_releases_due`). Every other write
of the pallet leaves both alone. So along a run without outside changes of the balances, the
ledgers of an account agree in every state as long as what `Locks` records for it fits in a
`u128` (`ledgers_agree_along_run`).
-/

section Run

/-- An outside change of the balances, which the pallet itself never makes. -/
def Event.isExternal : Event A H → Bool
  | .external _ _ => true
  | _ => false

/-- The two ledgers of every account: Balances' locks and the pallet's `Locks`. -/
def World.lockBooks (w : World A H) :
    (A → List Balances.BalanceLock) × (A → Option (List (ℕ × ℕ))) :=
  (w.balances.locks, w.staking.locks)

/-- `w'` follows `w` with the ledgers in step: `Locks` records no less for any account, and an
account whose ledgers agreed has them agree still, while what `Locks` records for it fits in a
`u128`. -/
structure Grows (w w' : World A H) : Prop where
  recorded_le : ∀ a, recordedOf w a ≤ recordedOf w' a
  agree : ∀ a, lockedOf w a = recordedOf w a → recordedOf w' a ≤ maxOf Balances.balanceBits →
    lockedOf w' a = recordedOf w' a

namespace Grows

variable {w w₁ w₂ : World A H}

omit [DecidableEq A] in
theorem refl (w : World A H) : Grows w w := ⟨fun _ => le_rfl, fun _ h _ => h⟩

omit [DecidableEq A] in
theorem trans (h₁ : Grows w w₁) (h₂ : Grows w₁ w₂) : Grows w w₂ where
  recorded_le a := (h₁.recorded_le a).trans (h₂.recorded_le a)
  -- what fits at the end fitted in between, since `Locks` only grew
  agree a hagree hfit := h₂.agree a (h₁.agree a hagree ((h₂.recorded_le a).trans hfit)) hfit

omit [DecidableEq A] in
/-- Writes that leave both ledgers as they were. -/
theorem of_lockBooks (h : w₁.lockBooks = w.lockBooks) : Grows w w₁ := by
  obtain ⟨hb, hs⟩ := Prod.mk.inj h
  have hlocked : ∀ a, lockedOf w₁ a = lockedOf w a := fun a => by simp only [lockedOf, hb]
  have hrecorded : ∀ a, recordedOf w₁ a = recordedOf w a := fun a => by simp only [recordedOf, hs]
  exact ⟨fun a => (hrecorded a).ge, fun a hagree _ => by rw [hlocked, hrecorded, hagree]⟩

omit [DecidableEq A] in
theorem trans_lockBooks (h : Grows w w₁) (h' : w₂.lockBooks = w₁.lockBooks) : Grows w w₂ :=
  h.trans (of_lockBooks h')

end Grows

theorem lockedOf_lock_of_ne (w : World A H) {who a : A} (ha : a ≠ who) (operate : Operate)
    (amount : ℕ) : lockedOf (lock c w who operate amount) a = lockedOf w a := by
  unfold lockedOf lock
  cases operate <;> dsimp only <;> split_ifs <;>
    simp only [World.setBalances, Balances.setLock, Balances.lockAddAmount,
      Balances.lockSubAmount, Balances.changeLock_locks_of_ne _ _ _ _ ha]

theorem recordedOf_lockAddAmount_of_ne (w : World A H) {who a : A} (ha : a ≠ who)
    (amount expire : ℕ) : recordedOf (lockAddAmount c w who amount expire) a = recordedOf w a := by
  unfold recordedOf lockAddAmount
  simp only [World.setStaking_staking, Function.update_of_ne ha, lock_staking]

theorem lockedOf_lockAddAmount_of_ne (w : World A H) {who a : A} (ha : a ≠ who)
    (amount expire : ℕ) : lockedOf (lockAddAmount c w who amount expire) a = lockedOf w a :=
  lockedOf_lock_of_ne c w ha .Add amount

/-- Adding nothing leaves the Balances lock as it was. -/
theorem lockedOf_lockAddAmount_zero (w : World A H) (who : A) (expire : ℕ) :
    lockedOf (lockAddAmount c w who 0 expire) who = lockedOf w who := by
  unfold lockAddAmount lockedOf lock
  dsimp only
  split_ifs <;> simp [World.setBalances, Balances.setLock, Balances.lockAddAmount,
    Balances.changeLock]

/-- The Balances lock after PocStaking's `lock_add_amount` of a positive `u128` amount: the
amount itself when `Locks` has no entry, else the old lock raised, saturating. -/
theorem lockedOf_lockAddAmount (w : World A H) (who : A) {amount : ℕ} (expire : ℕ)
    (hpos : 0 < amount) (hu128 : amount ≤ maxOf Balances.balanceBits) :
    lockedOf (lockAddAmount c w who amount expire) who =
      if (w.staking.locks who).isNone then amount
      else saturatingAdd Balances.balanceBits (lockedOf w who) amount := by
  have hlocked : lockedOf (lockAddAmount c w who amount expire) who =
      lockedOf (lock c w who .Add amount) who := rfl
  rw [hlocked, lockedOf_lock_add c w who hpos]
  split_ifs
  · rfl
  · cases hfind : (w.balances.locks who).find? fun l => l.id = stakingId with
    | none =>
      -- without a lock the new one is the amount, which a `u128` sum from zero leaves as is
      have hzero : lockedOf w who = 0 := by simp [lockedOf, Balances.lockAmount, hfind]
      rw [hzero, saturatingAdd_of_le (by omega), Nat.zero_add]
      rfl
    | some l =>
      have hl : lockedOf w who = l.amount := by simp [lockedOf, Balances.lockAmount, hfind]
      rw [hl]
      rfl

/-- A lock adds the same amount to both ledgers, and to nobody else's. -/
theorem lockAddAmount_grows (w : World A H) (who : A) (amount expire : ℕ) :
    Grows w (lockAddAmount c w who amount expire) where
  recorded_le a := by
    by_cases ha : a = who
    · subst ha
      rw [recordedOf_lockAddAmount]
      exact Nat.le_add_right _ _
    · rw [recordedOf_lockAddAmount_of_ne c w ha]
  agree a hagree hfit := by
    by_cases ha : a = who
    · subst ha
      rw [recordedOf_lockAddAmount] at hfit ⊢
      rcases Nat.eq_zero_or_pos amount with rfl | hpos
      · rw [lockedOf_lockAddAmount_zero, hagree, Nat.add_zero]
      · rw [lockedOf_lockAddAmount c w a expire hpos (by omega)]
        split_ifs with hnone
        · -- no entry in `Locks`: nothing recorded, so nothing locked either
          have hrec : recordedOf w a = 0 := by
            simp [recordedOf, Option.isNone_iff_eq_none.mp hnone]
          rw [hrec, Nat.zero_add]
        · rw [hagree, saturatingAdd_of_le hfit]
    · rw [lockedOf_lockAddAmount_of_ne c w ha, recordedOf_lockAddAmount_of_ne c w ha]
      exact hagree

/-- One release inside `unlock`: `Locks` still has its entry, so Balances' `lock_sub_amount`
lowers the lock by exactly the amount, which the lock holds. -/
theorem lockedOf_lock_sub (w : World A H) (who : A) {amount : ℕ}
    (hsome : (w.staking.locks who).isSome) (hle : amount ≤ lockedOf w who) :
    lockedOf (lock c w who .Sub amount) who = lockedOf w who - amount := by
  cases hentry : w.staking.locks who with
  | none => simp [hentry] at hsome
  | some h =>
    simp only [lock, hentry, Option.isNone_some, Bool.false_eq_true, if_false, lockedOf,
      World.setBalances]
    exact Balances.lockAmount_lockSubAmount _ _ _ _ hle lockReasons_ne_empty

/-- The releases of `unlock` over entries `l`, while `Locks` keeps its entry for `who`: the
lock drops by the sum of the due amounts, which it holds. -/
theorem lockedOf_foldl_release (who : A) (now : ℕ) (l : List (ℕ × ℕ)) (w : World A H)
    (hsome : (w.staking.locks who).isSome)
    (hle : ((l.filter fun i => i.1 ≤ now).map Prod.snd).sum ≤ lockedOf w who) :
    lockedOf (l.foldl (fun w i => if i.1 ≤ now then lock c w who .Sub i.2 else w) w) who =
      lockedOf w who - ((l.filter fun i => i.1 ≤ now).map Prod.snd).sum := by
  induction l generalizing w with
  | nil => simp
  | cons i l ih =>
    rw [List.foldl_cons]
    by_cases hdue : i.1 ≤ now
    · -- the due entry goes first, and the rest of the due sum stays below what is left
      rw [List.filter_cons_of_pos (by simpa using hdue), List.map_cons, List.sum_cons] at hle ⊢
      rw [if_pos hdue]
      have hsome' : ((lock c w who .Sub i.2).staking.locks who).isSome := by rwa [lock_staking]
      have hlock := lockedOf_lock_sub c w who hsome (by omega : i.2 ≤ lockedOf w who)
      rw [ih _ hsome' (by rw [hlock]; omega), hlock, Nat.sub_sub]
    · rw [List.filter_cons_of_neg (by simpa using hdue)] at hle ⊢
      rw [if_neg hdue]
      exact ih w hsome hle

theorem lockedOf_foldl_release_of_ne {who a : A} (ha : a ≠ who) (now : ℕ) (l : List (ℕ × ℕ))
    (w : World A H) :
    lockedOf (l.foldl (fun w i => if i.1 ≤ now then lock c w who .Sub i.2 else w) w) a =
      lockedOf w a := by
  induction l generalizing w with
  | nil => rfl
  | cons i l ih =>
    rw [List.foldl_cons, ih]
    split_ifs
    · exact lockedOf_lock_of_ne c w ha .Sub i.2
    · rfl

omit [DecidableEq A] in
/-- The due and the remaining entries of `Locks` share out its sum. -/
theorem sum_due_add_sum_remaining (l : List (ℕ × ℕ)) (now : ℕ) :
    ((l.filter fun i => i.1 ≤ now).map Prod.snd).sum +
        ((l.filter fun i => ¬ i.1 ≤ now).map Prod.snd).sum = (l.map Prod.snd).sum := by
  induction l with
  | nil => rfl
  | cons i l ih =>
    by_cases hdue : i.1 ≤ now
    · rw [List.filter_cons_of_pos (by simpa using hdue),
        List.filter_cons_of_neg (by simpa using hdue)]
      simp only [List.map_cons, List.sum_cons]
      omega
    · rw [List.filter_cons_of_neg (by simpa using hdue),
        List.filter_cons_of_pos (by simpa using hdue)]
      simp only [List.map_cons, List.sum_cons]
      omega

/-- What `unlock` leaves in `Locks`: the entries not yet due, in their order. -/
theorem locks_lockSubAmount (w : World A H) (who : A) :
    (lockSubAmount c w who).staking.locks who =
      (w.staking.locks who).map (List.filter fun i => ¬ i.1 ≤ w.blockNumber) := by
  cases hentry : w.staking.locks who with
  | none => simp [lockSubAmount, hentry]
  | some h => simp [lockSubAmount, hentry]

theorem recordedOf_lockSubAmount (w : World A H) (who : A) :
    recordedOf (lockSubAmount c w who) who =
      ((((w.staking.locks who).getD []).filter fun i => ¬ i.1 ≤ w.blockNumber).map
        Prod.snd).sum := by
  rw [recordedOf, locks_lockSubAmount]
  cases w.staking.locks who <;> rfl

/-- On agreeing ledgers, `unlock` lowers the lock by the sum of the due entries: the releases
run while `Locks` still holds its entry, and the lock holds all of it. -/
theorem lockedOf_lockSubAmount (w : World A H) (who : A)
    (hagree : lockedOf w who = recordedOf w who) :
    lockedOf (lockSubAmount c w who) who =
      lockedOf w who - ((((w.staking.locks who).getD []).filter fun i => i.1 ≤ w.blockNumber).map
        Prod.snd).sum := by
  cases hentry : w.staking.locks who with
  | none => simp [lockSubAmount, hentry]
  | some h =>
    have hsplit := sum_due_add_sum_remaining h w.blockNumber
    have hrec : recordedOf w who = (h.map Prod.snd).sum := by simp [recordedOf, hentry]
    simp only [lockSubAmount, hentry, Option.getD_some]
    exact lockedOf_foldl_release c who w.blockNumber h w (by simp [hentry])
      (by rw [hagree, hrec]; omega)

/-- `unlock` keeps the ledgers of every account agreeing: `who`'s lose the due entries on both
sides, and the others' are not touched. -/
theorem lockSubAmount_agree (w : World A H) (who a : A)
    (hagree : lockedOf w a = recordedOf w a) :
    lockedOf (lockSubAmount c w who) a = recordedOf (lockSubAmount c w who) a := by
  by_cases ha : a = who
  · subst ha
    have hsplit := sum_due_add_sum_remaining ((w.staking.locks a).getD []) w.blockNumber
    have hrec : recordedOf w a = (((w.staking.locks a).getD []).map Prod.snd).sum := rfl
    rw [lockedOf_lockSubAmount c w a hagree, recordedOf_lockSubAmount]
    omega
  · have hlocked : lockedOf (lockSubAmount c w who) a = lockedOf w a := by
      unfold lockSubAmount
      split
      · rfl
      · exact lockedOf_foldl_release_of_ne c ha _ _ w
    have hrecorded : recordedOf (lockSubAmount c w who) a = recordedOf w a := by
      unfold lockSubAmount
      split
      · rfl
      · simp only [recordedOf, World.setStaking_staking, Function.update_of_ne ha,
          foldl_lock_staking]
    rw [hlocked, hrecorded, hagree]

/-- `unlock` on an account whose ledgers agree: `Locks` keeps exactly the entries not yet due,
in their order, the Balances lock drops by exactly the sum of the due ones, and the ledgers
still agree. -/
theorem unlock_releases_due (w : World A H) (who : A)
    (hagree : lockedOf w who = recordedOf w who) :
    (unlock c w who).state.staking.locks who =
        (w.staking.locks who).map (List.filter fun i => ¬ i.1 ≤ w.blockNumber) ∧
      lockedOf (unlock c w who).state who +
          ((((w.staking.locks who).getD []).filter fun i => i.1 ≤ w.blockNumber).map
            Prod.snd).sum = lockedOf w who ∧
      lockedOf (unlock c w who).state who = recordedOf (unlock c w who).state who := by
  simp only [unlock, Machine.Outcome.ok_state]
  have hsplit := sum_due_add_sum_remaining ((w.staking.locks who).getD []) w.blockNumber
  have hrec : recordedOf w who = (((w.staking.locks who).getD []).map Prod.snd).sum := rfl
  refine ⟨locks_lockSubAmount c w who, ?_, lockSubAmount_agree c w who who hagree⟩
  rw [lockedOf_lockSubAmount c w who hagree]
  omega

/-- Account 1 has 5 due at block 0 and 7 due at block 10 in `Locks`, and a lock of 12. At block
3, `unlock` releases the 5 on both sides. -/
theorem unlock_releases_due_at_block_three :
    let w : World ℕ Unit :=
      ⟨{ State.empty with locks := fun a => if a = 1 then some [(0, 5), (10, 7)] else none },
        ⟨fun a => if a = 1 then some ⟨100, 0, 12, 12⟩ else none,
          fun a => if a = 1 then [⟨stakingId, 12, .All⟩] else [], 100⟩, (), 3⟩
    lockedOf w 1 = recordedOf w 1 ∧
      ((unlock runtimeConfig w 1).state.staking.locks 1 =
          (w.staking.locks 1).map (List.filter fun i => ¬ i.1 ≤ w.blockNumber) ∧
        lockedOf (unlock runtimeConfig w 1).state 1 +
            ((((w.staking.locks 1).getD []).filter fun i => i.1 ≤ w.blockNumber).map
              Prod.snd).sum = lockedOf w 1 ∧
        lockedOf (unlock runtimeConfig w 1).state 1 = recordedOf (unlock runtimeConfig w 1).state 1) :=
  ⟨by decide, unlock_releases_due runtimeConfig _ 1 (by decide)⟩

/-! #### The calls -/

theorem reserve_lockBooks (w : World A H) (who : A) (value : ℕ) :
    (reserve c w who value).state.lockBooks = w.lockBooks := by
  unfold reserve
  dsimp only
  split <;> simp [World.lockBooks, World.setBalances]

theorem unreserve_lockBooks (w : World A H) (who : A) (value : ℕ) :
    (unreserve c w who value).lockBooks = w.lockBooks := by
  simp [unreserve, World.lockBooks, World.setBalances]

theorem slashReserved_lockBooks (w : World A H) (who : A) (value : ℕ) :
    (slashReserved c w who value).lockBooks = w.lockBooks := by
  simp [slashReserved, World.lockBooks, World.setBalances]

/-- The evictions of `sort_after`: each entry cut off is unreserved and locked. -/
theorem abandonRecommended_grows (abandon : List (A × ℕ)) (w : World A H) :
    Grows w (abandonRecommended c w abandon) := by
  induction abandon generalizing w with
  | nil => exact Grows.refl w
  | cons i l ih =>
    simp only [abandonRecommended, List.foldl_cons] at ih ⊢
    refine (Grows.trans ?_ (lockAddAmount_grows c _ i.1 i.2 _)).trans (ih _)
    exact Grows.of_lockBooks (unreserve_lockBooks c w i.1 i.2)

theorem sortAfter_grows (w : World A H) (miner : A) (amount index : ℕ)
    (oldList : List (A × ℕ)) : Grows w (sortAfter c w miner amount index oldList).state := by
  unfold sortAfter
  generalize hr : (if index < c.recommendMaxNumber then reserve c w miner amount
    else .ok w) = r
  have hreserved : Grows w r.state := by
    rw [← hr]
    split_ifs
    · exact Grows.of_lockBooks (reserve_lockBooks c w miner amount)
    · exact Grows.refl w
  generalize (if index < c.recommendMaxNumber then oldList.insertIdx index (miner, amount)
    else oldList) = list
  dsimp only
  split
  · exact hreserved
  · -- the cut evicts and locks, and storing the list leaves both ledgers
    generalize decide (c.recommendMaxNumber ≤ list.length) = full
    have hcut : Grows w (if full = true then
        abandonRecommended c r.state (list.drop c.recommendMaxNumber) else r.state) := by
      cases full
      · exact hreserved
      · exact hreserved.trans (abandonRecommended_grows c _ _)
    generalize (if full = true then abandonRecommended c r.state (list.drop c.recommendMaxNumber)
      else r.state) = w₁ at hcut ⊢
    -- the stored list and the verdict on the index touch neither ledger
    split_ifs <;> exact hcut.trans_lockBooks rfl

theorem sortAccountByAmount_grows (w : World A H) (miner : A) (amount : ℕ) :
    Grows w (sortAccountByAmount c w miner amount).state := by
  unfold sortAccountByAmount
  split
  · exact sortAfter_grows c w miner amount _ _
  · split_ifs
    · exact Grows.refl w
    · exact (Grows.of_lockBooks (unreserve_lockBooks c w miner _)).trans
        (sortAfter_grows c _ miner _ _ _)

theorem requestUpToList_grows (w : World A H) (miner : A) (amount : ℕ) :
    Grows w (requestUpToList c w miner amount).state := by
  unfold requestUpToList
  split
  · exact Grows.refl w
  · exact Grows.refl w
  · exact sortAccountByAmount_grows c w miner amount

theorem requestDownFromList_grows (w : World A H) (miner : A) :
    Grows w (requestDownFromList c w miner).state := by
  unfold requestDownFromList
  split
  · exact Grows.refl w
  · exact ((Grows.of_lockBooks (unreserve_lockBooks c w miner _)).trans
      (lockAddAmount_grows c _ miner _ _)).trans_lockBooks rfl

theorem storeStakerInfo_lockBooks (w : World A H) (miner : A) (info : StakingInfo A)
    (stakerInfo : A × ℕ × ℕ) (others : List (A × ℕ × ℕ)) (nowBond nowStaking : ℕ)
    (isSlash : Bool) :
    (storeStakerInfo c w miner info stakerInfo others nowBond nowStaking isSlash).lockBooks =
      w.lockBooks := by
  unfold storeStakerInfo
  dsimp only
  split_ifs
  · rw [← slashReserved_lockBooks c w stakerInfo.1 stakerInfo.2.2]
    rfl
  · rw [← unreserve_lockBooks c w stakerInfo.1 stakerInfo.2.2]
    rfl
  · rfl

theorem updateStakingInfo_grows (w : World A H) (miner staker : A) (operate : Operate)
    (amountOpt : Option ℕ) (isSlash : Bool) :
    Grows w (updateStakingInfo c w miner staker operate amountOpt isSlash).state := by
  unfold updateStakingInfo
  split_ifs
  · exact Grows.refl w
  · split
    · exact Grows.refl w
    · split
      · exact Grows.refl w
      · cases operate with
        | Add =>
          dsimp only
          split
          · split
            · exact Grows.of_lockBooks (reserve_lockBooks c w staker _)
            · exact (Grows.of_lockBooks (reserve_lockBooks c w staker _)).trans_lockBooks
                (storeStakerInfo_lockBooks c _ miner _ _ _ _ _ isSlash)
          · exact Grows.refl w
        | Sub =>
          dsimp only
          split
          · -- the amount taken off the bond is unreserved and locked
            exact ((Grows.of_lockBooks (unreserve_lockBooks c w staker _)).trans
              (lockAddAmount_grows c _ staker _ _)).trans_lockBooks
              (storeStakerInfo_lockBooks c _ miner _ _ _ _ _ isSlash)
          · exact Grows.refl w

/-- Leaving a miner, by `remove_staker` or `exit_Staking`. -/
theorem leaveStaking_grows (w : World A H) (miner staker : A) (isSlash : Bool) :
    Grows w ((updateStakingInfo c w miner staker .Sub none isSlash).andThen fun w =>
      .ok (w.setStaking (stakerRemoveMiner w.staking staker miner))).state :=
  Machine.Outcome.andThen_state_of (updateStakingInfo_grows c w miner staker .Sub none isSlash)
    ((updateStakingInfo_grows c w miner staker .Sub none isSlash).trans_lockBooks rfl)

/-- The calls that write the pallet's registry only. -/
theorem register_lockBooks (w : World A H) (miner : A) (plotSize numericId minerProportion : ℕ)
    (rewardDest : Option A) :
    (register w miner plotSize numericId minerProportion rewardDest).state.lockBooks =
      w.lockBooks := by
  simp only [register]
  cases checkedMul gibBits plotSize GiB <;> simp only <;> split_ifs <;> rfl

theorem updateRewardDest_lockBooks (w : World A H) (miner dest : A) :
    (updateRewardDest w miner dest).state.lockBooks = w.lockBooks := by
  unfold updateRewardDest
  split_ifs <;> rfl

theorem updateNumericId_lockBooks (w : World A H) (miner : A) (numericId : ℕ) :
    (updateNumericId w miner numericId).state.lockBooks = w.lockBooks := by
  unfold updateNumericId
  dsimp only
  split_ifs
  · rfl
  · rfl
  split <;> rfl

theorem resizeDisk_locks (s : State A) (miner : A) (disk now : ℕ) :
    (resizeDisk s miner disk now).locks = s.locks := by
  unfold resizeDisk
  split <;> rfl

theorem updatePlotSize_lockBooks (removeHistory : A → H → H) (w : World A H) (miner : A)
    (plotSize : ℕ) : (updatePlotSize removeHistory w miner plotSize).state.lockBooks =
      w.lockBooks := by
  unfold updatePlotSize
  cases checkedMul gibBits plotSize GiB with
  | none => rfl
  | some disk =>
    simp only [Option.elim_some, setPlotSize]
    split_ifs
    any_goals rfl
    simp only [Machine.Outcome.ok_state, World.lockBooks, World.setStaking, resizeDisk_locks]

theorem stopMining_lockBooks (w : World A H) (miner : A) :
    (stopMining w miner).state.lockBooks = w.lockBooks := by
  unfold stopMining
  split
  · rfl
  dsimp only
  split <;> rfl

theorem restartMining_lockBooks (removeHistory : A → H → H) (w : World A H) (miner : A) :
    (restartMining removeHistory w miner).state.lockBooks = w.lockBooks := by
  unfold restartMining
  dsimp only
  split_ifs
  · rfl
  split
  · rfl
  split_ifs <;> rfl

theorem updateProportion_lockBooks (w : World A H) (miner : A) (proportion : Percent) :
    (updateProportion w miner proportion).state.lockBooks = w.lockBooks := by
  unfold updateProportion
  split_ifs
  · rfl
  split <;> rfl

/-- `staking` reserves the bond and writes the books; it locks nothing. -/
theorem staking_lockBooks (w : World A H) (who miner : A) (amount : ℕ) :
    (staking c w who miner amount).state.lockBooks = w.lockBooks := by
  unfold staking
  split
  · rfl
  split_ifs
  any_goals rfl
  split
  any_goals rfl
  split_ifs
  · rfl
  split
  · rfl
  dsimp only
  split
  · exact reserve_lockBooks c w who _
  · exact reserve_lockBooks c w who _

omit [DecidableEq A] in
theorem updateChill_locks (s : State A) (now : ℕ) : (updateChill c s now).locks = s.locks := by
  unfold updateChill
  dsimp only
  split_ifs <;> rfl

/-- The hooks of a block write the chill flag and the count of mining miners only. -/
theorem nextBlock_lockBooks (removeHistory : A → H → H) (w : World A H) :
    (step c removeHistory w .nextBlock).lockBooks = w.lockBooks := by
  simp only [step, onInitialize, onFinalize, World.lockBooks, World.setStaking, updateChill_locks]

/-- One event of the pallet keeps an account's ledgers agreeing, while what `Locks` records for
it afterwards fits in a `u128`. `unlock` releases on both sides; every other call lets the
ledgers grow together. -/
theorem step_agree (removeHistory : A → H → H) (w : World A H) (e : Event A H)
    (he : e.isExternal = false) (a : A) (hagree : lockedOf w a = recordedOf w a)
    (hfit : recordedOf (step c removeHistory w e) a ≤ maxOf Balances.balanceBits) :
    lockedOf (step c removeHistory w e) a = recordedOf (step c removeHistory w e) a := by
  cases e with
  | external => simp [Event.isExternal] at he
  | nextBlock => exact (Grows.of_lockBooks (nextBlock_lockBooks c removeHistory w)).agree a hagree hfit
  | call origin call =>
    have hgrows : call ≠ .unlock → Grows w (dispatch c removeHistory w origin call).state := by
      intro hcall
      cases origin with
      | root => exact Grows.refl w
      | none => exact Grows.refl w
      | signed who =>
        cases call with
        | unlock => exact absurd rfl hcall
        | register plotSize numericId minerProportion rewardDest =>
          exact Grows.of_lockBooks (register_lockBooks w who _ _ _ _)
        | requestUpToList amount => exact requestUpToList_grows c w who amount
        | requestDownFromList => exact requestDownFromList_grows c w who
        | updateRewardDest dest => exact Grows.of_lockBooks (updateRewardDest_lockBooks w who dest)
        | updateNumericId numericId =>
          exact Grows.of_lockBooks (updateNumericId_lockBooks w who numericId)
        | updatePlotSize plotSize =>
          exact Grows.of_lockBooks (updatePlotSize_lockBooks removeHistory w who plotSize)
        | stopMining => exact Grows.of_lockBooks (stopMining_lockBooks w who)
        | restartMining => exact Grows.of_lockBooks (restartMining_lockBooks removeHistory w who)
        | removeStaker staker => exact leaveStaking_grows c w who staker true
        | staking miner amount => exact Grows.of_lockBooks (staking_lockBooks c w who miner amount)
        | updateStaking miner operate amount =>
          exact updateStakingInfo_grows c w miner who operate _ false
        | exitStaking miner => exact leaveStaking_grows c w miner who false
        | updateProportion proportion =>
          exact Grows.of_lockBooks (updateProportion_lockBooks w who proportion)
    by_cases hcall : call = .unlock
    · subst hcall
      cases origin with
      | signed who => exact lockSubAmount_agree c w who a hagree
      | root => exact hagree
      | none => exact hagree
    · exact (hgrows hcall).agree a hagree hfit

/-- Along a run of the pallet from genesis with no outside change of the balances, an account
that started without a `pocstake` lock ends with its two ledgers agreeing, as long as what
`Locks` records for it fitted in a `u128` in every state of the run. -/
theorem ledgers_agree_along_run (removeHistory : A → H → H) (balances : Balances.State A)
    (handler : H) (who : A) (hgenesis : Balances.lockAmount stakingId (balances.locks who) = 0)
    (es : List (Event A H)) (hext : ∀ e ∈ es, e.isExternal = false)
    (hfit : ∀ n ≤ es.length, recordedOf ((machine c removeHistory balances handler).run
      (es.take n)) who ≤ maxOf Balances.balanceBits) :
    lockedOf ((machine c removeHistory balances handler).run es) who =
      recordedOf ((machine c removeHistory balances handler).run es) who := by
  -- the guard is the fit of what `Locks` records, and the allowed events are the pallet's own
  exact (machine c removeHistory balances handler).run_guarded_induction
    (P := fun w => lockedOf w who = recordedOf w who)
    (G := fun w => recordedOf w who ≤ maxOf Balances.balanceBits)
    hgenesis (fun w e he hagree hfit => step_agree c removeHistory w e he who hagree hfit)
    es hext hfit

/-- Account 1 registers, bids `10^12` for the recommended list and leaves it, which locks the
bid in both ledgers; the lock is not due yet when it calls `unlock` in the next block. -/
theorem ledgers_agree_after_leaving_list :
    let b : Balances.State ℕ :=
      ⟨fun a => if a = 1 then some ⟨10 ^ 14, 0, 0, 0⟩ else none, fun _ => [], 10 ^ 14⟩
    let m := machine runtimeConfig (fun _ h => h) b ()
    let es : List (Event ℕ Unit) := [.call (.signed 1) (.register 1 0 50 none),
      .call (.signed 1) (.requestUpToList (10 ^ 12)), .call (.signed 1) .requestDownFromList,
      .nextBlock, .call (.signed 1) .unlock]
    Balances.lockAmount stakingId (b.locks 1) = 0 ∧ (∀ e ∈ es, e.isExternal = false) ∧
      (∀ n ≤ es.length, recordedOf (m.run (es.take n)) 1 ≤ maxOf Balances.balanceBits) ∧
      recordedOf (m.run es) 1 = 10 ^ 12 ∧ lockedOf (m.run es) 1 = recordedOf (m.run es) 1 :=
  ⟨by decide, by decide, by decide +kernel, by decide +kernel,
    ledgers_agree_along_run runtimeConfig _ _ () 1 (by decide) _ (by decide)
      (by decide +kernel)⟩

end Run

end IpseCore.PocStaking
