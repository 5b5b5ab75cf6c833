import Mathlib.Algebra.Order.BigOperators.Group.List
import IpseCore.Poc.Model
import IpseCore.PocStaking.Ledger

/-!
# What a reward mints

`reward` pays a cycle's reward by `deposit_creating` into the miner, its reward
destination, its stakers and the treasury. `Pays x w w'` says that `w'` comes from `w` by
such payments minting at most `x` in all: the total issuance grows by at most `x`, while
PocStaking's storage and the block number stay as they are.

Each function on the payment path mints at most the amount it splits: `reward_miner` its
amount, the stakers' loop its `stakers_reward` when the total covers the bonds,
`reward_staker` its reward, and the ten and ninety percent of a reduced reward never both
round up. So `reward` mints at most the reward. For a registered miner the path never
panics, and with a positive total whenever there are stakers `reward_staker` never stops
on `DivZero`.
-/

namespace IpseCore.Poc

open Unsigned

section Pays

variable {A : Type}

/-- `w'` comes from `w` by payments minting at most `x`. -/
structure Pays (x : ℕ) (w w' : World A) : Prop where
  staking_eq : w'.staking = w.staking
  blockNumber_eq : w'.blockNumber = w.blockNumber
  issuance_le : w'.balances.totalIssuance ≤ w.balances.totalIssuance + x

variable {x y : ℕ} {w w₁ w₂ : World A}

theorem Pays.refl (x : ℕ) (w : World A) : Pays x w w := ⟨rfl, rfl, Nat.le_add_right _ _⟩

theorem Pays.trans (h₁ : Pays x w w₁) (h₂ : Pays y w₁ w₂) : Pays (x + y) w w₂ where
  staking_eq := h₂.staking_eq.trans h₁.staking_eq
  blockNumber_eq := h₂.blockNumber_eq.trans h₁.blockNumber_eq
  issuance_le := by
    have h₁' := h₁.issuance_le
    have h₂' := h₂.issuance_le
    omega

theorem Pays.mono (h : Pays x w w₁) (hxy : x ≤ y) : Pays y w w₁ where
  staking_eq := h.staking_eq
  blockNumber_eq := h.blockNumber_eq
  issuance_le := le_trans h.issuance_le (Nat.add_le_add_left hxy _)

/-- Writes to the pallet's own storage mint nothing. -/
theorem Pays.setPoc (h : Pays x w w₁) (p : State A) : Pays x w (w₁.setPoc p) :=
  ⟨h.staking_eq, h.blockNumber_eq, h.issuance_le⟩

theorem Pays.of_setPoc {p : State A} (h : Pays x (w.setPoc p) w₁) : Pays x w w₁ :=
  ⟨h.staking_eq, h.blockNumber_eq, h.issuance_le⟩

end Pays

variable {A : Type} [DecidableEq A] (c : Config A)

/-! ### Single payments -/

/-- `deposit_creating` with the imbalance dropped mints at most the amount. -/
theorem depositCreating_pays (w : World A) (who : A) (amount : ℕ) :
    Pays amount w (depositCreating c w who amount) where
  staking_eq := rfl
  blockNumber_eq := rfl
  issuance_le := by
    let minted := Balances.depositCreating c.staking.existentialDeposit w.balances who amount
    calc (Balances.dropPositive minted.2 minted.1).totalIssuance
        ≤ minted.2.totalIssuance + minted.1 := Balances.dropPositive_totalIssuance_le _ _
      _ ≤ w.balances.totalIssuance + amount :=
        Nat.add_le_add (Balances.depositCreating_totalIssuance_le _ _ _ _)
          (Balances.depositCreating_fst_le _ _ _ _)

theorem payAccount_pays (w : World A) (who : A) (amount now : ℕ) :
    Pays amount w (payAccount c w who amount now) :=
  (depositCreating_pays c w who amount).setPoc _

theorem rewardTreasury_pays (w : World A) (reward : ℕ) :
    Pays reward w (rewardTreasury c w reward) :=
  depositCreating_pays c w c.treasuryId reward

/-- `reward_miner` mints at most its amount: ten percent and the rest add up to it. -/
theorem rewardMiner_pays {w w' : World A} {miner : A} {amount now : ℕ}
    (h : rewardMiner c w miner amount now = some w') : Pays amount w w' := by
  unfold rewardMiner at h
  cases hdisk : w.staking.diskOf miner with
  | none => simp [hdisk] at h
  | some disk =>
    simp only [hdisk, Option.map_some, Option.some.injEq] at h
    subst h
    split_ifs with hdest
    · exact payAccount_pays c w _ amount now
    · have hsplit : Percent.fromPercent 10 * amount +
          saturatingSub amount (Percent.fromPercent 10 * amount) = amount := by
        have hle := Percent.mul_le (Percent.fromPercent 10) amount
        unfold saturatingSub
        generalize Percent.fromPercent 10 * amount = m at hle ⊢
        omega
      exact ((payAccount_pays c w miner _ now).trans (payAccount_pays c _ _ _ now)).mono
        hsplit.le

/-- A registered miner's `reward_miner` does not panic. -/
theorem rewardMiner_isSome {w : World A} {miner : A} (hdisk : (w.staking.diskOf miner).isSome)
    (amount now : ℕ) : (rewardMiner c w miner amount now).isSome := by
  simp [rewardMiner, Option.isSome_map, hdisk]

/-! ### The stakers' loop -/

/-- The share of `stakers_reward` that a staker's bond earns. -/
def stakerShare (stakersReward totalStaking : ℕ) (stakerInfo : A × ℕ × ℕ) : ℕ :=
  saturatingMul Balances.balanceBits stakersReward stakerInfo.2.1 / totalStaking

omit [DecidableEq A] in
/-- The shares add up to at most `stakers_reward` when the total covers the bonds. -/
theorem sum_stakerShare_le (stakersReward totalStaking : ℕ) (l : List (A × ℕ × ℕ))
    (htotal : (l.map PocStaking.bondOf).sum ≤ totalStaking) :
    (l.map (stakerShare stakersReward totalStaking)).sum ≤ stakersReward := by
  calc (l.map (stakerShare stakersReward totalStaking)).sum
      ≤ (l.map fun e => stakersReward * PocStaking.bondOf e / totalStaking).sum :=
        List.sum_le_sum fun e _ => Nat.div_le_div_right (saturatingMul_le _ _ _)
    _ ≤ (l.map fun e => stakersReward * PocStaking.bondOf e).sum / totalStaking :=
        Rounding.sum_map_div_le l _ totalStaking
    _ = stakersReward * (l.map PocStaking.bondOf).sum / totalStaking := by
        rw [List.sum_map_mul_left]
    _ ≤ stakersReward * totalStaking / totalStaking :=
        Nat.div_le_div_right (Nat.mul_le_mul_left _ htotal)
    _ ≤ stakersReward := Nat.div_le_of_le_mul (by rw [Nat.mul_comm])

section Stakers

variable {miner : A} {stakersReward totalStaking now : ℕ}

/-- The stakers' loop mints at most the sum of the shares it pays; a `DivZero` stops it
where it stands. -/
theorem payStakers_pays (l : List (A × ℕ × ℕ)) {w : World A} {o : Machine.Outcome Error (World A)}
    (h : payStakers c miner stakersReward totalStaking now l w = some o) :
    Pays (l.map (stakerShare stakersReward totalStaking)).sum w o.state := by
  induction l generalizing w with
  | nil =>
    simp only [payStakers, Option.some.injEq] at h
    subst h
    exact Pays.refl _ w
  | cons e l ih =>
    simp only [payStakers] at h
    cases hdiv : checkedDiv (saturatingMul Balances.balanceBits stakersReward e.2.1)
        totalStaking with
    | none =>
      simp only [hdiv, Option.some.injEq] at h
      subst h
      exact Pays.refl _ w
    | some share =>
      have hshare : share = stakerShare stakersReward totalStaking e :=
        ((checkedDiv_eq_some_iff).mp hdiv).2.symm
      simp only [hdiv] at h
      obtain ⟨w₁, hpaid, hrest⟩ := Option.bind_eq_some_iff.mp h
      -- the staker's share goes to the miner's reward path or straight to the staker
      have h₁ : Pays share w w₁ := by
        split_ifs at hpaid
        · exact rewardMiner_pays c hpaid
        · rw [Option.some.injEq] at hpaid
          subst hpaid
          exact payAccount_pays c w _ share now
      rw [List.map_cons, List.sum_cons, ← hshare]
      exact h₁.trans (ih hrest)

/-- With a registered miner, the stakers' loop does not panic. -/
theorem payStakers_isSome (miner : A) (stakersReward totalStaking now : ℕ)
    (l : List (A × ℕ × ℕ)) (w : World A) (hdisk : (w.staking.diskOf miner).isSome) :
    (payStakers c miner stakersReward totalStaking now l w).isSome := by
  induction l generalizing w with
  | nil => rfl
  | cons e l ih =>
    simp only [payStakers]
    cases checkedDiv (saturatingMul Balances.balanceBits stakersReward e.2.1) totalStaking with
    | none => rfl
    | some share =>
      -- the payment of this staker exists and leaves the registry alone
      obtain ⟨w₁, hpaid, hframe⟩ : ∃ w₁, (if e.1 = miner then rewardMiner c w miner share now
          else some (payAccount c w e.1 share now)) = some w₁ ∧ w₁.staking = w.staking := by
        split_ifs
        · obtain ⟨w₁, hw₁⟩ := Option.isSome_iff_exists.mp (rewardMiner_isSome c hdisk share now)
          exact ⟨w₁, hw₁, (rewardMiner_pays c hw₁).staking_eq⟩
        · exact ⟨_, rfl, (payAccount_pays c w _ _ now).staking_eq⟩
      simp only [hpaid, Option.bind_some]
      exact ih w₁ (by rw [hframe]; exact hdisk)

/-- With a positive total, the stakers' loop never stops on `DivZero`: whatever it returns
is accepted. -/
theorem payStakers_result (l : List (A × ℕ × ℕ)) {w : World A}
    {o : Machine.Outcome Error (World A)} (htotal : 0 < totalStaking)
    (h : payStakers c miner stakersReward totalStaking now l w = some o) : o.result = .ok () := by
  induction l generalizing w with
  | nil =>
    simp only [payStakers, Option.some.injEq] at h
    rw [← h]
    rfl
  | cons e l ih =>
    have hdiv : checkedDiv (saturatingMul Balances.balanceBits stakersReward e.2.1)
        totalStaking = some (stakerShare stakersReward totalStaking e) :=
      (checkedDiv_eq_some_iff).mpr ⟨Nat.pos_iff_ne_zero.mp htotal, rfl⟩
    simp only [payStakers, hdiv] at h
    obtain ⟨w₁, -, hrest⟩ := Option.bind_eq_some_iff.mp h
    exact ih hrest

end Stakers

/-! ### `reward_staker` and `reward` -/

variable {miner : A}

/-- `reward_staker` mints at most its reward when the miner's total covers the bonds. -/
theorem rewardStaker_pays {w : World A} {reward : ℕ} {o : Machine.Outcome Error (World A)}
    (h : rewardStaker c w miner reward = some o)
    (hbooks : ∀ info, w.staking.stakingInfoOf miner = some info →
      (info.others.map PocStaking.bondOf).sum ≤ info.totalStaking) : Pays reward w o.state := by
  unfold rewardStaker at h
  cases hinfo : w.staking.stakingInfoOf miner with
  | none =>
    simp only [hinfo, Option.some.injEq] at h
    subst h
    exact Pays.refl _ w
  | some info =>
    simp only [hinfo] at h
    split_ifs at h with hnone
    · obtain ⟨w', hw', rfl⟩ := Option.map_eq_some_iff.mp h
      exact rewardMiner_pays c hw'
    · obtain ⟨w₁, hw₁, hrest⟩ := Option.bind_eq_some_iff.mp h
      have hminer := Percent.mul_le info.minerProportion reward
      have hshares := sum_stakerShare_le (reward - info.minerProportion * reward)
        info.totalStaking info.others (hbooks info hinfo)
      -- the miner's proportion and the stakers' shares of the rest
      have hsum : info.minerProportion * reward + (info.others.map
          (stakerShare (reward - info.minerProportion * reward) info.totalStaking)).sum ≤
            reward := by
        generalize info.minerProportion * reward = m at hminer hshares ⊢
        omega
      exact ((rewardMiner_pays c hw₁).trans (payStakers_pays c _ hrest)).mono hsum

/-- A registered miner's `reward_staker` does not panic. -/
theorem rewardStaker_isSome (w : World A) (hdisk : (w.staking.diskOf miner).isSome)
    (reward : ℕ) : (rewardStaker c w miner reward).isSome := by
  unfold rewardStaker
  cases hinfo : w.staking.stakingInfoOf miner with
  | none => rfl
  | some info =>
    simp only
    split_ifs
    · rw [Option.isSome_map]
      exact rewardMiner_isSome c hdisk _ _
    · obtain ⟨w₁, hw₁⟩ := Option.isSome_iff_exists.mp
        (rewardMiner_isSome c hdisk (info.minerProportion * reward) w.blockNumber)
      rw [hw₁, Option.bind_some]
      exact payStakers_isSome c miner _ _ _ _ w₁
        (by rw [(rewardMiner_pays c hw₁).staking_eq]; exact hdisk)

/-- For a registered miner whose total is positive when it has stakers, `reward_staker`
pays everyone and is accepted: it never stops on `DivZero`. -/
theorem rewardStaker_ok (w : World A) {info : PocStaking.StakingInfo A}
    (hdisk : (w.staking.diskOf miner).isSome) (hinfo : w.staking.stakingInfoOf miner = some info)
    (htotal : info.others ≠ [] → 0 < info.totalStaking) (reward : ℕ) :
    ∃ w', rewardStaker c w miner reward = some (.ok w') := by
  obtain ⟨o, ho⟩ := Option.isSome_iff_exists.mp (rewardStaker_isSome c w hdisk reward)
  refine ⟨o.state, ?_⟩
  rw [ho]
  congr
  -- only the stakers' loop can reject, and only for a zero total
  have hresult : o.result = .ok () := by
    unfold rewardStaker at ho
    simp only [hinfo] at ho
    split_ifs at ho with hnone
    · obtain ⟨w', -, rfl⟩ := Option.map_eq_some_iff.mp ho
      rfl
    · obtain ⟨w₁, -, hrest⟩ := Option.bind_eq_some_iff.mp ho
      exact payStakers_result c _ (htotal (List.length_eq_zero_iff.not.mp hnone)) hrest
  cases o
  simp only at hresult
  rw [hresult]
  rfl

/-- A reduced reward mints at most the whole reward: ten percent through `reward_staker`,
ninety to the treasury, and the two never both round up. -/
theorem rewardReduced_pays {w w' : World A} {allReward reward : ℕ}
    (h : rewardReduced c w miner allReward = some (reward, w'))
    (hbooks : ∀ info, w.staking.stakingInfoOf miner = some info →
      (info.others.map PocStaking.bondOf).sum ≤ info.totalStaking) : Pays allReward w w' := by
  unfold rewardReduced at h
  obtain ⟨o, ho, hpair⟩ := Option.map_eq_some_iff.mp h
  rw [Prod.mk.injEq] at hpair
  rw [← hpair.2]
  exact ((rewardStaker_pays c ho hbooks).trans (rewardTreasury_pays c _ _)).mono
    (Percent.ten_add_ninety_le allReward)

theorem rewardFull_pays {w w' : World A} {allReward reward : ℕ}
    (h : rewardFull c w miner allReward = some (reward, w'))
    (hbooks : ∀ info, w.staking.stakingInfoOf miner = some info →
      (info.others.map PocStaking.bondOf).sum ≤ info.totalStaking) : Pays allReward w w' := by
  unfold rewardFull at h
  obtain ⟨o, ho, hpair⟩ := Option.map_eq_some_iff.mp h
  rw [Prod.mk.injEq] at hpair
  rw [← hpair.2]
  exact rewardStaker_pays c ho hbooks

/-- Whatever branch `reward` takes, its split mints at most the reward. -/
theorem rewardSplit_pays {w w' : World A} {allReward disk updateTime minerMiningNum reward : ℕ}
    (h : rewardSplit c w miner allReward disk updateTime minerMiningNum = some (reward, w'))
    (hbooks : ∀ info, w.staking.stakingInfoOf miner = some info →
      (info.others.map PocStaking.bondOf).sum ≤ info.totalStaking) :
    Pays allReward w w' := by
  unfold rewardSplit at h
  cases hinfo : w.staking.stakingInfoOf miner with
  | none =>
    simp only [hinfo] at h
    exact rewardReduced_pays c h hbooks
  | some info =>
    simp only [hinfo] at h
    -- the capacity read writes `NetPower` first, which mints nothing
    split_ifs at h
    · exact (rewardReduced_pays c h hbooks).of_setPoc
    · exact (rewardFull_pays c h hbooks).of_setPoc
    · exact rewardReduced_pays c h hbooks

/-- A registered miner's reward split does not panic. -/
theorem rewardSplit_isSome (w : World A) (hdisk : (w.staking.diskOf miner).isSome)
    (allReward disk updateTime minerMiningNum : ℕ) :
    (rewardSplit c w miner allReward disk updateTime minerMiningNum).isSome := by
  have hreduced : ∀ w : World A, (w.staking.diskOf miner).isSome →
      (rewardReduced c w miner allReward).isSome := fun w hdisk => by
    rw [rewardReduced, Option.isSome_map]
    exact rewardStaker_isSome c w hdisk _
  unfold rewardSplit
  cases w.staking.stakingInfoOf miner with
  | none => exact hreduced w hdisk
  | some info =>
    simp only
    split_ifs
    · exact hreduced (w.setPoc (getTotalCapacity w.handler).2) hdisk
    · rw [rewardFull, Option.isSome_map]
      exact rewardStaker_isSome c (w.setPoc (getTotalCapacity w.handler).2) hdisk _
    · exact hreduced w hdisk

/-- `reward` mints at most the reward. -/
theorem reward_pays {w : World A} {r : ℕ} {o : Machine.Outcome Error (World A)}
    (h : reward c w miner r = some o)
    (hbooks : ∀ info, w.staking.stakingInfoOf miner = some info →
      (info.others.map PocStaking.bondOf).sum ≤ info.totalStaking) : Pays r w o.state := by
  unfold reward at h
  cases hdisk : w.staking.diskOf miner with
  | none =>
    simp only [hdisk, Option.some.injEq] at h
    subst h
    exact Pays.refl _ w
  | some machineInfo =>
    simp only [hdisk] at h
    obtain ⟨paid, hpaid, rfl⟩ := Option.map_eq_some_iff.mp h
    exact (rewardSplit_pays c hpaid hbooks).setPoc _

/-- For a registered miner, `reward` does not panic and is accepted. -/
theorem reward_ok (w : World A) (hdisk : (w.staking.diskOf miner).isSome) (r : ℕ) :
    ∃ w', reward c w miner r = some (.ok w') := by
  obtain ⟨machineInfo, hm⟩ := Option.isSome_iff_exists.mp hdisk
  obtain ⟨paid, hpaid⟩ := Option.isSome_iff_exists.mp
    (rewardSplit_isSome c w hdisk r machineInfo.plotSize machineInfo.updateTime
      (minerMiningNum w.handler miner))
  unfold reward
  simp only [hm, hpaid, Option.map_some]
  exact ⟨_, rfl⟩

/-! ### The hooks and the calls -/

/-- Every miner's total covers the bonds of its stakers, as consistent books ensure. -/
def BooksCovered (s : PocStaking.State A) : Prop :=
  ∀ m info, s.stakingInfoOf m = some info →
    (info.others.map PocStaking.bondOf).sum ≤ info.totalStaking

/-- The payment at the end of a cycle mints at most the cycle's reward. -/
theorem payCycle_pays {w w' : World A} {currentBlock r : ℕ}
    (h : payCycle c w currentBlock r = some w') (hbooks : BooksCovered w.staking) :
    Pays r w w' := by
  unfold payCycle at h
  split_ifs at h
  · -- the miner of the cycle's entry, if it has one, through `reward`
    split at h
    · split at h
      · obtain ⟨o, ho, rfl⟩ := Option.map_eq_some_iff.mp h
        exact reward_pays c ho (hbooks _)
      · rw [Option.some.injEq] at h
        subst h
        exact Pays.refl _ w
    · rw [Option.some.injEq] at h
      subst h
      exact Pays.refl _ w
  · rw [Option.some.injEq] at h
    subst h
    exact (rewardTreasury_pays c _ r).of_setPoc

/-- `on_finalize` mints at most the reward of the block. -/
theorem onFinalize_pays {w w' : World A} (h : onFinalize c w = some w')
    (hbooks : BooksCovered w.staking) :
    Pays ((getRewardAmount c w.blockNumber).getD 0) w w' := by
  unfold onFinalize at h
  cases hr : getRewardAmount c w.blockNumber with
  | none =>
    simp only [hr, Option.some.injEq] at h
    subst h
    exact (Pays.refl _ w).setPoc _
  | some r =>
    simp only [hr] at h
    obtain ⟨w₁, hpaid, rfl⟩ := Option.map_eq_some_iff.mp h
    -- the rotation and the final writes touch only the pallet's storage
    have hcycle : Pays r (w.setPoc (rotateActiveMiners w.handler w.blockNumber)) w₁ := by
      split_ifs at hpaid
      · exact payCycle_pays c hpaid hbooks
      · rw [Option.some.injEq] at hpaid
        subst hpaid
        exact Pays.refl _ _
    exact hcycle.of_setPoc.setPoc _

omit [DecidableEq A] in
/-- `on_initialize` writes only the pallet's storage. -/
theorem onInitialize_eq_setPoc (w : World A) :
    onInitialize c w = w.setPoc (onInitialize c w).handler := by
  unfold onInitialize
  split_ifs <;> rfl

/-- `mining` writes only the pallet's storage. -/
theorem mining_eq_setPoc (w : World A) (miner : A) (accountId height : ℕ) (sig : Signature)
    (nonce deadline : ℕ) :
    (mining c w miner accountId height sig nonce deadline).state =
      w.setPoc (mining c w miner accountId height sig nonce deadline).state.handler := by
  unfold mining
  dsimp only
  -- every branch ends in the state before the call or in one with new pallet storage
  split_ifs <;> (repeat' split) <;> rfl

/-- The calls of the pallet write only its storage. -/
theorem dispatch_eq_setPoc (w : World A) (origin : Origin A) (call : Call) :
    (dispatch c w origin call).state = w.setPoc (dispatch c w origin call).state.handler := by
  unfold dispatch
  split
  · unfold setDifficulty
    split_ifs <;> rfl
  · unfold setAdjustDifficultyDuration
    split_ifs <;> rfl
  · rfl
  · unfold setCapacityOfPerDifficulty
    split_ifs <;> rfl
  · exact mining_eq_setPoc c w _ _ _ _ _ _
  · rfl

end IpseCore.Poc
