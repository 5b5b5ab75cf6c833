import Mathlib.Algebra.Order.BigOperators.Group.Finset
import IpseCore.Poc.Model
import IpseCore.Library.Rounding

/-!
# The halving schedule

`get_reward_amount` pays at every block of the `k`-th two-year period the same amount,
`TotalMiningReward / 2 ^ (k + 1) / 2 / YEAR * MiningExpire`, or nothing once `2 ^ (k + 1)`
leaves `u32`. Only the last block of each mining cycle pays, so the `2 * YEAR` blocks of a
period pay `YEAR` times, at most `TotalMiningReward / 2 ^ (k + 1)` together. The halvings
add up to at most the total, whatever the height.
-/

namespace IpseCore.Poc

open Unsigned Finset

variable {A : Type} (c : Config A)

theorem YEAR_pos : 0 < YEAR := by
  rw [YEAR_eq]
  norm_num

/-- What every block of the `k`-th two-year period is paid. -/
def periodReward (k : ℕ) : ℕ :=
  match checkedPow 32 2 (k + 1) with
  | some n => c.totalMiningReward / n / 2 / YEAR * MiningExpire
  | none => 0

/-- `get_reward_amount` never fails; it pays the reward of the block's period. -/
theorem getRewardAmount_eq (n : ℕ) :
    getRewardAmount c n = some (periodReward c (n / (2 * YEAR))) := by
  have hdiv : checkedDiv n YEAR = some (n / YEAR) :=
    checkedDiv_eq_some_iff.mpr ⟨YEAR_pos.ne', rfl⟩
  have hperiod : n / YEAR / 2 = n / (2 * YEAR) := by
    rw [Nat.div_div_eq_div_mul, Nat.mul_comm]
  simp only [getRewardAmount, hdiv, Option.map_some, hperiod]
  rfl

/-- The `YEAR` paying blocks of a period pay at most its halving of the total. -/
theorem year_mul_periodReward_le (k : ℕ) :
    YEAR * periodReward c k ≤ c.totalMiningReward / 2 ^ (k + 1) := by
  unfold periodReward
  cases hpow : checkedPow 32 2 (k + 1) with
  | none => simp
  | some n =>
    obtain ⟨-, rfl⟩ := checkedPow_eq_some_iff.mp hpow
    calc YEAR * (c.totalMiningReward / 2 ^ (k + 1) / 2 / YEAR * MiningExpire)
        = c.totalMiningReward / 2 ^ (k + 1) / (2 * YEAR) * (2 * YEAR) := by
          rw [Nat.div_div_eq_div_mul, MiningExpire]
          ring
      _ ≤ c.totalMiningReward / 2 ^ (k + 1) := Nat.div_mul_le_self _ _

/-- What `on_finalize` of block `n` pays: the reward, at the last block of a cycle. -/
def cycleReward (n : ℕ) : ℕ :=
  if (n + 1) % MiningExpire = 0 then (getRewardAmount c n).getD 0 else 0

/-- A period pays its reward at its `YEAR` odd blocks. -/
theorem sum_cycleReward_period (k : ℕ) :
    ∑ j ∈ range (2 * YEAR), cycleReward c (2 * YEAR * k + j) = YEAR * periodReward c k := by
  have hterm : ∀ j ∈ range (2 * YEAR),
      cycleReward c (2 * YEAR * k + j) = if j % 2 = 1 then periodReward c k else 0 := by
    intro j hj
    rw [mem_range] at hj
    have hk : (2 * YEAR * k + j) / (2 * YEAR) = k := by
      rw [Nat.mul_comm (2 * YEAR) k, Nat.add_comm, Nat.add_mul_div_right _ _ (by
        have := YEAR_pos; omega), Nat.div_eq_of_lt hj, Nat.zero_add]
    -- a block pays when the next one opens a cycle, that is at odd offsets
    have hpay : (2 * YEAR * k + j + 1) % MiningExpire = 0 ↔ j % 2 = 1 := by
      rw [MiningExpire, show 2 * YEAR * k = 2 * (YEAR * k) by ring]
      omega
    simp only [cycleReward, getRewardAmount_eq, hk, Option.getD_some]
    by_cases hodd : j % 2 = 1
    · rw [if_pos (hpay.mpr hodd), if_pos hodd]
    · rw [if_neg (mt hpay.mp hodd), if_neg hodd]
  rw [sum_congr rfl hterm, Rounding.sum_range_odd_const]

/-- The first `K` periods pay `YEAR` times each period's reward. -/
theorem sum_cycleReward_periods (K : ℕ) :
    ∑ n ∈ range (2 * YEAR * K), cycleReward c n = ∑ k ∈ range K, YEAR * periodReward c k := by
  induction K with
  | zero => simp
  | succ K ih =>
    rw [Nat.mul_succ, sum_range_add, ih, sum_cycleReward_period, sum_range_succ]

/-- The first `K` periods pay at most the total. -/
theorem sum_cycleReward_periods_le (K : ℕ) :
    ∑ n ∈ range (2 * YEAR * K), cycleReward c n ≤ c.totalMiningReward :=
  calc ∑ n ∈ range (2 * YEAR * K), cycleReward c n
      = ∑ k ∈ range K, YEAR * periodReward c k := sum_cycleReward_periods c K
    _ ≤ ∑ k ∈ range K, c.totalMiningReward / 2 ^ (k + 1) :=
      sum_le_sum fun k _ => year_mul_periodReward_le c k
    _ ≤ c.totalMiningReward := Rounding.sum_range_div_two_pow_le _ _

/-- The blocks below any height are paid at most the total. -/
theorem sum_range_cycleReward_le (N : ℕ) :
    ∑ n ∈ range N, cycleReward c n ≤ c.totalMiningReward :=
  calc ∑ n ∈ range N, cycleReward c n
      ≤ ∑ n ∈ range (2 * YEAR * N), cycleReward c n :=
        sum_le_sum_of_subset (range_subset_range.mpr
          (Nat.le_mul_of_pos_left _ (by have := YEAR_pos; omega)))
    _ ≤ c.totalMiningReward := sum_cycleReward_periods_le c N

/-- Up to any height, the rewards `get_reward_amount` gives the blocks where `on_finalize`
pays add up to at most `TotalMiningReward`. -/
theorem mining_rewards_within_total (N : ℕ) :
    ∑ n ∈ range (N + 1),
      (if (n + 1) % MiningExpire = 0 then (getRewardAmount c n).getD 0 else 0) ≤
        c.totalMiningReward := by
  have hsub : range (N + 1) ⊆ range (2 * YEAR * (N + 1)) :=
    range_subset_range.mpr (Nat.le_mul_of_pos_left _ (by have := YEAR_pos; omega))
  calc ∑ n ∈ range (N + 1),
        (if (n + 1) % MiningExpire = 0 then (getRewardAmount c n).getD 0 else 0)
      = ∑ n ∈ range (N + 1), cycleReward c n := rfl
    _ ≤ ∑ n ∈ range (2 * YEAR * (N + 1)), cycleReward c n := sum_le_sum_of_subset hsub
    _ ≤ c.totalMiningReward := sum_cycleReward_periods_le c (N + 1)

end IpseCore.Poc
