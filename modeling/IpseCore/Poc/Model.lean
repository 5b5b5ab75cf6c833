import IpseCore.PocStaking.Model
import IpseCore.Library.BoundedLog

/-!
# The PoC pallet

`poc.rs` runs the proof-of-capacity mining game. Time is cut into mining cycles of
`MiningExpire` blocks. Registered miners submit deadlines for the current cycle, and
`DlInfo` keeps the best deadline of each cycle. At the last block of a cycle `on_finalize`
pays the cycle's reward to the miner of the best deadline, or to the treasury when no
deadline came. `reward` splits the payment between the miner, its reward destination, its
stakers and the treasury. Every `AdjustDifficultyDuration` blocks the difficulty in
`TargetInfo` is adjusted from the recent deadlines.

The pallet reads PocStaking's storage and acts on the balances; its own storage is the one
PocStaking's `PocHandler` clears. Its calls therefore act on a `PocStaking.World` whose
handler storage is this pallet's. Hashing a plot (the `conjugate-poc` crate) is a
parameter of the model.

A call returns an `Outcome`, with the writes made before a rejection kept. Reward payments
run inside `on_finalize`, where a panic makes the block impossible to build: there the
functions return `Option`, with `none` for a panic.
-/

namespace IpseCore.Poc

open Unsigned

/-- `YEAR`: block numbers of a year. -/
def YEAR : ℕ := 365 * DAYS

/-- `GIB`. -/
def GIB : ℕ := 1024 * 1024 * 1024

/-- `SPEED`. -/
def SPEED : ℕ := 11

/-- `MiningExpire`: the length of a mining cycle, in blocks. -/
def MiningExpire : ℕ := 2

theorem YEAR_eq : YEAR = 2628000 := by
  rw [YEAR, DAYS_eq]

/-- The `[u8; 32]` signature of a mining call. -/
abbrev Signature := Vector UInt8 32

/-- `MiningInfo`: a cycle's best deadline; `miner = none` stands for the treasury. -/
structure MiningInfo (A : Type) where
  /-- `miner`. -/
  miner : Option A
  /-- `best_dl`. -/
  bestDl : ℕ
  /-- `block`. -/
  block : ℕ
  deriving DecidableEq, Repr

/-- `MiningHistory`. -/
structure MiningHistory where
  /-- `total_num`: how many rewards the miner has had. -/
  totalNum : ℕ
  /-- `history`: `(block, reward)`. -/
  history : List (ℕ × ℕ)
  deriving DecidableEq, Repr

/-- `Difficulty`. -/
structure Difficulty where
  /-- `base_target`. -/
  baseTarget : ℕ
  /-- `net_difficulty`. -/
  netDifficulty : ℕ
  /-- `block`: where the difficulty was set. -/
  block : ℕ
  deriving DecidableEq, Repr

/-- `ActiveMiners`: `(now_count, now, last_count, last)`. -/
structure ActiveMiners (A : Type) where
  /-- How many miners submitted since the last rotation. -/
  nowCount : ℕ
  /-- Who submitted since the last rotation. -/
  now : Finset A
  /-- `nowCount` at the last rotation. -/
  lastCount : ℕ
  /-- `now` at the last rotation. -/
  last : Finset A

/-- The errors of the pallet, with those of PocStaking passed on by `?`. -/
inductive Error where
  | DivZero
  | NotRegister
  | PidErr
  | ConvertErr
  | HeightNotInDuration
  | NotBestDeadline
  | VerifyFaile
  | CapacityIsZero
  | DeadlineTooLarge
  | DurationIsZero
  | DifficultyIsZero
  | DifficultyIsTooLarge
  | Staking (e : PocStaking.Error)
  | BadOrigin
  | Panic
  deriving DecidableEq, Repr

/-- The runtime parameters of the pallet. -/
structure Config (A : Type) where
  /-- The parameters of PocStaking, which `poc::Trait` extends. -/
  staking : PocStaking.Config
  /-- `GENESIS_BASE_TARGET`. -/
  genesisBaseTarget : ℕ
  /-- `TotalMiningReward`. -/
  totalMiningReward : ℕ
  /-- `TotalMiningReward` is a `u128` balance. -/
  totalMiningReward_lt : totalMiningReward < 2 ^ Balances.balanceBits
  /-- `ProbabilityDeviationValue`. -/
  probabilityDeviationValue : Percent
  /-- `MaxDeadlineValue`. -/
  maxDeadlineValue : ℕ
  /-- `treasury::Module::account_id()`. -/
  treasuryId : A
  /-- The target `find_best_deadline_rust` finds in the scoop of nonce `nonce` of plot
  `account_id` that `height` and `sig` select: the Shabal hashing of `conjugate-poc`. -/
  scoopTarget : (accountId height : ℕ) → Signature → (nonce : ℕ) → ℕ

/-- `impl poc::Trait for Runtime`, over the runtime's treasury account and plot hashing. -/
def runtimeConfig {A : Type} (treasuryId : A) (scoopTarget : ℕ → ℕ → Signature → ℕ → ℕ) :
    Config A where
  staking := PocStaking.runtimeConfig
  genesisBaseTarget := 366503875925
  totalMiningReward := 500000000 * DOLLARS
  totalMiningReward_lt := by rw [DOLLARS_eq, Balances.balanceBits]; norm_num
  probabilityDeviationValue := Percent.fromPercent 50
  maxDeadlineValue := 12000
  treasuryId := treasuryId
  scoopTarget := scoopTarget

/-- The runtime's plot hashing is the one it is given; stated apart so that a concrete hashing is
never unfolded to compare it with itself. -/
@[simp] theorem runtimeConfig_scoopTarget {A : Type} (treasuryId : A)
    (scoopTarget : ℕ → ℕ → Signature → ℕ → ℕ) :
    (runtimeConfig treasuryId scoopTarget).scoopTarget = scoopTarget := rfl

/-- The storage of the pallet. -/
structure State (A : Type) where
  /-- `TargetInfo`. -/
  targetInfo : List Difficulty
  /-- `DlInfo`. -/
  dlInfo : List (MiningInfo A)
  /-- `History`. -/
  history : A → Option MiningHistory
  /-- `UserRewardHistory`. -/
  userRewardHistory : A → List (ℕ × ℕ)
  /-- `NetPower`. -/
  netPower : ℕ
  /-- `CapacityOfPerDifficulty`. -/
  capacityOfPerDifficulty : ℕ
  /-- `AdjustDifficultyDuration`. -/
  adjustDifficultyDuration : ℕ
  /-- `CapacityPrice`. -/
  capacityPrice : ℕ
  /-- `ActiveMiners`. -/
  activeMiners : ActiveMiners A

/-- The storage at genesis, with the defaults of `decl_storage!`. -/
def State.genesis {A : Type} : State A where
  targetInfo := []
  dlInfo := []
  history _ := none
  userRewardHistory _ := []
  netPower := 0
  capacityOfPerDifficulty := 5
  adjustDifficultyDuration := 50
  capacityPrice := 10 * DOLLARS
  activeMiners := ⟨0, ∅, 0, ∅⟩

/-- What the pallet acts on: PocStaking's world, with this pallet's storage as the storage
of PocStaking's `PocHandler`. -/
abbrev World (A : Type) := PocStaking.World A (State A)

variable {A : Type}

/-- Replace the pallet's storage. -/
def World.setPoc (w : World A) (p : State A) : World A := { w with handler := p }

@[simp] theorem World.setPoc_handler (w : World A) (p : State A) : (w.setPoc p).handler = p :=
  rfl

@[simp] theorem World.setPoc_staking (w : World A) (p : State A) :
    (w.setPoc p).staking = w.staking := rfl

@[simp] theorem World.setPoc_balances (w : World A) (p : State A) :
    (w.setPoc p).balances = w.balances := rfl

@[simp] theorem World.setPoc_blockNumber (w : World A) (p : State A) :
    (w.setPoc p).blockNumber = w.blockNumber := rfl

variable [DecidableEq A]

/-- `PocHandler::remove_history`. -/
def removeHistory (miner : A) (p : State A) : State A :=
  { p with history := Function.update p.history miner none }

/-! ### Storage helpers -/

/-- `ActiveMiners::mutate`: a miner not yet seen since the rotation is counted. -/
def ActiveMiners.insert (m : ActiveMiners A) (miner : A) : ActiveMiners A :=
  if miner ∈ m.now then m
  else { m with nowCount := wrappingAdd 32 m.nowCount 1, now := Insert.insert miner m.now }

/-- `append_dl_info`: once the vector held 2000 entries, the oldest are split off. -/
def appendDlInfo (p : State A) (dlInfo : MiningInfo A) : State A :=
  { p with dlInfo := BoundedLog.push 2000 p.dlInfo dlInfo }

/-- `append_target_info`: once the vector held 50 entries, the oldest are split off. -/
def appendTargetInfo (p : State A) (difficulty : Difficulty) : State A :=
  { p with targetInfo := BoundedLog.push 50 p.targetInfo difficulty }

/-- `get_last_mining_block`: the block of the last entry of `DlInfo`, `0` when empty. -/
def getLastMiningBlock (p : State A) : ℕ :=
  match p.dlInfo.getLast? with
  | some dl => dl.block
  | none => 0

/-- The `(block, best_dl)` of the last entry of `DlInfo` that `mining` compares with,
`(0, u64::MAX)` when empty. -/
def lastDeadline (p : State A) : ℕ × ℕ :=
  match p.dlInfo.getLast? with
  | some dl => (dl.block, dl.bestDl)
  | none => (0, maxOf 64)

/-- `get_current_base_target`: the `unwrap` panics when `TargetInfo` is empty. -/
def getCurrentBaseTarget (p : State A) : Option ℕ :=
  p.targetInfo.getLast?.map Difficulty.baseTarget

/-- `get_last_base_target`: `(base_target, net_difficulty)` of the last difficulty. -/
def getLastBaseTarget (c : Config A) (p : State A) : ℕ × ℕ :=
  match p.targetInfo.getLast? with
  | some info => (info.baseTarget, info.netDifficulty)
  | none => (c.genesisBaseTarget, 1)

/-- `get_ave_deadline`: over the last `AdjustDifficultyDuration / MiningExpire` entries of
`DlInfo`, how many were mined and their average deadline. -/
def getAveDeadline (p : State A) : ℕ × ℕ :=
  let window := p.dlInfo.reverse.take (p.adjustDifficultyDuration / MiningExpire)
  let mined := window.filter fun dl => dl.miner.isSome
  let deadline := mined.foldl (fun d dl => wrappingAdd 64 d dl.bestDl) 0
  if mined.length = 0 then (0, 0) else (mined.length, deadline / mined.length)

/-- `adjust_difficulty`: make mining harder when deadlines come fast, easier when they come
slowly. -/
def adjustDifficulty (c : Config A) (p : State A) (block : ℕ) : State A :=
  let lastBaseTarget := (getLastBaseTarget c p).1
  let aveDeadline := (getAveDeadline p).2
  let miningCount := (getAveDeadline p).1
  let new :=
    if aveDeadline < 2000 ∧ 0 < miningCount then
      let new := saturatingMul 64 lastBaseTarget 10 / SPEED
      if new = 0 then 1 else new
    else if 3000 < aveDeadline then saturatingMul 64 lastBaseTarget SPEED / 10
    else lastBaseTarget
  appendTargetInfo p ⟨new, c.genesisBaseTarget / new, block⟩

/-- `treasury_minning`: record a cycle without deadline as the treasury's. -/
def treasuryMinning (c : Config A) (p : State A) (currentBlock : ℕ) : State A :=
  appendDlInfo p ⟨none, c.maxDeadlineValue, currentBlock⟩

/-- `get_total_capacity`: the net capacity from the average of the last six difficulties,
stored in `NetPower`. -/
def getTotalCapacity (p : State A) : ℕ × State A :=
  let recent := p.targetInfo.drop (p.targetInfo.length - 6)
  let totalDifficulty := recent.foldl (fun t i => wrappingAdd 64 t i.netDifficulty) 0
  let avgDifficulty := if recent.length = 0 then 0 else totalDifficulty / recent.length
  let capacity := saturatingMul 64 avgDifficulty (wrappingMul 64 GIB p.capacityOfPerDifficulty)
  (capacity, { p with netPower := capacity })

/-- `verify_dl`: whether the deadline is the plot's target over the current base target.
Both an empty `TargetInfo` and a zero base target panic. -/
def verifyDl (c : Config A) (p : State A) (accountId height : ℕ) (sig : Signature)
    (nonce deadline : ℕ) : Option Bool :=
  match getCurrentBaseTarget p with
  | none => none
  | some 0 => none
  | some baseTarget => some (deadline = c.scoopTarget accountId height sig nonce / baseTarget)

/-- `update_reword_history`: keep the last 299 rewards of an account. -/
def updateRewordHistory (p : State A) (accountId : A) (amount blockNum : ℕ) : State A :=
  let rewardHistory := p.userRewardHistory accountId ++ [(blockNum, amount)]
  let kept := if 300 ≤ rewardHistory.length then rewardHistory.drop 1 else rewardHistory
  { p with userRewardHistory := Function.update p.userRewardHistory accountId kept }

/-! ### Rewards -/

/-- `PocAddOrigin::on_unbalanced(deposit_creating(who, amount))`: the runtime's
`PocAddOrigin` is `()`, which drops the imbalance and so raises the total issuance. -/
def depositCreating (c : Config A) (w : World A) (who : A) (amount : ℕ) : World A :=
  let minted := Balances.depositCreating c.staking.existentialDeposit w.balances who amount
  w.setBalances (Balances.dropPositive minted.2 minted.1)

/-- A deposit recorded in the account's reward history. -/
def payAccount (c : Config A) (w : World A) (who : A) (amount now : ℕ) : World A :=
  let w := depositCreating c w who amount
  w.setPoc (updateRewordHistory w.handler who amount now)

/-- `reward_treasury`. -/
def rewardTreasury (c : Config A) (w : World A) (reward : ℕ) : World A :=
  depositCreating c w c.treasuryId reward

/-- `reward_miner`: all to the miner when it is its own reward destination, else ten
percent to the miner and the rest to the destination. The `unwrap` of the disk panics for
a miner that is not registered. -/
def rewardMiner (c : Config A) (w : World A) (miner : A) (amount now : ℕ) : Option (World A) :=
  (w.staking.diskOf miner).map fun disk =>
    let rewardDest := disk.rewardDest
    if rewardDest = miner then payAccount c w rewardDest amount now
    else
      let minerReward := Percent.fromPercent 10 * amount
      let w := payAccount c w miner minerReward now
      payAccount c w rewardDest (saturatingSub amount minerReward) now

/-- The loop of `reward_staker` over the stakers: each gets its bond's share of
`stakers_reward`, the miner's own stake going through `reward_miner`. A zero
`total_staking` stops the loop with `DivZero`. -/
def payStakers (c : Config A) (miner : A) (stakersReward totalStaking now : ℕ) :
    List (A × ℕ × ℕ) → World A → Option (Machine.Outcome Error (World A))
  | [], w => some (.ok w)
  | stakerInfo :: stakers, w =>
    match checkedDiv (saturatingMul Balances.balanceBits stakersReward stakerInfo.2.1)
        totalStaking with
    | none => some (.error .DivZero w)
    | some stakerReward =>
      let paid :=
        if stakerInfo.1 = miner then rewardMiner c w miner stakerReward now
        else some (payAccount c w stakerInfo.1 stakerReward now)
      paid.bind (payStakers c miner stakersReward totalStaking now stakers)

/-- `reward_staker`: the miner's proportion goes to the miner, the rest to the stakers by
bond; all to the miner when it has no stakers. -/
def rewardStaker (c : Config A) (w : World A) (miner : A) (reward : ℕ) :
    Option (Machine.Outcome Error (World A)) :=
  let now := w.blockNumber
  match w.staking.stakingInfoOf miner with
  | none => some (.error .NotRegister w)
  | some info =>
    if info.others.length = 0 then (rewardMiner c w miner reward now).map .ok
    else
      let minerReward := info.minerProportion * reward
      (rewardMiner c w miner minerReward now).bind fun w =>
        -- a percentage of `reward` is at most `reward`, so this `-` never underflows
        payStakers c miner (reward - minerReward) info.totalStaking now info.others w

/-- Ten percent through `reward_staker`, whose result is dropped, and ninety percent of the
whole reward to the treasury. Returns the reward recorded in the history. -/
def rewardReduced (c : Config A) (w : World A) (miner : A) (allReward : ℕ) :
    Option (ℕ × World A) :=
  let reward := Percent.fromPercent 10 * allReward
  (rewardStaker c w miner reward).map fun o =>
    (reward, rewardTreasury c o.state (Percent.fromPercent 90 * allReward))

/-- The whole reward through `reward_staker`, whose result is dropped. -/
def rewardFull (c : Config A) (w : World A) (miner : A) (reward : ℕ) : Option (ℕ × World A) :=
  (rewardStaker c w miner reward).map fun o => (reward, o.state)

/-- The test of `reward` for a miner that wins more often than its declared capacity
explains: its wins against the wins expected from its share of the net capacity, with
`ProbabilityDeviationValue` of slack either way. -/
def probabilityDeviated (deviation : Percent) (minerMiningNum netMiningNum
    minerShouldStakingAmount netShouldStakingTotalAmount : ℕ) : Bool :=
  let won := saturatingMul Balances.balanceBits minerMiningNum netShouldStakingTotalAmount
  let expected := wrappingMul Balances.balanceBits netMiningNum minerShouldStakingAmount
  decide (saturatingAdd Balances.balanceBits expected (deviation * expected) < won) ||
    decide (won < saturatingSub expected
      (wrappingMul Balances.balanceBits (deviation * netMiningNum) minerShouldStakingAmount))

/-- The split of `reward`: the whole reward for a miner with enough stake that does not win
too often, ten percent otherwise. Returns the reward recorded in the history. -/
def rewardSplit (c : Config A) (w : World A) (miner : A) (allReward disk updateTime
    minerMiningNum : ℕ) : Option (ℕ × World A) :=
  let now := w.blockNumber
  match w.staking.stakingInfoOf miner with
  | none => rewardReduced c w miner allReward
  | some info =>
    let minerShouldStakingAmount :=
      saturatingMul Balances.balanceBits disk w.handler.capacityPrice / GIB
    if minerShouldStakingAmount ≤ info.totalStaking then
      let netMiningNum :=
        max (wrappingSub PocStaking.blockNumberBits now updateTime / MiningExpire) minerMiningNum
      let capacity := getTotalCapacity w.handler
      let w := w.setPoc capacity.2
      let netShouldStakingTotalAmount :=
        saturatingMul Balances.balanceBits capacity.1 w.handler.capacityPrice / GIB
      if probabilityDeviated c.probabilityDeviationValue minerMiningNum netMiningNum
          minerShouldStakingAmount netShouldStakingTotalAmount then
        rewardReduced c w miner allReward
      else rewardFull c w miner allReward
    else rewardReduced c w miner allReward

/-- The history entry `reward` writes: the miner's count of rewards and its last 299
rewards. -/
def recordHistory (p : State A) (miner : A) (minerMiningNum now reward : ℕ) : State A :=
  let his : MiningHistory :=
    match p.history miner with
    | some his =>
      let history := his.history ++ [(now, reward)]
      ⟨minerMiningNum, if 300 ≤ history.length then history.drop 1 else history⟩
    | none => ⟨minerMiningNum, [(now, reward)]⟩
  { p with history := Function.update p.history miner (some his) }

/-- `miner_mining_num` of `reward`: the miner's count of rewards with this one. -/
def minerMiningNum (p : State A) (miner : A) : ℕ :=
  match p.history miner with
  | some h => wrappingAdd 64 h.totalNum 1
  | none => 1

/-- `reward`: pay a cycle's reward for a miner's deadline. -/
def reward (c : Config A) (w : World A) (miner : A) (reward : ℕ) :
    Option (Machine.Outcome Error (World A)) :=
  match w.staking.diskOf miner with
  | none => some (.error .NotRegister w)
  | some machineInfo =>
    let minerMiningNum := minerMiningNum w.handler miner
    let now := w.blockNumber
    (rewardSplit c w miner reward machineInfo.plotSize machineInfo.updateTime
        minerMiningNum).map fun paid =>
      .ok (paid.2.setPoc (recordHistory paid.2.handler miner minerMiningNum now paid.1))

/-- `get_reward_amount`: the reward of a cycle at block `now`, halved every two years and
zero once `2 ^ k` leaves `u32`. `year / 2 + 1` stays far inside `u32` for a `u32` block
number. -/
def getRewardAmount (c : Config A) (now : ℕ) : Option ℕ :=
  let subHalfRewardTime := 2
  (checkedDiv now YEAR).map fun year =>
    let duration := year / subHalfRewardTime + 1
    match checkedPow 32 subHalfRewardTime duration with
    | some n => c.totalMiningReward / n / 2 / YEAR * MiningExpire
    | none => 0

/-! ### Calls -/

/-- `set_difficulty`. -/
def setDifficulty (c : Config A) (w : World A) (difficulty : ℕ) :
    Machine.Outcome Error (World A) :=
  if difficulty = 0 then .error .DifficultyIsZero w
  else if c.genesisBaseTarget < difficulty then .error .DifficultyIsTooLarge w
  else
    let baseTarget := c.genesisBaseTarget / difficulty
    let now := w.blockNumber
    .ok (w.setPoc (appendTargetInfo w.handler
      ⟨baseTarget, c.genesisBaseTarget / baseTarget, now⟩))

/-- `set_adjust_difficulty_duration`. -/
def setAdjustDifficultyDuration (w : World A) (blockNum : ℕ) : Machine.Outcome Error (World A) :=
  if blockNum = 0 then .error .DurationIsZero w
  else .ok (w.setPoc { w.handler with adjustDifficultyDuration := blockNum })

/-- `set_capacity_price`. -/
def setCapacityPrice (w : World A) (price : ℕ) : Machine.Outcome Error (World A) :=
  .ok (w.setPoc { w.handler with capacityPrice := price })

/-- `set_capacity_of_per_difficulty`. -/
def setCapacityOfPerDifficulty (w : World A) (capacity : ℕ) : Machine.Outcome Error (World A) :=
  if capacity = 0 then .error .CapacityIsZero w
  else .ok (w.setPoc { w.handler with capacityOfPerDifficulty := capacity })

/-- `mining`: submit a deadline for the current cycle. `ActiveMiners` counts the miner
before any check and keeps it when the call fails. An accepted deadline replaces the
cycle's entry of `DlInfo`, or opens the cycle's entry. -/
def mining (c : Config A) (w : World A) (miner : A) (accountId height : ℕ) (sig : Signature)
    (nonce deadline : ℕ) : Machine.Outcome Error (World A) :=
  let w₀ := w
  let w := w.setPoc { w.handler with activeMiners := w.handler.activeMiners.insert miner }
  if c.maxDeadlineValue < deadline then .error .DeadlineTooLarge w
  else match PocStaking.isCanMining w.staking miner with
  | .error e => .error (.Staking e) w
  | .ok canMining =>
    if !canMining then .error .NotRegister w
    else match w.staking.diskOf miner with
    | none => .error .Panic w₀
    | some disk =>
      if disk.numericId ≠ accountId then .error .PidErr w
      else
        let currentBlock := w.blockNumber
        if !(currentBlock / MiningExpire = height / MiningExpire ∧ height ≤ currentBlock) then
          .error .HeightNotInDuration w
        else
          let last := lastDeadline w.handler
          if last.2 ≤ deadline ∧ currentBlock / MiningExpire = last.1 / MiningExpire then
            .error .NotBestDeadline w
          else match verifyDl c w.handler accountId height sig nonce deadline with
          | none => .error .Panic w₀
          | some false => .error .VerifyFaile w
          | some true =>
            let p := w.handler
            -- a better deadline of the same cycle replaces the cycle's entry
            let p := if currentBlock / MiningExpire = last.1 / MiningExpire then
              { p with dlInfo := p.dlInfo.dropLast } else p
            .ok (w.setPoc (appendDlInfo p ⟨some miner, deadline, currentBlock⟩))

/-! ### Hooks -/

/-- `on_initialize`: the genesis difficulty at block one. -/
def onInitialize (c : Config A) (w : World A) : World A :=
  if w.blockNumber = 1 then
    w.setPoc (appendTargetInfo w.handler ⟨c.genesisBaseTarget, 1, 1⟩)
  else w

/-- The payment of `on_finalize` at the last block of a cycle: the best miner of the cycle
through `reward`, whose result is dropped, or the treasury when the cycle had no deadline. -/
def payCycle (c : Config A) (w : World A) (currentBlock reward : ℕ) : Option (World A) :=
  if currentBlock / MiningExpire = getLastMiningBlock w.handler / MiningExpire then
    match w.handler.dlInfo.getLast? with
    | some minerInfo =>
      match minerInfo.miner with
      | some miner => (Poc.reward c w miner reward).map Machine.Outcome.state
      | none => some w
    | none => some w
  else
    some (rewardTreasury c (w.setPoc (treasuryMinning c w.handler currentBlock)) reward)

/-- Every eight hours `ActiveMiners` keeps the miners of the period that ends and starts
afresh. -/
def rotateActiveMiners (p : State A) (n : ℕ) : State A :=
  if n % (8 * HOURS) = 0 then
    { p with activeMiners := ⟨0, ∅, p.activeMiners.nowCount, p.activeMiners.now⟩ }
  else p

/-- The end of `on_finalize`: adjust the difficulty every `AdjustDifficultyDuration`
blocks, then refresh `NetPower`. -/
def adjustAndMeasure (c : Config A) (p : State A) (currentBlock : ℕ) : State A :=
  let p := if currentBlock % p.adjustDifficultyDuration = 0 then
      adjustDifficulty c p currentBlock
    else p
  (getTotalCapacity p).2

/-- `on_finalize`: rotate `ActiveMiners`, pay the cycle at its last block, then adjust the
difficulty and refresh `NetPower`. When `get_reward_amount` fails the hook returns early. -/
def onFinalize (c : Config A) (w : World A) : Option (World A) :=
  let currentBlock := w.blockNumber
  let w := w.setPoc (rotateActiveMiners w.handler currentBlock)
  match getRewardAmount c currentBlock with
  | none => some w
  | some reward =>
    let paid := if (currentBlock + 1) % MiningExpire = 0 then payCycle c w currentBlock reward
      else some w
    paid.map fun w => w.setPoc (adjustAndMeasure c w.handler currentBlock)

/-! ### Dispatch -/

/-- The dispatchable calls of the pallet, with their arguments. -/
inductive Call where
  | setDifficulty (difficulty : ℕ)
  | setAdjustDifficultyDuration (blockNum : ℕ)
  | setCapacityPrice (price : ℕ)
  | setCapacityOfPerDifficulty (capacity : ℕ)
  | mining (accountId height : ℕ) (sig : Signature) (nonce deadline : ℕ)

/-- Dispatch a call: the setters need the root origin, `mining` a signed one. -/
def dispatch (c : Config A) (w : World A) (origin : Origin A) (call : Call) :
    Machine.Outcome Error (World A) :=
  match origin, call with
  | .root, .setDifficulty difficulty => setDifficulty c w difficulty
  | .root, .setAdjustDifficultyDuration blockNum => setAdjustDifficultyDuration w blockNum
  | .root, .setCapacityPrice price => setCapacityPrice w price
  | .root, .setCapacityOfPerDifficulty capacity => setCapacityOfPerDifficulty w capacity
  | .signed miner, .mining accountId height sig nonce deadline =>
    mining c w miner accountId height sig nonce deadline
  | _, _ => .error .BadOrigin w

end IpseCore.Poc
