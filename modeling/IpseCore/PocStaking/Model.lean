import IpseCore.Balances
import IpseCore.Arithmetic.PerThings
import IpseCore.Library.KeyedList
import IpseCore.Runtime.Primitives

/-!
# The PocStaking pallet

`poc_staking.rs` keeps the registry of PoC miners and their stakers. A miner registers a
plot and a numeric id; users stake on registered miners, reserving the bond and a fixed
deposit in Balances; `StakingInfoOf[miner]` records the stakers as a vector of
`(staker, bond, deposit)` and `MinersOf[staker]` the miners a user stakes on. Funds given
back are locked for a while under the pallet's lock. Miners may also buy a place in the
recommended list by reserving an amount.

Dispatchables run without storage transactions: a call that fails keeps what it wrote
before the failure. Calls into Balances and into the `PocHandler` (PoC's `History`) are
made through the world the pallet acts on.
-/

namespace IpseCore.PocStaking

open Unsigned

/-- `MachineInfo`: the plot a miner declared. -/
structure MachineInfo (A : Type) where
  /-- `plot_size`, in bytes. -/
  plotSize : ℕ
  /-- `numeric_id`, the plot id. -/
  numericId : ℕ
  /-- `update_time`, a block number. -/
  updateTime : ℕ
  /-- `is_stop`. -/
  isStop : Bool
  /-- `reward_dest`. -/
  rewardDest : A
  deriving DecidableEq, Repr

/-- `StakingInfo`: a miner's stakers as `(staker, bond, deposit)`. -/
structure StakingInfo (A : Type) where
  /-- `miner`. -/
  miner : A
  /-- `miner_proportion`: the miner's share of a reward. -/
  minerProportion : Percent
  /-- `total_staking`. -/
  totalStaking : ℕ
  /-- `others`. -/
  others : List (A × ℕ × ℕ)
  deriving DecidableEq

/-- `Operate`. -/
inductive Operate where
  | Add
  | Sub
  deriving DecidableEq, Repr

/-- The pallet's `Error`, with the errors of Balances it passes on and a bad origin. -/
inductive Error where
  | NumericIdInUsing
  | AlreadyRegister
  | NotRegister
  | PlotSizeIsZero
  | ChillTime
  | NotChillTime
  | AlreadyStopMining
  | NotYourStaker
  | AlreadyStaking
  | Overflow
  | StakerNumberToMax
  | AmountNotEnough
  | NotInList
  | MiningNotStop
  | AmountTooLow
  | StakingAmountooLow
  | Balances (e : Balances.Error)
  | BadOrigin
  deriving DecidableEq, Repr

/-- The runtime parameters of the pallet. -/
structure Config where
  /-- `ChillDuration`, in blocks; an era is six of them. -/
  chillDuration : ℕ
  /-- `update_chill` divides by the era length, which the runtime keeps positive. -/
  chillDuration_pos : 0 < chillDuration
  /-- `StakingDeposit`. -/
  stakingDeposit : ℕ
  /-- `PocStakingMinAmount`. -/
  pocStakingMinAmount : ℕ
  /-- `StakerMaxNumber`. -/
  stakerMaxNumber : ℕ
  /-- `StakingLockExpire`, in blocks. -/
  stakingLockExpire : ℕ
  /-- `RecommendLockExpire`, in blocks. -/
  recommendLockExpire : ℕ
  /-- `RecommendMaxNumber`. -/
  recommendMaxNumber : ℕ
  /-- The existential deposit of Balances. -/
  existentialDeposit : ℕ

/-- `impl poc_staking::Trait for Runtime`. -/
def runtimeConfig : Config where
  chillDuration := EPOCH_DURATION_IN_BLOCKS
  chillDuration_pos := by rw [EPOCH_DURATION_IN_BLOCKS_eq]; norm_num
  stakingDeposit := 1 * DOLLARS
  pocStakingMinAmount := 100 * DOLLARS
  stakerMaxNumber := 64
  stakingLockExpire := 7 * DAYS
  recommendLockExpire := 7 * DAYS
  recommendMaxNumber := 50
  existentialDeposit := 1 * DOLLARS

/-- Block numbers are `u32`. -/
def blockNumberBits : ℕ := 32

/-- `GIB` is `u64`; so is `DeclaredCapacity`. -/
def gibBits : ℕ := 64

/-- The storage of the pallet. -/
structure State (A : Type) where
  /-- `DiskOf`. -/
  diskOf : A → Option (MachineInfo A)
  /-- `IsChillTime`. -/
  isChillTime : Bool
  /-- `StakingInfoOf`. -/
  stakingInfoOf : A → Option (StakingInfo A)
  /-- `MinersOf`. -/
  minersOf : A → List A
  /-- `AccountIdOfPid`. -/
  accountIdOfPid : ℕ → Option A
  /-- `RecommendList`, by decreasing amount. -/
  recommendList : List (A × ℕ)
  /-- `DeclaredCapacity`. -/
  declaredCapacity : ℕ
  /-- `Miners`. -/
  miners : Finset A
  /-- `MiningMiners`. -/
  miningMiners : Finset A
  /-- `MiningNum`. -/
  miningNum : ℕ
  /-- `Locks`: per account, the amounts locked and the block from which each may go. -/
  locks : A → Option (List (ℕ × ℕ))

/-- The empty storage of genesis; `IsChillTime` starts `true`. -/
def State.empty {A : Type} : State A where
  diskOf _ := none
  isChillTime := true
  stakingInfoOf _ := none
  minersOf _ := []
  accountIdOfPid _ := none
  recommendList := []
  declaredCapacity := 0
  miners := ∅
  miningMiners := ∅
  miningNum := 0
  locks _ := none

/-- What the pallet's calls act on: its storage, the balances it reserves and locks, the
storage of its `PocHandler` and the current block number. -/
structure World (A H : Type) where
  /-- The pallet's storage. -/
  staking : State A
  /-- The Balances pallet. -/
  balances : Balances.State A
  /-- The storage `PocHandler::remove_history` acts on. -/
  handler : H
  /-- `system::block_number`. -/
  blockNumber : ℕ

variable {A H : Type}

/-- Replace the pallet's storage. -/
def World.setStaking (w : World A H) (s : State A) : World A H := { w with staking := s }

/-- Replace the balances. -/
def World.setBalances (w : World A H) (b : Balances.State A) : World A H :=
  { w with balances := b }

@[simp] theorem World.setStaking_staking (w : World A H) (s : State A) :
    (w.setStaking s).staking = s := rfl

@[simp] theorem World.setStaking_balances (w : World A H) (s : State A) :
    (w.setStaking s).balances = w.balances := rfl

@[simp] theorem World.setStaking_blockNumber (w : World A H) (s : State A) :
    (w.setStaking s).blockNumber = w.blockNumber := rfl

@[simp] theorem World.setBalances_staking (w : World A H) (b : Balances.State A) :
    (w.setBalances b).staking = w.staking := rfl

@[simp] theorem World.setBalances_blockNumber (w : World A H) (b : Balances.State A) :
    (w.setBalances b).blockNumber = w.blockNumber := rfl

variable [DecidableEq A]

/-! ### Helpers of `impl Module` -/

/-- `is_register`: both the disk and the staking info are stored. -/
def isRegister (s : State A) (miner : A) : Bool :=
  (s.diskOf miner).isSome && (s.stakingInfoOf miner).isSome

/-- `is_can_mining`: registered, then the stored disk is not stopped. -/
def isCanMining (s : State A) (miner : A) : Except Error Bool :=
  match s.diskOf miner, s.stakingInfoOf miner with
  | some disk, some _ => if disk.isStop then .error .AlreadyStopMining else .ok true
  | _, _ => .error .NotRegister

/-- `staker_pos`: where `staker` stands among the miner's stakers. Its callers check
first that the miner is registered, so the `unwrap` of the staking info holds. -/
def stakerPos (s : State A) (miner staker : A) : Option ℕ :=
  (s.stakingInfoOf miner).bind fun info => KeyedList.position Prod.fst staker info.others

/-- `update_chill`: the first `ChillDuration` blocks of every era of six are chill time.
`ChillTime`, which only this function writes and nothing reads, is left out. -/
def updateChill (c : Config) (s : State A) (now : ℕ) : State A :=
  let era := c.chillDuration * 6
  let num := now % era
  if num < c.chillDuration then { s with isChillTime := true }
  else { s with isChillTime := false }

/-- `staker_remove_miner`: `MinersOf[staker].retain(|h| h != miner)`. -/
def stakerRemoveMiner (s : State A) (staker miner : A) : State A :=
  { s with minersOf := Function.update s.minersOf staker ((s.minersOf staker).filter (· ≠ miner)) }

/-- `T::StakingCurrency::reserve`, its error passed on by `?`. -/
def reserve (c : Config) (w : World A H) (who : A) (value : ℕ) :
    Machine.Outcome Error (World A H) :=
  let r := Balances.reserve c.existentialDeposit w.balances who value
  match r.result with
  | .ok _ => .ok (w.setBalances r.state)
  | .error e => .error (.Balances e) (w.setBalances r.state)

/-- `T::StakingCurrency::unreserve`; what could not be released is ignored. -/
def unreserve (c : Config) (w : World A H) (who : A) (value : ℕ) : World A H :=
  w.setBalances (Balances.unreserve c.existentialDeposit w.balances who value).2

/-- `T::StakingSlash::on_unbalanced(slash_reserved(..).0)`: `StakingSlash` is `()`, so the
slashed amount leaves the total issuance. -/
def slashReserved (c : Config) (w : World A H) (who : A) (value : ℕ) : World A H :=
  let r := Balances.slashReserved c.existentialDeposit w.balances who value
  w.setBalances (Balances.dropNegative r.2 r.1.1)

/-- `Staking_ID`. -/
def stakingId : Balances.LockIdentifier := "pocstake"

/-- The reasons of the pallet's lock, `Transfer | Reserve`. -/
def lockReasons : Balances.WithdrawReasons := {.Transfer, .Reserve}

/-- `lock`: change the balance lock; whether it is set or raised depends on whether the
pallet's `Locks` has an entry for `who`. -/
def lock (c : Config) (w : World A H) (who : A) (operate : Operate) (amount : ℕ) : World A H :=
  let ed := c.existentialDeposit
  match operate with
  | .Sub =>
    if (w.staking.locks who).isNone then w
    else w.setBalances (Balances.lockSubAmount ed w.balances stakingId who amount lockReasons)
  | .Add =>
    if (w.staking.locks who).isNone then
      w.setBalances (Balances.setLock ed w.balances stakingId who amount lockReasons)
    else w.setBalances (Balances.lockAddAmount ed w.balances stakingId who amount lockReasons)

/-- `lock_add_amount`: lock `amount` until `expire` and record it in `Locks`. -/
def lockAddAmount (c : Config) (w : World A H) (who : A) (amount expire : ℕ) : World A H :=
  let w := lock c w who .Add amount
  let locks := match w.staking.locks who with
    | some locks => locks ++ [(expire, amount)]
    | none => [(expire, amount)]
  w.setStaking { w.staking with locks := Function.update w.staking.locks who (some locks) }

/-- `lock_sub_amount`: release every recorded lock that is due. The `retain` visits the
locks in order; `lock` inside it still reads the stored entry, which is `Some`. -/
def lockSubAmount (c : Config) (w : World A H) (who : A) : World A H :=
  let now := w.blockNumber
  match w.staking.locks who with
  | none => w
  | some h =>
    let w := h.foldl (fun w i => if i.1 ≤ now then lock c w who .Sub i.2 else w) w
    w.setStaking
      { w.staking with locks := Function.update w.staking.locks who (some (h.filter (¬ ·.1 ≤ now))) }

/-- The loop of `sort_after` over the entries split off the recommended list: each is
unreserved and locked for `RecommendLockExpire`. -/
def abandonRecommended (c : Config) (w : World A H) (abandon : List (A × ℕ)) : World A H :=
  abandon.foldl (fun w i =>
    let expire := saturatingAdd blockNumberBits w.blockNumber c.recommendLockExpire
    lockAddAmount c (unreserve c w i.1 i.2) i.1 i.2 expire) w

/-- `sort_after`: reserve and insert the miner at `index` when that is within the list's
length bound, then cut the list to `RecommendMaxNumber`. -/
def sortAfter (c : Config) (w : World A H) (miner : A) (amount index : ℕ)
    (oldList : List (A × ℕ)) : Machine.Outcome Error (World A H) :=
  let reserved := if index < c.recommendMaxNumber then reserve c w miner amount else .ok w
  match reserved.result with
  | .error e => .error e reserved.state
  | .ok _ =>
    let list := if index < c.recommendMaxNumber then oldList.insertIdx index (miner, amount)
      else oldList
    let full := decide (c.recommendMaxNumber ≤ list.length)
    let w := if full then abandonRecommended c reserved.state (list.drop c.recommendMaxNumber)
      else reserved.state
    let list := if full then list.take c.recommendMaxNumber else list
    let w := w.setStaking { w.staking with recommendList := list }
    if c.recommendMaxNumber ≤ index then .error .AmountTooLow w else .ok w

/-- The place of `amount` in a list sorted by decreasing amount: after every entry of at
least that amount before the first smaller one. On an empty list this is `0`, the index
`sort_account_by_amount` passes in that case. -/
def sortIndex (list : List (A × ℕ)) (amount : ℕ) : ℕ :=
  (list.takeWhile fun i => amount ≤ i.2).length

/-- `sort_account_by_amount`: a miner already in the list gets its old amount back and
bids the sum. The `u128` sum is not checked. -/
def sortAccountByAmount (c : Config) (w : World A H) (miner : A) (amount : ℕ) :
    Machine.Outcome Error (World A H) :=
  match KeyedList.extract Prod.fst miner w.staking.recommendList with
  | none =>
    let list := w.staking.recommendList
    sortAfter c w miner amount (sortIndex list amount) list
  | some (old, list) =>
    if !Balances.canReserve w.balances miner amount then .error .AmountNotEnough w
    else
      let w := unreserve c w miner old.2
      let amount := wrappingAdd Balances.balanceBits amount old.2
      sortAfter c w miner amount (sortIndex list amount) list

/-! ### The staking ledger -/

/-- The tail of `update_staking_info`, once the new bond and total are known: a staker
left with no bond gets the deposit back, or loses it when slashed, and leaves the miner's
stakers; any other is pushed back. The staking info is stored last. -/
def storeStakerInfo (c : Config) (w : World A H) (miner : A) (info : StakingInfo A)
    (stakerInfo : A × ℕ × ℕ) (others : List (A × ℕ × ℕ)) (nowBond nowStaking : ℕ)
    (isSlash : Bool) : World A H :=
  let staker := stakerInfo.1
  let w := if nowBond = 0 then
      let w := if isSlash then slashReserved c w staker stakerInfo.2.2
        else unreserve c w staker stakerInfo.2.2
      w.setStaking (stakerRemoveMiner w.staking staker miner)
    else w
  let others := if nowBond = 0 then others else others ++ [(staker, nowBond, stakerInfo.2.2)]
  w.setStaking { w.staking with
    stakingInfoOf := Function.update w.staking.stakingInfoOf miner
      (some { info with totalStaking := nowStaking, others := others }) }

/-- `update_staking_info`: take the staker's entry out, add to or subtract from its bond
and the miner's total (the whole bond when no amount is given), move the funds, and store
the result. -/
def updateStakingInfo (c : Config) (w : World A H) (miner staker : A) (operate : Operate)
    (amountOpt : Option ℕ) (isSlash : Bool) : Machine.Outcome Error (World A H) :=
  if !isRegister w.staking miner then .error .NotRegister w
  else
    match w.staking.stakingInfoOf miner with
    | none => .error .NotRegister w
    | some info =>
      match KeyedList.extract Prod.fst staker info.others with
      | none => .error .NotYourStaker w
      | some (stakerInfo, others) =>
        let amount := amountOpt.getD stakerInfo.2.1
        match operate with
        | .Add =>
          match checkedAdd Balances.balanceBits stakerInfo.2.1 amount,
            checkedAdd Balances.balanceBits info.totalStaking amount with
          | some nowBond, some nowStaking =>
            let reserved := reserve c w staker amount
            match reserved.result with
            | .error e => .error e reserved.state
            | .ok _ =>
              .ok (storeStakerInfo c reserved.state miner info stakerInfo others nowBond
                nowStaking isSlash)
          | _, _ => .error .Overflow w
        | .Sub =>
          match checkedSub stakerInfo.2.1 amount, checkedSub info.totalStaking amount with
          | some nowBond, some nowStaking =>
            let w := unreserve c w staker amount
            let expire := saturatingAdd blockNumberBits w.blockNumber c.stakingLockExpire
            let w := lockAddAmount c w staker amount expire
            .ok (storeStakerInfo c w miner info stakerInfo others nowBond nowStaking isSlash)
          | _, _ => .error .Overflow w

/-! ### Dispatchables -/

/-- The size of a GiB, the unit of a declared plot. -/
def GiB : ℕ := 1024 * 1024 * 1024

/-- `register`. -/
def register (w : World A H) (miner : A) (plotSize numericId minerProportion : ℕ)
    (rewardDest : Option A) : Machine.Outcome Error (World A H) :=
  let minerProportion := Percent.fromPercent (minerProportion % 256)
  let s := w.staking
  if plotSize = 0 then .error .PlotSizeIsZero w
  else
    match checkedMul gibBits plotSize GiB with
    | none => .error .Overflow w
    | some disk =>
      if isRegister s miner then .error .AlreadyRegister w
      else if (s.accountIdOfPid numericId).isSome then .error .NumericIdInUsing w
      else
        let dest := rewardDest.getD miner
        let machine : MachineInfo A :=
          ⟨disk, numericId, w.blockNumber, false, dest⟩
        let info : StakingInfo A := ⟨miner, minerProportion, 0, []⟩
        .ok (w.setStaking { s with
          declaredCapacity := wrappingAdd gibBits s.declaredCapacity disk
          diskOf := Function.update s.diskOf miner (some machine)
          stakingInfoOf := Function.update s.stakingInfoOf miner (some info)
          accountIdOfPid := Function.update s.accountIdOfPid numericId (some miner)
          miners := insert miner s.miners
          miningMiners := insert miner s.miningMiners })

/-- `request_up_to_list`. -/
def requestUpToList (c : Config) (w : World A H) (miner : A) (amount : ℕ) :
    Machine.Outcome Error (World A H) :=
  match isCanMining w.staking miner with
  | .error e => .error e w
  | .ok false => .error .NotRegister w
  | .ok true => sortAccountByAmount c w miner amount

/-- `request_down_from_list`: leave the list, with the amount unreserved and locked. -/
def requestDownFromList (c : Config) (w : World A H) (miner : A) :
    Machine.Outcome Error (World A H) :=
  match KeyedList.extract Prod.fst miner w.staking.recommendList with
  | none => .error .NotInList w
  | some (entry, list) =>
    let w := unreserve c w miner entry.2
    let expire := saturatingAdd blockNumberBits w.blockNumber c.recommendLockExpire
    let w := lockAddAmount c w miner entry.2 expire
    .ok (w.setStaking { w.staking with recommendList := list })

/-- Change the stored disk of `miner`, if any: `DiskOf::mutate(.., |h| if let Some(i) = h ..)`. -/
def mutateDisk (s : State A) (miner : A) (f : MachineInfo A → MachineInfo A) : State A :=
  { s with diskOf := Function.update s.diskOf miner ((s.diskOf miner).map f) }

/-- `update_reward_dest`. -/
def updateRewardDest (w : World A H) (miner dest : A) : Machine.Outcome Error (World A H) :=
  if !isRegister w.staking miner then .error .NotRegister w
  else .ok (w.setStaking (mutateDisk w.staking miner fun i => { i with rewardDest := dest }))

/-- `update_numeric_id`. -/
def updateNumericId (w : World A H) (miner : A) (numericId : ℕ) :
    Machine.Outcome Error (World A H) :=
  let s := w.staking
  if !isRegister s miner then .error .NotRegister w
  else if (s.accountIdOfPid numericId).isSome ∧ s.accountIdOfPid numericId ≠ some miner then
    .error .NumericIdInUsing w
  else
    match s.diskOf miner with
    | none => .error .NotRegister w
    | some disk =>
      let s := { s with accountIdOfPid := Function.update s.accountIdOfPid disk.numericId none }
      let s := mutateDisk s miner fun i => { i with numericId := numericId }
      .ok (w.setStaking
        { s with accountIdOfPid := Function.update s.accountIdOfPid numericId (some miner) })

/-- The closure `update_plot_size` passes to `DiskOf::mutate`: the disk gets the new size,
and a running disk moves the declared capacity from its old size to the new one. -/
def resizeDisk (s : State A) (miner : A) (disk now : ℕ) : State A :=
  match s.diskOf miner with
  | none => s
  | some i =>
    let capacity := if i.isStop then s.declaredCapacity
      else wrappingAdd gibBits (wrappingSub gibBits s.declaredCapacity i.plotSize) disk
    let s := mutateDisk s miner fun i => { i with plotSize := disk, updateTime := now }
    { s with declaredCapacity := capacity }

/-- `update_plot_size` once the new size in bytes is known. `PocHandler::remove_history`
runs before the registration check, so a caller that is not registered still clears its
history. -/
def setPlotSize (removeHistory : A → H → H) (w : World A H) (miner : A) (disk : ℕ) :
    Machine.Outcome Error (World A H) :=
  if disk = 0 then .error .PlotSizeIsZero w
  else if !w.staking.isChillTime then .error .ChillTime w
  else
    let w := { w with handler := removeHistory miner w.handler }
    if !isRegister w.staking miner then .error .NotRegister w
    else .ok (w.setStaking (resizeDisk w.staking miner disk w.blockNumber))

/-- `update_plot_size`: the size is given in GiB, and `checked_mul(..).ok_or(Overflow)?`
rejects one that does not fit in `u64`. -/
def updatePlotSize (removeHistory : A → H → H) (w : World A H) (miner : A) (plotSize : ℕ) :
    Machine.Outcome Error (World A H) :=
  (checkedMul gibBits plotSize GiB).elim (.error .Overflow w) (setPlotSize removeHistory w miner)

/-- `stop_mining`. -/
def stopMining (w : World A H) (miner : A) : Machine.Outcome Error (World A H) :=
  match isCanMining w.staking miner with
  | .error e => .error e w
  | .ok _ =>
    let s := w.staking
    match s.diskOf miner with
    | none => .ok w
    | some x =>
      let s := mutateDisk s miner fun i => { i with isStop := true }
      .ok (w.setStaking { s with
        declaredCapacity := wrappingSub gibBits s.declaredCapacity x.plotSize
        miningMiners := s.miningMiners.erase miner })

/-- `restart_mining`. -/
def restartMining (removeHistory : A → H → H) (w : World A H) (miner : A) :
    Machine.Outcome Error (World A H) :=
  let s := w.staking
  if !isRegister s miner then .error .NotRegister w
  else
    match s.diskOf miner with
    | none => .error .NotRegister w
    | some x =>
      if !x.isStop then .error .MiningNotStop w
      else
        let now := w.blockNumber
        let s := mutateDisk s miner fun i => { i with updateTime := now, isStop := false }
        let w := w.setStaking { s with
          declaredCapacity := wrappingAdd gibBits s.declaredCapacity x.plotSize
          miningMiners := insert miner s.miningMiners }
        .ok { w with handler := removeHistory miner w.handler }

/-- `remove_staker`: the miner drops a staker, whose deposit is slashed. -/
def removeStaker (c : Config) (w : World A H) (miner staker : A) :
    Machine.Outcome Error (World A H) :=
  (updateStakingInfo c w miner staker .Sub none true).andThen fun w =>
    .ok (w.setStaking (stakerRemoveMiner w.staking staker miner))

/-- `staking`: a user stakes `amount` on a miner, reserving it with the deposit. -/
def staking (c : Config) (w : World A H) (who miner : A) (amount : ℕ) :
    Machine.Outcome Error (World A H) :=
  match isCanMining w.staking miner with
  | .error e => .error e w
  | .ok _ =>
    if w.staking.isChillTime then .error .ChillTime w
    else if amount < c.pocStakingMinAmount then .error .StakingAmountooLow w
    else if (stakerPos w.staking miner who).isSome then .error .AlreadyStaking w
    else
      match checkedAdd Balances.balanceBits amount c.stakingDeposit,
        w.staking.stakingInfoOf miner with
      | none, _ => .error .Overflow w
      | some _, none => .error .NotRegister w
      | some bond, some info =>
        if c.stakerMaxNumber ≤ info.others.length then .error .StakerNumberToMax w
        else
          match checkedAdd Balances.balanceBits info.totalStaking amount with
          | none => .error .Overflow w
          | some nowAmount =>
            let reserved := reserve c w who bond
            match reserved.result with
            | .error e => .error e reserved.state
            | .ok _ =>
              let w := reserved.state
              let info := { info with
                totalStaking := nowAmount
                others := info.others ++ [(who, amount, c.stakingDeposit)] }
              let s := w.staking
              .ok (w.setStaking { s with
                stakingInfoOf := Function.update s.stakingInfoOf miner (some info)
                minersOf := Function.update s.minersOf who (s.minersOf who ++ [miner]) })

/-- `update_staking`. -/
def updateStaking (c : Config) (w : World A H) (staker miner : A) (operate : Operate)
    (amount : ℕ) : Machine.Outcome Error (World A H) :=
  updateStakingInfo c w miner staker operate (some amount) false

/-- `unlock`. -/
def unlock (c : Config) (w : World A H) (staker : A) : Machine.Outcome Error (World A H) :=
  .ok (lockSubAmount c w staker)

/-- `exit_Staking`: a staker leaves a miner and gets the deposit back. -/
def exitStaking (c : Config) (w : World A H) (staker miner : A) :
    Machine.Outcome Error (World A H) :=
  (updateStakingInfo c w miner staker .Sub none false).andThen fun w =>
    .ok (w.setStaking (stakerRemoveMiner w.staking staker miner))

/-- `update_proportion`. -/
def updateProportion (w : World A H) (miner : A) (proportion : Percent) :
    Machine.Outcome Error (World A H) :=
  if !w.staking.isChillTime then .error .NotChillTime w
  else
    match isCanMining w.staking miner, w.staking.stakingInfoOf miner with
    | .error e, _ => .error e w
    | .ok _, none => .error .NotRegister w
    | .ok _, some info =>
      let s := w.staking
      let info := { info with minerProportion := proportion }
      .ok (w.setStaking
        { s with stakingInfoOf := Function.update s.stakingInfoOf miner (some info) })

/-- `on_initialize`. -/
def onInitialize (c : Config) (w : World A H) : World A H :=
  w.setStaking (updateChill c w.staking w.blockNumber)

/-- `on_finalize`: count the mining miners. -/
def onFinalize (w : World A H) : World A H :=
  w.setStaking { w.staking with miningNum := w.staking.miningMiners.card }

/-! ### Calls and blocks -/

/-- The dispatchable calls of the pallet, with their arguments. -/
inductive Call (A : Type) where
  | register (plotSize numericId minerProportion : ℕ) (rewardDest : Option A)
  | requestUpToList (amount : ℕ)
  | requestDownFromList
  | updateRewardDest (dest : A)
  | updateNumericId (numericId : ℕ)
  | updatePlotSize (plotSize : ℕ)
  | stopMining
  | restartMining
  | removeStaker (staker : A)
  | staking (miner : A) (amount : ℕ)
  | updateStaking (miner : A) (operate : Operate) (amount : ℕ)
  | unlock
  | exitStaking (miner : A)
  | updateProportion (proportion : Percent)

/-- Dispatch a call: every dispatchable starts with `ensure_signed`. -/
def dispatch (c : Config) (removeHistory : A → H → H) (w : World A H) (origin : Origin A)
    (call : Call A) : Machine.Outcome Error (World A H) :=
  match origin with
  | .signed who =>
    match call with
    | .register plotSize numericId minerProportion rewardDest =>
      register w who plotSize numericId minerProportion rewardDest
    | .requestUpToList amount => requestUpToList c w who amount
    | .requestDownFromList => requestDownFromList c w who
    | .updateRewardDest dest => updateRewardDest w who dest
    | .updateNumericId numericId => updateNumericId w who numericId
    | .updatePlotSize plotSize => updatePlotSize removeHistory w who plotSize
    | .stopMining => stopMining w who
    | .restartMining => restartMining removeHistory w who
    | .removeStaker staker => removeStaker c w who staker
    | .staking miner amount => staking c w who miner amount
    | .updateStaking miner operate amount => updateStaking c w who miner operate amount
    | .unlock => unlock c w who
    | .exitStaking miner => exitStaking c w who miner
    | .updateProportion proportion => updateProportion w who proportion
  | _ => .error .BadOrigin w

/-- What can happen next: a call, the end of a block and the start of the next, or a
change the rest of the runtime makes to the balances and to the handler's storage. -/
inductive Event (A H : Type) where
  | call (origin : Origin A) (call : Call A)
  | nextBlock
  | external (balances : Balances.State A) (handler : H)

/-- One event. A block ends with `on_finalize` and the next starts with `on_initialize`. -/
def step (c : Config) (removeHistory : A → H → H) (w : World A H) : Event A H → World A H
  | .call origin call => (dispatch c removeHistory w origin call).state
  | .nextBlock =>
    let w := onFinalize w
    onInitialize c { w with blockNumber := w.blockNumber + 1 }
  | .external balances handler => { w with balances := balances, handler := handler }

/-- The pallet from genesis, over any balances and handler storage. -/
def machine (c : Config) (removeHistory : A → H → H) (balances : Balances.State A)
    (handler : H) : Machine (World A H) (Event A H) where
  init := ⟨State.empty, balances, handler, 0⟩
  step := step c removeHistory

end IpseCore.PocStaking
