import IpseCore.Balances
import IpseCore.Library.KeyedList
import IpseCore.Runtime.Primitives

/-!
# The Ipse pallet

`ipse.rs` is a market for storage. A storage miner registers a capacity and a price per
byte and day; a user buys storage from a miner with `create_order`, which reserves the
price of all the days in Balances and lowers the miner's capacity. Every twentieth block
`on_finalize` walks over `Orders` and, for each confirmed order, either expires it or, once
a day has passed since its last payment, moves one day's price from the user's reserve to
the miner's stash and records the payment in the miner's `History`. A user may delete an order and get a refund; a miner may confirm an order
and call `verify_storage`. Miners also buy a place in a recommended list of at most twenty,
sorted by the amount they reserve.

Timestamps are the `u64` milliseconds of the timestamp pallet, balances `u128`; the
arithmetic of the pallet is unchecked and wraps in the runtime's build. Dispatchables run
without storage transactions, and `Orders::mutate` writes the vector back whatever its
closure returns.
-/

namespace IpseCore.Ipse

open Unsigned

/-- `DAY`, in milliseconds. -/
def DAY : ℕ := 1000 * 60 * 60 * 24

/-- Timestamps are `u64`. -/
def momentBits : ℕ := 64

/-- `NUM_LIST_ORDER_LEN`: the length at which `ListOrder` is cut. -/
def NUM_LIST_ORDER_LEN : ℕ := 500

/-- `NUM_LIST_HISTORY_LEN`: how many entries a cut is meant to keep. -/
def NUM_LIST_HISTORY_LEN : ℕ := 500

/-- `Miner`: what a storage miner declared when it registered. -/
structure Miner (A : Type) where
  /-- `account_id`. -/
  accountId : A
  /-- `url`. -/
  url : List UInt8
  /-- `stash_address`, where the daily payments go. -/
  stashAddress : A
  /-- `capacity`, in bytes. -/
  capacity : ℕ
  /-- `unit_price`: the price of a byte for a day. -/
  unitPrice : ℕ
  /-- `violation_times`. -/
  violationTimes : ℕ
  /-- `total_staking`. -/
  totalStaking : ℕ
  /-- `create_ts`. -/
  createTs : ℕ
  /-- `update_ts`. -/
  updateTs : ℕ
  deriving DecidableEq, Repr

/-- `OrderStatus`. -/
inductive OrderStatus where
  | Created
  | Confirmed
  | Expired
  | Deleted
  deriving DecidableEq, Repr

/-- `MinerOrder`: one miner's part of an order. -/
structure MinerOrder (A : Type) where
  /-- `miner`. -/
  miner : A
  /-- `day_price`. -/
  dayPrice : ℕ
  /-- `total_price`. -/
  totalPrice : ℕ
  /-- `verify_result`. -/
  verifyResult : Bool
  /-- `verify_ts`. -/
  verifyTs : ℕ
  /-- `confirm_ts`. -/
  confirmTs : ℕ
  /-- `url`. -/
  url : Option (List UInt8)
  deriving DecidableEq, Repr

/-- `Order`: what a user bought. -/
structure Order (A : Type) where
  /-- `miner`. -/
  miner : A
  /-- `size`, in bytes. -/
  size : ℕ
  /-- `user`. -/
  user : A
  /-- `orders`. -/
  orders : List (MinerOrder A)
  /-- `status`. -/
  status : OrderStatus
  /-- `create_ts`. -/
  createTs : ℕ
  /-- `update_ts`: the time of the last payment or change of status. -/
  updateTs : ℕ
  /-- `duration`, in milliseconds. -/
  duration : ℕ
  deriving DecidableEq, Repr

/-- `MiningHistory`: the daily payments to a miner. -/
structure MiningHistory where
  /-- `total_num`: how many payments the miner has had. -/
  totalNum : ℕ
  /-- `history`: `(block, day_price)` of the last payments. -/
  history : List (ℕ × ℕ)
  deriving DecidableEq, Repr

/-- The pallet's `Error`, with the errors of Balances it passes on and a bad origin. -/
inductive Error where
  | UrlExists
  | MinerNotFound
  | OrderNotFound
  | MinerOrderNotFound
  | OrderDeleted
  | OrderExpired
  | OrderUnconfirmed
  | NoneStaking
  | PermissionDenyed
  | AmountNotEnough
  | NotInList
  | InsufficientCapacity
  | NoneCapacity
  | NoneDays
  | Balances (e : Balances.Error)
  | BadOrigin
  deriving DecidableEq, Repr

/-- The runtime parameters the pallet uses: only Balances' existential deposit. -/
structure Config where
  /-- The existential deposit of Balances. -/
  existentialDeposit : ℕ

/-- `impl ipse::Trait for Runtime`. -/
def runtimeConfig : Config := ⟨1 * DOLLARS⟩

/-- The storage of the pallet. -/
structure State (A : Type) where
  /-- `Miners`. -/
  miners : A → Option (Miner A)
  /-- `Orders`: an order's id is its index. -/
  orders : List (Order A)
  /-- `RecommendList`, by decreasing amount. -/
  recommendList : List (A × ℕ)
  /-- `Url`: the miner that registered a url. -/
  url : List UInt8 → Option A
  /-- `MinerHistory`: the orders made on a miner. -/
  minerHistory : A → List (Order A)
  /-- `History`: the daily payments to a miner. -/
  history : A → Option MiningHistory
  /-- `ListOrder`: the orders made. -/
  listOrder : List (Order A)

/-- The empty storage of genesis. -/
def State.empty {A : Type} : State A :=
  ⟨fun _ => none, [], [], fun _ => none, fun _ => [], fun _ => none, []⟩

/-- What the pallet's calls act on: its storage, the balances, the block number and the
timestamp of the current block. -/
structure World (A : Type) where
  /-- The pallet's storage. -/
  ipse : State A
  /-- The Balances pallet. -/
  balances : Balances.State A
  /-- `system::block_number`. -/
  blockNumber : ℕ
  /-- `timestamp::Now`, what `get_now_ts` reads. -/
  now : ℕ

variable {A : Type}

/-- Replace the pallet's storage. -/
def World.setIpse (w : World A) (s : State A) : World A := { w with ipse := s }

/-- Replace the balances. -/
def World.setBalances (w : World A) (b : Balances.State A) : World A := { w with balances := b }

@[simp] theorem World.setIpse_ipse (w : World A) (s : State A) : (w.setIpse s).ipse = s := rfl

@[simp] theorem World.setIpse_balances (w : World A) (s : State A) :
    (w.setIpse s).balances = w.balances := rfl

@[simp] theorem World.setIpse_now (w : World A) (s : State A) : (w.setIpse s).now = w.now := rfl

@[simp] theorem World.setBalances_ipse (w : World A) (b : Balances.State A) :
    (w.setBalances b).ipse = w.ipse := rfl

@[simp] theorem World.setBalances_balances (w : World A) (b : Balances.State A) :
    (w.setBalances b).balances = b := rfl

@[simp] theorem World.setBalances_now (w : World A) (b : Balances.State A) :
    (w.setBalances b).now = w.now := rfl

variable [DecidableEq A]

/-! ### Balances -/

/-- `T::StakingCurrency::reserve`, its error passed on by `?`. -/
def reserve (c : Config) (w : World A) (who : A) (value : ℕ) : Machine.Outcome Error (World A) :=
  let r := Balances.reserve c.existentialDeposit w.balances who value
  match r.result with
  | .ok _ => .ok (w.setBalances r.state)
  | .error e => .error (.Balances e) (w.setBalances r.state)

/-- `T::StakingCurrency::unreserve`; what could not be released is ignored. -/
def unreserve (c : Config) (w : World A) (who : A) (value : ℕ) : World A :=
  w.setBalances (Balances.unreserve c.existentialDeposit w.balances who value).2

/-- `T::StakingCurrency::repatriate_reserved(.., BalanceStatus::Free)`; its result is
ignored, so a failure leaves the balances as they were. -/
def repatriateReserved (c : Config) (w : World A) (slashed beneficiary : A) (value : ℕ) :
    World A :=
  w.setBalances
    (Balances.repatriateReserved c.existentialDeposit w.balances slashed beneficiary value .Free).2

/-! ### Histories -/

/-- `append_or_replace_orders`: once full, `split_off` leaves the first
`len - NUM_LIST_HISTORY_LEN` orders in the vector; the split-off tail goes to a shadowing binding
that is dropped, and the push goes to the vector. -/
def appendOrReplaceOrders (orders : List (Order A)) (order : Order A) : List (Order A) :=
  let len := orders.length
  let orders := if len = NUM_LIST_ORDER_LEN then orders.take (len - NUM_LIST_HISTORY_LEN)
    else orders
  orders ++ [order]

/-- `update_miner_history`: the same cut of `MinerHistory[miner]`, from `NUM_LIST_HISTORY_LEN`
entries on, into a shadowing binding. -/
def updateMinerHistory (s : State A) (miner : A) (order : Order A) : State A :=
  let minerHistory := s.minerHistory miner
  let len := minerHistory.length
  let minerHistory := if NUM_LIST_HISTORY_LEN ≤ len then
      minerHistory.take (len - NUM_LIST_HISTORY_LEN)
    else minerHistory
  { s with minerHistory := Function.update s.minerHistory miner (minerHistory ++ [order]) }

/-- `update_history`: record a payment of `amount` at block `n`, keep the last hundred and
count it. -/
def updateHistory (s : State A) (n : ℕ) (miner : A) (amount : ℕ) : State A :=
  let history : MiningHistory :=
    match s.history miner with
    | some history =>
      let vec := history.history ++ [(n, amount)]
      let len := vec.length
      let vec := if 100 ≤ len then vec.drop (len - 100) else vec
      ⟨wrappingAdd 64 history.totalNum 1, vec⟩
    | none => ⟨1, [(n, amount)]⟩
  { s with history := Function.update s.history miner (some history) }

/-! ### Miners and orders -/

/-- `register_miner`. A miner that registers again under a new url replaces its record. -/
def registerMiner (w : World A) (who : A) (url : List UInt8) (stashAddress : A)
    (capacity unitPrice : ℕ) : Machine.Outcome Error (World A) :=
  let totalStaking := wrappingMul Balances.balanceBits capacity unitPrice
  if capacity = 0 then .error .NoneCapacity w
  else if (w.ipse.url url).isSome then .error .UrlExists w
  else
    let s := w.ipse
    let miner : Miner A := ⟨who, url, stashAddress, capacity, unitPrice, 0, totalStaking, w.now, w.now⟩
    .ok (w.setIpse { s with
      url := Function.update s.url url (some who)
      miners := Function.update s.miners who (some miner) })

/-- `create_order`: reserve the price of all the days, record a confirmed order in `ListOrder`
and in the miner's `MinerHistory`, push it to `Orders`, and lower the miner's capacity by the
size bought. -/
def createOrder (c : Config) (w : World A) (user miner : A) (size : ℕ)
    (url : Option (List UInt8)) (days : ℕ) : Machine.Outcome Error (World A) :=
  match w.ipse.miners miner with
  | none => .error .MinerNotFound w
  | some minerInfo =>
    if days = 0 then .error .NoneDays w
    else if minerInfo.capacity ≤ size then .error .InsufficientCapacity w
    else
      let dayPrice := wrappingMul Balances.balanceBits minerInfo.unitPrice size
      let totalPrice := wrappingMul Balances.balanceBits dayPrice days
      let minerOrder : MinerOrder A := ⟨miner, dayPrice, totalPrice, true, w.now, w.now, url⟩
      (reserve c w user totalPrice).andThen fun w =>
        let order : Order A :=
          ⟨miner, size, user, [minerOrder], .Confirmed, w.now, w.now,
            wrappingMul momentBits days DAY⟩
        let s := w.ipse
        let s := { s with listOrder := appendOrReplaceOrders s.listOrder order }
        let s := updateMinerHistory s miner order
        .ok (w.setIpse { s with
          orders := s.orders ++ [order]
          miners := Function.update s.miners miner
            (some { minerInfo with capacity := minerInfo.capacity - size }) })

/-- `find_miner_order`: the first miner order of `miner`, with its index. -/
def findMinerOrder (miner : A) : List (MinerOrder A) → Option (ℕ × MinerOrder A)
  | [] => none
  | o :: os =>
    if o.miner = miner then some (0, o) else (findMinerOrder miner os).map fun r => (r.1 + 1, r.2)

/-- `confirm_order`: the miner's part of the order is stamped and the user's funds for it
reserved once more. `Orders::mutate` stores the stamped order even when that reservation
fails. -/
def confirmOrder (c : Config) (w : World A) (miner : A) (orderId : ℕ) (url : List UInt8) :
    Machine.Outcome Error (World A) :=
  match w.ipse.miners miner with
  | none => .error .MinerNotFound w
  | some minerInfo =>
    if minerInfo.totalStaking = 0 then .error .NoneStaking w
    else
      let now := w.now
      match w.ipse.orders[orderId]? with
      | none => .error .OrderNotFound w
      | some order =>
        if order.status = .Deleted then .error .OrderDeleted w
        else if order.status = .Expired then .error .OrderExpired w
        else
          match findMinerOrder miner order.orders with
          | none => .error .MinerOrderNotFound w
          | some (i, minerOrder) =>
            let orders := order.orders.set i { minerOrder with confirmTs := now, url := some url }
            let order' := if order.status = .Created then
                { order with orders := orders, status := .Confirmed, updateTs := now }
              else { order with orders := orders }
            let s := w.ipse
            let w := w.setIpse { s with orders := s.orders.set orderId order' }
            reserve c w order.user minerOrder.totalPrice

/-- `delete_order`: the order is deleted and the user refunded the day prices times the days
from `update_ts` to the deadline, `update_ts` being set to now just before. -/
def deleteOrder (c : Config) (w : World A) (user : A) (orderId : ℕ) :
    Machine.Outcome Error (World A) :=
  match w.ipse.orders[orderId]? with
  | none => .error .OrderNotFound w
  | some order =>
    if user ≠ order.user then .error .PermissionDenyed w
    else if order.status = .Deleted then .error .OrderDeleted w
    else if order.status = .Expired then .error .OrderExpired w
    else
      let now := w.now
      let order := { order with status := .Deleted, updateTs := now }
      let daysToDeadline :=
        wrappingSub momentBits (wrappingAdd momentBits order.duration order.updateTs) now / DAY
      let refund := order.orders.foldl (fun r mo => wrappingAdd Balances.balanceBits r mo.dayPrice) 0
      let refund := wrappingMul Balances.balanceBits refund daysToDeadline
      let s := w.ipse
      let w := w.setIpse { s with orders := s.orders.set orderId order }
      .ok (unreserve c w order.user refund)

/-- `verify_storage`: the loop stamps the miner's parts of the order in a copy of `Orders`
that is never stored, so an accepted call changes nothing. -/
def verifyStorage (w : World A) (miner : A) (orderId : ℕ) : Machine.Outcome Error (World A) :=
  match w.ipse.orders[orderId]? with
  | none => .error .OrderNotFound w
  | some order =>
    if order.status ≠ .Confirmed then .error .OrderUnconfirmed w
    else
      let _copy := order.orders.map fun mo =>
        if mo.miner = miner then { mo with verifyTs := w.now, verifyResult := true } else mo
      .ok w

/-! ### The recommended list -/

/-- The place of `amount` in a list sorted by decreasing amount: after every entry of at
least that amount before the first smaller one. -/
def sortIndex (list : List (A × ℕ)) (amount : ℕ) : ℕ :=
  (list.takeWhile fun i => amount ≤ i.2).length

/-- `sort_after`: reserve the amount, insert the miner at `index`, and cut the list to
twenty, unreserving what is cut off. -/
def sortAfter (c : Config) (w : World A) (miner : A) (amount index : ℕ)
    (oldList : List (A × ℕ)) : Machine.Outcome Error (World A) :=
  (reserve c w miner amount).andThen fun w =>
    let list := oldList.insertIdx index (miner, amount)
    let w := if 20 < list.length then
        (list.drop 20).foldl (fun w i => unreserve c w i.1 i.2) w
      else w
    let list := if 20 < list.length then list.take 20 else list
    .ok (w.setIpse { w.ipse with recommendList := list })

/-- `sort_account_by_amount`: a miner already in the list gets its old amount back and bids
the sum. -/
def sortAccountByAmount (c : Config) (w : World A) (miner : A) (amount : ℕ) :
    Machine.Outcome Error (World A) :=
  match KeyedList.extract Prod.fst miner w.ipse.recommendList with
  | none =>
    let list := w.ipse.recommendList
    sortAfter c w miner amount (sortIndex list amount) list
  | some (old, list) =>
    if !Balances.canReserve w.balances miner amount then .error .AmountNotEnough w
    else
      let w := unreserve c w miner old.2
      let amount := wrappingAdd Balances.balanceBits amount old.2
      sortAfter c w miner amount (sortIndex list amount) list

/-- `apply_to_recommended_list`. -/
def applyToRecommendedList (c : Config) (w : World A) (miner : A) (amount : ℕ) :
    Machine.Outcome Error (World A) :=
  if (w.ipse.miners miner).isNone then .error .MinerNotFound w
  else sortAccountByAmount c w miner amount

/-- `drop_out_recommended_list`. -/
def dropOutRecommendedList (c : Config) (w : World A) (miner : A) :
    Machine.Outcome Error (World A) :=
  match KeyedList.extract Prod.fst miner w.ipse.recommendList with
  | none => .error .NotInList w
  | some (entry, list) =>
    let w := unreserve c w miner entry.2
    .ok (w.setIpse { w.ipse with recommendList := list })

/-! ### Payments -/

/-- A day's payment in the loop of `on_finalize`: the day price goes from the user's reserve
to the miner's stash, and the miner's `History` records it under the current block. -/
def payDay (c : Config) (w : World A) (user stash : A) (mo : MinerOrder A) : World A :=
  let w := repatriateReserved c w user stash mo.dayPrice
  w.setIpse (updateHistory w.ipse w.blockNumber mo.miner mo.dayPrice)

/-- One miner order in the loop of `on_finalize`: expire the order once its duration and a
day have passed since it was created, or else pay the miner a day when a day has passed since
`update_ts` and the last verification succeeded. -/
def payMinerOrder (c : Config) (now createTs : ℕ) (w : World A) (order : Order A)
    (mo : MinerOrder A) : World A × Order A :=
  if wrappingAdd momentBits (wrappingAdd momentBits order.duration createTs) DAY < now then
    (w, { order with status := .Expired })
  else if DAY ≤ wrappingSub momentBits now order.updateTs && mo.verifyResult then
    match w.ipse.miners mo.miner with
    | some miner => (payDay c w order.user miner.stashAddress mo, { order with updateTs := now })
    | none => (w, order)
  else (w, order)

/-- One order in the loop of `on_finalize`: only a confirmed order is looked at. -/
def payOrder (c : Config) (now : ℕ) (w : World A) (order : Order A) : World A × Order A :=
  if order.status = .Confirmed then
    order.orders.foldl (fun p mo => payMinerOrder c now order.createTs p.1 p.2 mo) (w, order)
  else (w, order)

/-- The loop of `on_finalize` over `Orders`, from the first order on. -/
def payOrders (c : Config) (now : ℕ) : World A → List (Order A) → World A × List (Order A)
  | w, [] => (w, [])
  | w, order :: orders =>
    let r := payOrder c now w order
    let rs := payOrders c now r.1 orders
    (rs.1, r.2 :: rs.2)

/-- `on_finalize`: every twentieth block, walk over `Orders` and store the result. -/
def onFinalize (c : Config) (w : World A) : World A :=
  if w.blockNumber % 20 ≠ 0 then w
  else
    let r := payOrders c w.now w w.ipse.orders
    r.1.setIpse { r.1.ipse with orders := r.2 }

/-! ### Calls and blocks -/

/-- The dispatchable calls of the pallet, with the arguments the code reads. -/
inductive Call (A : Type) where
  | registerMiner (url : List UInt8) (stashAddress : A) (capacity unitPrice : ℕ)
  | createOrder (miner : A) (size : ℕ) (url : Option (List UInt8)) (days : ℕ)
  | confirmOrder (orderId : ℕ) (url : List UInt8)
  | deleteOrder (orderId : ℕ)
  | verifyStorage (orderId : ℕ)
  | applyToRecommendedList (amount : ℕ)
  | dropOutRecommendedList

/-- Dispatch a call: every dispatchable starts with `ensure_signed`. -/
def dispatch (c : Config) (w : World A) (origin : Origin A) (call : Call A) :
    Machine.Outcome Error (World A) :=
  match origin with
  | .signed who =>
    match call with
    | .registerMiner url stashAddress capacity unitPrice =>
      registerMiner w who url stashAddress capacity unitPrice
    | .createOrder miner size url days => createOrder c w who miner size url days
    | .confirmOrder orderId url => confirmOrder c w who orderId url
    | .deleteOrder orderId => deleteOrder c w who orderId
    | .verifyStorage orderId => verifyStorage w who orderId
    | .applyToRecommendedList amount => applyToRecommendedList c w who amount
    | .dropOutRecommendedList => dropOutRecommendedList c w who
  | _ => .error .BadOrigin w

/-- What can happen next: a call; the end of the block, with `on_finalize`, and the start of
the next, whose timestamp is `dt` milliseconds later; or a change the rest of the runtime
makes to the balances. -/
inductive Event (A : Type) where
  | call (origin : Origin A) (call : Call A)
  | nextBlock (dt : ℕ)
  | external (balances : Balances.State A)

/-- One event. -/
def step (c : Config) (w : World A) : Event A → World A
  | .call origin call => (dispatch c w origin call).state
  | .nextBlock dt =>
    let w := onFinalize c w
    { w with blockNumber := w.blockNumber + 1, now := w.now + dt }
  | .external balances => w.setBalances balances

/-- The pallet from genesis, block zero at time zero, over any balances. -/
def machine (c : Config) (balances : Balances.State A) : Machine (World A) (Event A) where
  init := ⟨State.empty, balances, 0, 0⟩
  step := step c

end IpseCore.Ipse
