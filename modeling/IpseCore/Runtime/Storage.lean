import IpseCore.Ipse.Orders
import IpseCore.PocStaking.Frame
import IpseCore.PocStaking.Locks

/-!
# The storage runtime

The runtime runs PocStaking and Ipse over one Balances pallet, and both keep what they hold
for an account in its reserved balance: PocStaking a miner's amount in `RecommendList` and the
bond and deposit of each staking, Ipse the price of each order. Neither pallet knows of the
other's reservations, and Balances releases from the reserve whatever is asked, up to what is
there, whoever reserved it.

`World` joins the storage of both pallets with the balances, the block number and the
timestamp. A call of either pallet acts on its own view of the world (`toStaking`,
`toIpse`) and writes back its storage and the balances; a block ends with both
`on_finalize` hooks and the next starts with PocStaking's `on_initialize`.

Seen from PocStaking, an Ipse call changes only the balances, so the runtime's runs are runs
of PocStaking's machine (`reachable_pocStaking`) and its invariants hold here. What PocStaking
holds in reserve for an account is `obligations`; Ipse's `delete_order` refunds every day of an
order, paid or not (`Ipse.deleteOrder_refunds_every_day`), and the excess comes out of what
PocStaking reserved.

Ipse sets no lock, so the two ledgers PocStaking keeps of its lock move in step in the runtime
as in the pallet alone, with Ipse's calls in between (`ledgers_agree_in_runtime`).
-/

namespace IpseCore.Runtime.Storage

open Unsigned

/-- The constants of both pallets. -/
structure Config where
  /-- `impl poc_staking::Trait`. -/
  staking : PocStaking.Config
  /-- `impl ipse::Trait`. -/
  ipse : Ipse.Config

/-- The runtime's constants. -/
def runtimeConfig : Config := ⟨PocStaking.runtimeConfig, Ipse.runtimeConfig⟩

/-- The storage of both pallets, the balances, the storage of PocStaking's `PocHandler`,
`system::block_number` and `timestamp::Now`. -/
structure World (A H : Type) where
  /-- PocStaking's storage. -/
  staking : PocStaking.State A
  /-- Ipse's storage. -/
  ipse : Ipse.State A
  /-- The Balances pallet. -/
  balances : Balances.State A
  /-- The storage `PocHandler::remove_history` acts on. -/
  handler : H
  /-- `system::block_number`. -/
  blockNumber : ℕ
  /-- `timestamp::Now`. -/
  now : ℕ

variable {A H : Type}

/-- What PocStaking reads of the world. -/
def World.toStaking (w : World A H) : PocStaking.World A H :=
  ⟨w.staking, w.balances, w.handler, w.blockNumber⟩

/-- What Ipse reads of the world. -/
def World.toIpse (w : World A H) : Ipse.World A :=
  ⟨w.ipse, w.balances, w.blockNumber, w.now⟩

/-- Write back what PocStaking writes: its storage, the balances and the handler's storage. -/
def World.ofStaking (w : World A H) (v : PocStaking.World A H) : World A H :=
  { w with staking := v.staking, balances := v.balances, handler := v.handler }

/-- Write back what Ipse writes: its storage and the balances. -/
def World.ofIpse (w : World A H) (v : Ipse.World A) : World A H :=
  { w with ipse := v.ipse, balances := v.balances }

@[simp] theorem World.ofIpse_staking (w : World A H) (v : Ipse.World A) :
    (w.ofIpse v).staking = w.staking := rfl

@[simp] theorem World.ofStaking_ipse (w : World A H) (v : PocStaking.World A H) :
    (w.ofStaking v).ipse = w.ipse := rfl

/-- Writing back a view that kept the block number gives the view back. -/
theorem World.toStaking_ofStaking (w : World A H) {v : PocStaking.World A H}
    (hblock : v.blockNumber = w.blockNumber) : (w.ofStaking v).toStaking = v := by
  obtain ⟨s, b, h, n⟩ := v
  simp only at hblock
  subst hblock
  rfl

/-- What can happen: a call of either pallet, or the end of a block and the start of the next,
whose timestamp is `dt` milliseconds later. -/
inductive Event (A : Type) where
  | pocStaking (origin : Origin A) (call : PocStaking.Call A)
  | ipse (origin : Origin A) (call : Ipse.Call A)
  | nextBlock (dt : ℕ)

variable [DecidableEq A]

/-- The end of a block and the start of the next. `AllModules` runs the hooks in the reverse
order of `construct_runtime!`, Ipse's `on_finalize` before PocStaking's; the two write
different storage, and only Ipse's touches the balances. -/
def nextBlock (c : Config) (w : World A H) (dt : ℕ) : World A H :=
  let w := w.ofIpse (Ipse.onFinalize c.ipse w.toIpse)
  let w := w.ofStaking (PocStaking.onFinalize w.toStaking)
  let w := { w with blockNumber := w.blockNumber + 1, now := w.now + dt }
  w.ofStaking (PocStaking.onInitialize c.staking w.toStaking)

/-- One event. -/
def step (c : Config) (removeHistory : A → H → H) (w : World A H) : Event A → World A H
  | .pocStaking origin call =>
    w.ofStaking (PocStaking.dispatch c.staking removeHistory w.toStaking origin call).state
  | .ipse origin call => w.ofIpse (Ipse.dispatch c.ipse w.toIpse origin call).state
  | .nextBlock dt => nextBlock c w dt

/-- The runtime from genesis, block zero at time zero, over any balances and handler storage. -/
def machine (c : Config) (removeHistory : A → H → H) (balances : Balances.State A)
    (handler : H) : Machine (World A H) (Event A) where
  init := ⟨PocStaking.State.empty, Ipse.State.empty, balances, handler, 0, 0⟩
  step := step c removeHistory

/-! ### What PocStaking holds in reserve -/

/-- The bond and deposit of `staker`'s entries among `miner`'s stakers. -/
def stakeOf (s : PocStaking.State A) (staker miner : A) : ℕ :=
  match s.stakingInfoOf miner with
  | some info => ((info.others.filter (·.1 = staker)).map fun e => e.2.1 + e.2.2).sum
  | none => 0

/-- What PocStaking holds in reserve for `a`: its amount in `RecommendList`, and the bond and
deposit of its staking on every miner. -/
def obligations (s : PocStaking.State A) (a : A) : ℕ :=
  ((s.recommendList.filter (·.1 = a)).map Prod.snd).sum + ∑ m ∈ s.miners, stakeOf s a m

/-! ### The runtime seen from each pallet -/

section Views

variable (c : Config) (removeHistory : A → H → H) (balances : Balances.State A) (handler : H)

/-- Each event of the runtime is a run of PocStaking's machine: an Ipse call is an external
change of the balances, and a block boundary is Ipse's `on_finalize` followed by
PocStaking's. -/
theorem step_simulated (w : World A H) (e : Event A) :
    ∃ fs, (step c removeHistory w e).toStaking =
      (PocStaking.machine c.staking removeHistory balances handler).runFrom w.toStaking fs := by
  cases e with
  | pocStaking origin call =>
    refine ⟨[.call origin call], ?_⟩
    -- no call of PocStaking moves the block
    exact World.toStaking_ofStaking w
      (PocStaking.dispatch_keepsUpTo c.staking w.toStaking removeHistory origin call).blockNumber_eq
  | ipse origin call =>
    exact ⟨[.external (Ipse.dispatch c.ipse w.toIpse origin call).state.balances w.handler], rfl⟩
  | nextBlock dt =>
    exact ⟨[.external (Ipse.onFinalize c.ipse w.toIpse).balances w.handler, .nextBlock], rfl⟩

/-- PocStaking's machine reaches what the runtime reaches, seen from PocStaking. -/
theorem reachable_pocStaking {w : World A H}
    (hw : (machine c removeHistory balances handler).Reachable w) :
    (PocStaking.machine c.staking removeHistory balances handler).Reachable w.toStaking :=
  Machine.reachable_of_simulation (machine c removeHistory balances handler)
    (PocStaking.machine c.staking removeHistory balances handler) World.toStaking .init
    (fun w e _ => step_simulated c removeHistory balances handler w e) hw

/-- The orders Ipse stores are well formed in every state the runtime reaches: PocStaking
never writes them, and Ipse's calls and hook keep them well formed. -/
theorem reachable_ordersWellFormed {w : World A H}
    (hw : (machine c removeHistory balances handler).Reachable w) : w.ipse.OrdersWellFormed := by
  induction hw with
  | init => exact fun o ho => absurd ho List.not_mem_nil
  | step e _ ih =>
    cases e with
    | pocStaking origin call => exact ih
    | ipse origin call => exact Ipse.dispatch_ordersWellFormed c.ipse ih origin call
    | nextBlock dt => exact Ipse.onFinalize_ordersWellFormed c.ipse ih

end Views

/-! ### Refunds out of PocStaking's reserve -/

/-- From every reachable state, Ipse's `delete_order` by the user of a live order is accepted
and takes every day's price from the user's reserve, paid days included, while what PocStaking
holds in reserve for every account stays as it was. -/
theorem deleteOrder_releases_staking_reserve {c : Config} {removeHistory : A → H → H}
    {balances : Balances.State A} {handler : H} {w : World A H}
    (hw : (machine c removeHistory balances handler).Reachable w) {i : ℕ} {order : Ipse.Order A}
    (ho : w.ipse.orders[i]? = some order) (hdel : order.status ≠ .Deleted)
    (hexp : order.status ≠ .Expired) :
    ∃ mo, order.orders = [mo] ∧
      (Ipse.dispatch c.ipse w.toIpse (.signed order.user) (.deleteOrder i)).result = .ok () ∧
      (∀ a, obligations
          (step c removeHistory w (.ipse (.signed order.user) (.deleteOrder i))).staking a =
        obligations w.staking a) ∧
      (Balances.accountOf
          (step c removeHistory w (.ipse (.signed order.user) (.deleteOrder i))).balances
          order.user).reserved ≤
        (Balances.accountOf w.balances order.user).reserved -
          wrappingMul Balances.balanceBits mo.dayPrice (order.duration / Ipse.DAY) := by
  have hwf : w.toIpse.ipse.OrdersWellFormed :=
    reachable_ordersWellFormed c removeHistory balances handler hw
  obtain ⟨mo, hmo, hok, hbal⟩ := Ipse.deleteOrder_refunds_of_wellFormed c.ipse hwf ho hdel hexp
  refine ⟨mo, hmo, hok, fun a => rfl, ?_⟩
  -- the step writes back the balances `delete_order` leaves
  have hstep : (step c removeHistory w (.ipse (.signed order.user) (.deleteOrder i))).balances =
      (Ipse.deleteOrder c.ipse w.toIpse order.user i).state.balances := rfl
  rw [hstep, hbal]
  exact Balances.reserved_unreserve_le _ _ _ _

/-- User 2 bids 10¹⁴ for PocStaking's recommended list and buys two days from Ipse miner 3; a
day later the first day is paid. Deleting the order releases 2 · 10¹² again, so only
10¹⁴ - 10¹² of PocStaking's 10¹⁴ stays reserved. -/
theorem deleteOrder_releases_staking_reserve_after_payment :
    let w := (machine runtimeConfig (fun _ h => h) (⟨fun a => if a = 2 then some ⟨10 ^ 16, 0, 0, 0⟩
        else if a = 4 then some ⟨10 ^ 14, 0, 0, 0⟩ else none, fun _ => [], 10 ^ 16 + 10 ^ 14⟩ :
          Balances.State ℕ) ()).run
      ([.pocStaking (.signed 2) (.register 1 0 50 none),
        .pocStaking (.signed 2) (.requestUpToList (10 ^ 14)),
        .ipse (.signed 3) (.registerMiner [1] 4 (10 ^ 6) (10 ^ 9)),
        .ipse (.signed 2) (.createOrder 3 1000 none 2), .nextBlock Ipse.DAY] ++
        List.replicate 20 (.nextBlock 0))
    let w' := step runtimeConfig (fun _ h => h) w (.ipse (.signed 2) (.deleteOrder 0))
    let order : Ipse.Order ℕ :=
      ⟨3, 1000, 2, [⟨3, 10 ^ 12, 2 * 10 ^ 12, true, 0, 0, none⟩], .Confirmed, 0, Ipse.DAY, 2 * Ipse.DAY⟩
    obligations w.staking 2 = 10 ^ 14 ∧ (Balances.accountOf w.balances 2).reserved = 10 ^ 14 + 10 ^ 12 ∧
      obligations w'.staking 2 = 10 ^ 14 ∧
      (Balances.accountOf w'.balances 2).reserved = 10 ^ 14 - 10 ^ 12 ∧
      ∃ mo, order.orders = [mo] ∧
        (Ipse.dispatch runtimeConfig.ipse w.toIpse (.signed order.user) (.deleteOrder 0)).result =
          .ok () ∧
        (∀ a, obligations
            (step runtimeConfig (fun _ h => h) w (.ipse (.signed order.user) (.deleteOrder 0))).staking a =
          obligations w.staking a) ∧
        (Balances.accountOf
            (step runtimeConfig (fun _ h => h) w (.ipse (.signed order.user) (.deleteOrder 0))).balances
            order.user).reserved ≤
          (Balances.accountOf w.balances order.user).reserved -
            wrappingMul Balances.balanceBits mo.dayPrice (order.duration / Ipse.DAY) :=
  ⟨by decide +kernel, by decide +kernel, by decide +kernel, by decide +kernel,
    deleteOrder_releases_staking_reserve (Machine.reachable_run _ _) (by decide +kernel)
      (by decide) (by decide)⟩

/-! ### The ledgers of PocStaking's lock -/

section Ledgers

variable (c : Config) (removeHistory : A → H → H)

/-- One event of the runtime keeps an account's two ledgers of PocStaking's lock agreeing, while
what `Locks` records for it afterwards fits in a `u128`. -/
theorem step_ledgers_agree (w : World A H) (e : Event A) (a : A)
    (hagree : PocStaking.lockedOf w.toStaking a = PocStaking.recordedOf w.toStaking a)
    (hfit : PocStaking.recordedOf (step c removeHistory w e).toStaking a ≤
      maxOf Balances.balanceBits) :
    PocStaking.lockedOf (step c removeHistory w e).toStaking a =
      PocStaking.recordedOf (step c removeHistory w e).toStaking a := by
  cases e with
  | pocStaking origin call =>
    -- PocStaking's own call, on its view of the world
    have hview : (step c removeHistory w (.pocStaking origin call)).toStaking =
        PocStaking.step c.staking removeHistory w.toStaking (.call origin call) :=
      World.toStaking_ofStaking w (PocStaking.dispatch_keepsUpTo c.staking w.toStaking
        removeHistory origin call).blockNumber_eq
    rw [hview] at hfit ⊢
    exact PocStaking.step_agree c.staking removeHistory w.toStaking _ rfl a hagree hfit
  | ipse origin call =>
    -- Ipse writes the balances but no lock
    have hbooks : (step c removeHistory w (.ipse origin call)).toStaking.lockBooks =
        w.toStaking.lockBooks := by
      show ((Ipse.dispatch c.ipse w.toIpse origin call).state.balances.locks, w.staking.locks) =
        (w.balances.locks, w.staking.locks)
      rw [Ipse.dispatch_balances_locks]
      rfl
    exact (PocStaking.Grows.of_lockBooks hbooks).agree a hagree hfit
  | nextBlock dt =>
    -- Ipse's `on_finalize` moves no lock, and PocStaking's hooks write neither ledger
    have hfinal : (Ipse.onFinalize c.ipse w.toIpse).balances.locks = w.balances.locks :=
      Ipse.onFinalize_balances_locks c.ipse w.toIpse
    have hbooks : (step c removeHistory w (.nextBlock dt)).toStaking.lockBooks =
        w.toStaking.lockBooks := by
      have hblock := PocStaking.nextBlock_lockBooks c.staking removeHistory
        { w.toStaking with balances := (Ipse.onFinalize c.ipse w.toIpse).balances }
      refine hblock.trans ?_
      show ((Ipse.onFinalize c.ipse w.toIpse).balances.locks, w.staking.locks) =
        (w.balances.locks, w.staking.locks)
      rw [hfinal]
    exact (PocStaking.Grows.of_lockBooks hbooks).agree a hagree hfit

/-- Along every run of the runtime from genesis, an account that started without a `pocstake`
lock ends with PocStaking's two ledgers of it agreeing, whatever Ipse did in between, as long
as what `Locks` records for it fitted in a `u128` in every state of the run. -/
theorem ledgers_agree_in_runtime (balances : Balances.State A) (handler : H) (who : A)
    (hgenesis : Balances.lockAmount PocStaking.stakingId (balances.locks who) = 0)
    (es : List (Event A))
    (hfit : ∀ n ≤ es.length, PocStaking.recordedOf
      ((machine c removeHistory balances handler).run (es.take n)).toStaking who ≤
        maxOf Balances.balanceBits) :
    PocStaking.lockedOf ((machine c removeHistory balances handler).run es).toStaking who =
      PocStaking.recordedOf ((machine c removeHistory balances handler).run es).toStaking who :=
  (machine c removeHistory balances handler).run_guarded_induction
    (P := fun w => PocStaking.lockedOf w.toStaking who = PocStaking.recordedOf w.toStaking who)
    (G := fun w => PocStaking.recordedOf w.toStaking who ≤ maxOf Balances.balanceBits)
    (Q := fun _ => True) hgenesis
    (fun w e _ hagree hfit => step_ledgers_agree c removeHistory w e who hagree hfit)
    es (fun _ _ => trivial) hfit

/-- User 2 bids 10¹² for PocStaking's list and leaves it, which locks the bid; in between it
buys two days of miner 3's storage from Ipse and deletes the order, whose refund Ipse
unreserves. -/
theorem ledgers_agree_in_runtime_with_orders :
    let b : Balances.State ℕ := ⟨fun a => if a = 2 then some ⟨10 ^ 16, 0, 0, 0⟩ else none,
      fun _ => [], 10 ^ 16⟩
    let m := machine runtimeConfig (fun _ h => h) b ()
    let es : List (Event ℕ) := [.pocStaking (.signed 2) (.register 1 0 50 none),
      .pocStaking (.signed 2) (.requestUpToList (10 ^ 12)),
      .ipse (.signed 3) (.registerMiner [1] 4 (10 ^ 6) (10 ^ 9)),
      .ipse (.signed 2) (.createOrder 3 1000 none 2), .nextBlock Ipse.DAY,
      .ipse (.signed 2) (.deleteOrder 0), .pocStaking (.signed 2) .requestDownFromList]
    Balances.lockAmount PocStaking.stakingId (b.locks 2) = 0 ∧
      (∀ n ≤ es.length, PocStaking.recordedOf (m.run (es.take n)).toStaking 2 ≤
        maxOf Balances.balanceBits) ∧
      PocStaking.recordedOf (m.run es).toStaking 2 = 10 ^ 12 ∧
      PocStaking.lockedOf (m.run es).toStaking 2 = PocStaking.recordedOf (m.run es).toStaking 2 :=
  ⟨by decide, by decide +kernel, by decide +kernel,
    ledgers_agree_in_runtime runtimeConfig _ _ () 2 (by decide) _ (by decide +kernel)⟩

end Ledgers

end IpseCore.Runtime.Storage
