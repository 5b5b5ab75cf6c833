import IpseCore.Ipse.Model
import IpseCore.Balances.Moves

/-!
# Orders, payments and refunds

An order's life touches three places. `create_order` reserves the price of all its days from
the user and lowers the miner's capacity; `on_finalize` pays the miner a day at a time out of
that reserve while the miner order's `verify_result` holds; `delete_order` refunds the user.

Each order of the pallet has exactly one miner order, and its `verify_result` is `true`:
`create_order` sets it, and `verify_storage`, the only call meant to refresh it, stamps a
copy of `Orders` that it never stores. So `on_finalize` pays on time alone, however old the
last verification is. `delete_order` sets `update_ts` to now just before it computes the days
left from it, so it refunds every day of the order, however many have been paid. Neither
`delete_order` nor the expiry in `on_finalize` gives the miner its capacity back: what a miner
has left plus the sizes of all the orders made on it since it registered is the capacity it
declared (`capacity_plus_ordered_eq_registered`).
-/

namespace IpseCore.Ipse

open Unsigned

variable {A : Type}

/-! ### What the helpers leave alone -/

/-- The storage but `History`, which only the payments of `on_finalize` write. -/
def State.withoutHistory (s : State A) : State A := { s with history := fun _ => none }

@[simp] theorem State.withoutHistory_miners (s : State A) : s.withoutHistory.miners = s.miners :=
  rfl

@[simp] theorem State.withoutHistory_recommendList (s : State A) :
    s.withoutHistory.recommendList = s.recommendList := rfl

section Frame

variable [DecidableEq A] (c : Config) (w : World A)

@[simp] theorem reserve_ipse (who : A) (value : ℕ) : (reserve c w who value).state.ipse = w.ipse := by
  unfold reserve
  dsimp only
  split <;> rfl

@[simp] theorem reserve_now (who : A) (value : ℕ) : (reserve c w who value).state.now = w.now := by
  unfold reserve
  dsimp only
  split <;> rfl

@[simp] theorem unreserve_ipse (who : A) (value : ℕ) : (unreserve c w who value).ipse = w.ipse := rfl

@[simp] theorem repatriateReserved_ipse (slashed beneficiary : A) (value : ℕ) :
    (repatriateReserved c w slashed beneficiary value).ipse = w.ipse := rfl

/-- A day's payment writes no storage of the pallet but `History`. -/
theorem payDay_withoutHistory (user stash : A) (mo : MinerOrder A) :
    (payDay c w user stash mo).ipse.withoutHistory = w.ipse.withoutHistory := rfl

/-- `verify_storage` changes nothing, whether it is accepted or not. -/
theorem verifyStorage_state (miner : A) (orderId : ℕ) : (verifyStorage w miner orderId).state = w := by
  unfold verifyStorage
  split
  · rfl
  · split_ifs <;> rfl

end Frame

/-! ### The loop of `on_finalize` -/

section Fold

variable {σ ρ μ κ ν : Type*} (key : σ → κ) (fld : ρ → ν)

/-- A loop over `μ` that carries a state and a record, whose body keeps the `key` of the
state and the `fld` of the record, and decides what to do to the record by the `key` of the
state alone, does the same as a whole. -/
theorem foldl_pair_spec {g : σ → ρ → μ → σ × ρ}
    (hg : ∀ s r m, key (g s r m).1 = key s ∧ fld (g s r m).2 = fld r ∧
      ∀ s', key s' = key s → (g s' r m).2 = (g s r m).2)
    (l : List μ) (s : σ) (r : ρ) :
    key (l.foldl (fun p m => g p.1 p.2 m) (s, r)).1 = key s ∧
      fld (l.foldl (fun p m => g p.1 p.2 m) (s, r)).2 = fld r ∧
      ∀ s', key s' = key s →
        (l.foldl (fun p m => g p.1 p.2 m) (s', r)).2 = (l.foldl (fun p m => g p.1 p.2 m) (s, r)).2 := by
  induction l generalizing s r with
  | nil => exact ⟨rfl, rfl, fun _ _ => rfl⟩
  | cons m l ih =>
    obtain ⟨hkey, hfld, hcongr⟩ := hg s r m
    obtain ⟨ih₁, ih₂, ih₃⟩ := ih (g s r m).1 (g s r m).2
    refine ⟨ih₁.trans hkey, ih₂.trans hfld, fun s' hs' => ?_⟩
    -- after one step from `s'` the record is the one reached from `s`, the key the same
    have hpair : g s' r m = ((g s' r m).1, (g s r m).2) := Prod.ext rfl (hcongr s' hs')
    have hkey' : key (g s' r m).1 = key (g s r m).1 := ((hg s' r m).1.trans hs').trans hkey.symm
    simp only [List.foldl_cons]
    rw [hpair]
    exact ih₃ _ hkey'

end Fold

section Loop

variable [DecidableEq A]

/-- An order but for its status and `update_ts`, the two fields the loop of `on_finalize`
writes. -/
def Order.fixed (o : Order A) : A × ℕ × A × List (MinerOrder A) × ℕ × ℕ :=
  (o.miner, o.size, o.user, o.orders, o.createTs, o.duration)

/-- An order's miner and size, what `create_order` takes from the miner's capacity. -/
def Order.slot (o : Order A) : A × ℕ := (o.miner, o.size)

omit [DecidableEq A] in
theorem Order.slot_eq_of_fixed {o o' : Order A} (h : o'.fixed = o.fixed) : o'.slot = o.slot := by
  simp only [Order.fixed, Prod.mk.injEq] at h
  rw [Order.slot, Order.slot, h.1, h.2.1]

variable (c : Config) (now : ℕ)

/-- A miner order in the loop moves balances and records payments only, and changes no more of
the order than its status and `update_ts`; what it does to the order depends on the pallet's
storage alone. -/
theorem payMinerOrder_spec (createTs : ℕ) (w : World A) (order : Order A) (mo : MinerOrder A) :
    (payMinerOrder c now createTs w order mo).1.ipse.withoutHistory = w.ipse.withoutHistory ∧
      (payMinerOrder c now createTs w order mo).2.fixed = order.fixed ∧
      ∀ w' : World A, w'.ipse.withoutHistory = w.ipse.withoutHistory →
        (payMinerOrder c now createTs w' order mo).2 = (payMinerOrder c now createTs w order mo).2 := by
  refine ⟨?_, ?_, fun w' hw' => ?_⟩
  · rw [payMinerOrder]
    split_ifs
    · rfl
    · split
      · exact payDay_withoutHistory c w _ _ mo
      · rfl
    · rfl
  · rw [payMinerOrder]
    split_ifs
    · rfl
    · split <;> rfl
    · rfl
  · -- both sides take the same branch, and the match reads `Miners` only
    have hminers : w'.ipse.miners = w.ipse.miners := by
      simpa using congrArg State.miners hw'
    rw [payMinerOrder, payMinerOrder, hminers]
    split_ifs
    · rfl
    · split <;> rfl
    · rfl

/-- The same for the whole of one order. -/
theorem payOrder_spec (w : World A) (order : Order A) :
    (payOrder c now w order).1.ipse.withoutHistory = w.ipse.withoutHistory ∧
      (payOrder c now w order).2.fixed = order.fixed ∧
      ∀ w' : World A, w'.ipse.withoutHistory = w.ipse.withoutHistory →
        (payOrder c now w' order).2 = (payOrder c now w order).2 := by
  by_cases hconf : order.status = .Confirmed
  · obtain ⟨h₁, h₂, h₃⟩ := foldl_pair_spec (fun w : World A => w.ipse.withoutHistory) Order.fixed
      (payMinerOrder_spec c now order.createTs) order.orders w order
    refine ⟨?_, ?_, fun w' hw' => ?_⟩
    · rw [payOrder, if_pos hconf]
      exact h₁
    · rw [payOrder, if_pos hconf]
      exact h₂
    · rw [payOrder, payOrder, if_pos hconf, if_pos hconf]
      exact h₃ w' hw'
  · refine ⟨?_, ?_, fun w' _ => ?_⟩
    · rw [payOrder, if_neg hconf]
    · rw [payOrder, if_neg hconf]
    · rw [payOrder, payOrder, if_neg hconf, if_neg hconf]

theorem payOrders_withoutHistory (w : World A) (orders : List (Order A)) :
    (payOrders c now w orders).1.ipse.withoutHistory = w.ipse.withoutHistory := by
  induction orders generalizing w with
  | nil => rfl
  | cons order orders ih =>
    simp only [payOrders]
    rw [ih, (payOrder_spec c now w order).1]

/-- The loop treats every order on its own, against the storage it started from. -/
theorem payOrders_getElem? (w : World A) (orders : List (Order A)) (i : ℕ) :
    (payOrders c now w orders).2[i]? = orders[i]?.map fun order => (payOrder c now w order).2 := by
  induction orders generalizing w i with
  | nil => rfl
  | cons order orders ih =>
    cases i with
    | zero => rfl
    | succ i =>
      simp only [payOrders, List.getElem?_cons_succ]
      rw [ih]
      congr 1
      funext order'
      exact (payOrder_spec c now _ order').2.2 _ (payOrder_spec c now w order).1

theorem onFinalize_ipse_of_ne (w : World A) (h : w.blockNumber % 20 ≠ 0) : onFinalize c w = w := by
  simp [onFinalize, h]

/-- What `on_finalize` stores, order by order. -/
theorem onFinalize_orders_getElem? (w : World A) (h : w.blockNumber % 20 = 0) (i : ℕ) :
    (onFinalize c w).ipse.orders[i]? =
      w.ipse.orders[i]?.map fun order => (payOrder c w.now w order).2 := by
  simp only [onFinalize, h, ne_eq, not_true_eq_false, if_false, World.setIpse_ipse]
  exact payOrders_getElem? c w.now w w.ipse.orders i

@[simp] theorem onFinalize_miners (w : World A) : (onFinalize c w).ipse.miners = w.ipse.miners := by
  unfold onFinalize
  split_ifs
  · rfl
  · simpa using congrArg State.miners (payOrders_withoutHistory c w.now w w.ipse.orders)

end Loop


/-! ### The recommended list stays apart -/

section List

variable [DecidableEq A] (c : Config)

theorem foldl_unreserve_ipse (l : List (A × ℕ)) (w : World A) :
    (l.foldl (fun w i => unreserve c w i.1 i.2) w).ipse = w.ipse := by
  induction l generalizing w with
  | nil => rfl
  | cons i l ih => rw [List.foldl_cons, ih, unreserve_ipse]

/-- `sort_after` writes no storage of the pallet but `RecommendList`. -/
theorem sortAfter_ipse (w : World A) (miner : A) (amount index : ℕ) (oldList : List (A × ℕ)) :
    (sortAfter c w miner amount index oldList).state.ipse =
      { w.ipse with recommendList := (sortAfter c w miner amount index oldList).state.ipse.recommendList } := by
  unfold sortAfter
  cases hres : (reserve c w miner amount).result with
  | error e =>
    rw [Machine.Outcome.andThen_of_error hres, reserve_ipse]
  | ok u =>
    rw [Machine.Outcome.andThen_of_ok hres]
    dsimp only
    split_ifs <;> simp [foldl_unreserve_ipse]

theorem sortAccountByAmount_ipse (w : World A) (miner : A) (amount : ℕ) :
    (sortAccountByAmount c w miner amount).state.ipse =
      { w.ipse with recommendList := (sortAccountByAmount c w miner amount).state.ipse.recommendList } := by
  unfold sortAccountByAmount
  split
  · exact sortAfter_ipse c w miner _ _ _
  · split_ifs
    · rfl
    · rw [sortAfter_ipse]
      rfl

theorem applyToRecommendedList_ipse (w : World A) (miner : A) (amount : ℕ) :
    (applyToRecommendedList c w miner amount).state.ipse =
      { w.ipse with
        recommendList := (applyToRecommendedList c w miner amount).state.ipse.recommendList } := by
  unfold applyToRecommendedList
  split_ifs
  · rfl
  · exact sortAccountByAmount_ipse c w miner amount

theorem dropOutRecommendedList_ipse (w : World A) (miner : A) :
    (dropOutRecommendedList c w miner).state.ipse =
      { w.ipse with recommendList := (dropOutRecommendedList c w miner).state.ipse.recommendList } := by
  unfold dropOutRecommendedList
  split
  · rfl
  · rfl

end List

/-! ### Every stored order has one miner order, never verified since it was made -/

section WellFormed

/-- What every order of `Orders` looks like: `create_order` makes one miner order, of the
order's own miner, with `verify_result` set and `verify_ts` the creation time, and nothing
stored afterwards changes those fields. The duration is a `Moment`. -/
structure Order.WellFormed (o : Order A) : Prop where
  length_orders : o.orders.length = 1
  miner_eq : ∀ mo ∈ o.orders, mo.miner = o.miner
  verifyResult_eq : ∀ mo ∈ o.orders, mo.verifyResult = true
  verifyTs_eq : ∀ mo ∈ o.orders, mo.verifyTs = o.createTs
  duration_lt : o.duration < 2 ^ momentBits

/-- Well-formedness reads the fields the loop of `on_finalize` keeps. -/
theorem Order.WellFormed.of_fixed {o o' : Order A} (h : o.WellFormed) (hfix : o'.fixed = o.fixed) :
    o'.WellFormed := by
  simp only [Order.fixed, Prod.mk.injEq] at hfix
  obtain ⟨hminer, -, -, horders, hcreate, hduration⟩ := hfix
  constructor
  · rw [horders]
    exact h.length_orders
  · rw [horders, hminer]
    exact h.miner_eq
  · rw [horders]
    exact h.verifyResult_eq
  · rw [horders, hcreate]
    exact h.verifyTs_eq
  · rw [hduration]
    exact h.duration_lt

theorem Order.WellFormed.exists_eq_singleton {o : Order A} (h : o.WellFormed) :
    ∃ mo, o.orders = [mo] ∧ mo.miner = o.miner ∧ mo.verifyResult = true ∧ mo.verifyTs = o.createTs := by
  obtain ⟨mo, hmo⟩ := List.length_eq_one_iff.mp h.length_orders
  have hmem : mo ∈ o.orders := by simp [hmo]
  exact ⟨mo, hmo, h.miner_eq mo hmem, h.verifyResult_eq mo hmem, h.verifyTs_eq mo hmem⟩

/-- An order that writes one miner order in place, keeping its miner, `verify_result` and
`verify_ts`, and keeps the order's miner, creation time and duration, stays well formed. -/
theorem Order.WellFormed.of_set {o o' : Order A} (h : o.WellFormed) {i : ℕ} {mo mo' : MinerOrder A}
    (horders : o'.orders = o.orders.set i mo') (hmo : o.orders[i]? = some mo)
    (hmoMiner : mo'.miner = mo.miner) (hmoResult : mo'.verifyResult = mo.verifyResult)
    (hmoTs : mo'.verifyTs = mo.verifyTs) (hminer : o'.miner = o.miner)
    (hcreate : o'.createTs = o.createTs) (hduration : o'.duration = o.duration) : o'.WellFormed := by
  have hmem : mo ∈ o.orders := List.mem_of_getElem? hmo
  -- a miner order of the new order is an old one or the one written
  have hcases : ∀ x ∈ o'.orders, x ∈ o.orders ∨ x = mo' := by
    rw [horders]
    exact fun x hx => List.mem_or_eq_of_mem_set hx
  constructor
  · rw [horders, List.length_set]
    exact h.length_orders
  · intro x hx
    rcases hcases x hx with hx | rfl
    · rw [hminer]
      exact h.miner_eq x hx
    · rw [hmoMiner, hminer]
      exact h.miner_eq mo hmem
  · intro x hx
    rcases hcases x hx with hx | rfl
    · exact h.verifyResult_eq x hx
    · rw [hmoResult]
      exact h.verifyResult_eq mo hmem
  · intro x hx
    rcases hcases x hx with hx | rfl
    · rw [hcreate]
      exact h.verifyTs_eq x hx
    · rw [hmoTs, hcreate]
      exact h.verifyTs_eq mo hmem
  · rw [hduration]
    exact h.duration_lt

/-- Every order in `Orders` is well formed. -/
def State.OrdersWellFormed (s : State A) : Prop := ∀ o ∈ s.orders, o.WellFormed

/-- Writing one order in place keeps the orders well formed when the new order is well formed
whenever the old one is. -/
theorem State.OrdersWellFormed.set {s : State A} (h : s.OrdersWellFormed) {i : ℕ} {o o' : Order A}
    (hi : s.orders[i]? = some o) (ho : o.WellFormed → o'.WellFormed) :
    ∀ x ∈ s.orders.set i o', x.WellFormed := by
  intro x hx
  rcases List.mem_or_eq_of_mem_set hx with hx | rfl
  · exact h x hx
  · exact ho (h o (List.mem_of_getElem? hi))

variable [DecidableEq A]

theorem findMinerOrder_getElem? (miner : A) {os : List (MinerOrder A)} {i : ℕ} {mo : MinerOrder A}
    (h : findMinerOrder miner os = some (i, mo)) : os[i]? = some mo := by
  induction os generalizing i with
  | nil => simp [findMinerOrder] at h
  | cons o os ih =>
    unfold findMinerOrder at h
    split_ifs at h with ho
    · simp only [Option.some.injEq, Prod.mk.injEq] at h
      obtain ⟨rfl, rfl⟩ := h
      rfl
    · obtain ⟨⟨j, mo'⟩, hj, hij⟩ := Option.map_eq_some_iff.mp h
      simp only [Prod.mk.injEq] at hij
      obtain ⟨rfl, rfl⟩ := hij
      exact ih hj

variable (c : Config) (w : World A)

/-- `create_order` either stores nothing or appends one well-formed order. -/
theorem createOrder_orders (user miner : A) (size : ℕ) (url : Option (List UInt8)) (days : ℕ) :
    (createOrder c w user miner size url days).state.ipse.orders = w.ipse.orders ∨
      ∃ o : Order A, o.WellFormed ∧
        (createOrder c w user miner size url days).state.ipse.orders = w.ipse.orders ++ [o] := by
  unfold createOrder
  split
  · exact Or.inl rfl
  · rename_i info _
    split_ifs
    · exact Or.inl rfl
    · exact Or.inl rfl
    · cases hres : (reserve c w user (wrappingMul Balances.balanceBits
          (wrappingMul Balances.balanceBits info.unitPrice size) days)).result with
      | error e =>
        left
        rw [Machine.Outcome.andThen_of_error hres, reserve_ipse]
      | ok u =>
        right
        rw [Machine.Outcome.andThen_of_ok hres]
        -- the miner order is stamped before the reservation and the order after it, at the
        -- same time
        refine ⟨?o, ?wf, ?stored⟩
        case stored =>
          simp only [Machine.Outcome.ok_state, World.setIpse_ipse, reserve_ipse]
          rfl
        case wf => exact ⟨rfl, by simp, by simp, by simp, Nat.mod_lt _ (Nat.two_pow_pos _)⟩

/-- `confirm_order` either writes nothing of the pallet or writes one order in place, keeping
its miner and size, well formed when the old one was. -/
theorem confirmOrder_ipse (miner : A) (orderId : ℕ) (url : List UInt8) :
    (confirmOrder c w miner orderId url).state.ipse = w.ipse ∨
      ∃ o o' : Order A, w.ipse.orders[orderId]? = some o ∧ (o.WellFormed → o'.WellFormed) ∧
        o'.slot = o.slot ∧
        (confirmOrder c w miner orderId url).state.ipse =
          { w.ipse with orders := w.ipse.orders.set orderId o' } := by
  unfold confirmOrder
  split
  · exact Or.inl rfl
  · split_ifs
    · exact Or.inl rfl
    · split
      · exact Or.inl rfl
      · next order horder =>
        split
        · exact Or.inl rfl
        · split
          · exact Or.inl rfl
          · split
            · exact Or.inl rfl
            · next i mo hfind =>
              right
              refine ⟨order, ?o', horder, fun h => ?wf, ?slot, ?stored⟩
              case stored =>
                simp only [reserve_ipse, World.setIpse_ipse]
                rfl
              case wf =>
                -- whether or not the status moves to `Confirmed`, only a stamp is written
                have hmo := findMinerOrder_getElem? miner hfind
                split_ifs
                · exact h.of_set rfl hmo rfl rfl rfl rfl rfl rfl
                · exact h.of_set rfl hmo rfl rfl rfl rfl rfl rfl
              case slot => split_ifs <;> rfl

/-- `delete_order` either writes nothing of the pallet or marks one order deleted at the
current time. -/
theorem deleteOrder_ipse (user : A) (orderId : ℕ) :
    (deleteOrder c w user orderId).state.ipse = w.ipse ∨
      ∃ o : Order A, w.ipse.orders[orderId]? = some o ∧
        (deleteOrder c w user orderId).state.ipse = { w.ipse with
          orders := w.ipse.orders.set orderId { o with status := .Deleted, updateTs := w.now } } := by
  unfold deleteOrder
  split
  · exact Or.inl rfl
  · next order horder =>
    split_ifs
    · exact Or.inl rfl
    · exact Or.inl rfl
    · exact Or.inl rfl
    · refine Or.inr ⟨order, horder, ?_⟩
      rw [Machine.Outcome.ok_state, unreserve_ipse, World.setIpse_ipse]

theorem registerMiner_orders (who : A) (url : List UInt8) (stashAddress : A) (capacity unitPrice : ℕ) :
    (registerMiner w who url stashAddress capacity unitPrice).state.ipse.orders = w.ipse.orders := by
  unfold registerMiner
  split_ifs <;> rfl

end WellFormed

section Reach

variable [DecidableEq A] (c : Config) {w : World A}

theorem dispatch_ordersWellFormed (h : w.ipse.OrdersWellFormed) (origin : Origin A) (call : Call A) :
    (dispatch c w origin call).state.ipse.OrdersWellFormed := by
  cases origin with
  | signed who =>
    cases call with
    | registerMiner url stashAddress capacity unitPrice =>
      simp only [dispatch, State.OrdersWellFormed, registerMiner_orders]
      exact h
    | createOrder miner size url days =>
      simp only [dispatch, State.OrdersWellFormed]
      rcases createOrder_orders c w who miner size url days with hst | ⟨o, ho, hst⟩
      · rw [hst]
        exact h
      · rw [hst]
        intro x hx
        rcases List.mem_append.mp hx with hx | hx
        · exact h x hx
        · rw [List.mem_singleton.mp hx]
          exact ho
    | confirmOrder orderId url =>
      simp only [dispatch, State.OrdersWellFormed]
      rcases confirmOrder_ipse c w who orderId url with hst | ⟨o, o', ho, hwf, -, hst⟩
      · rw [hst]
        exact h
      · rw [hst]
        exact h.set ho hwf
    | deleteOrder orderId =>
      simp only [dispatch, State.OrdersWellFormed]
      rcases deleteOrder_ipse c w who orderId with hst | ⟨o, ho, hst⟩
      · rw [hst]
        exact h
      · rw [hst]
        exact h.set ho fun hwf => hwf.of_fixed rfl
    | verifyStorage orderId =>
      simp only [dispatch, verifyStorage_state]
      exact h
    | applyToRecommendedList amount =>
      simp only [dispatch, State.OrdersWellFormed]
      rw [congrArg State.orders (applyToRecommendedList_ipse c w who amount)]
      exact h
    | dropOutRecommendedList =>
      simp only [dispatch, State.OrdersWellFormed]
      rw [congrArg State.orders (dropOutRecommendedList_ipse c w who)]
      exact h
  | root => exact h
  | none => exact h

theorem onFinalize_ordersWellFormed (h : w.ipse.OrdersWellFormed) :
    (onFinalize c w).ipse.OrdersWellFormed := by
  by_cases hblock : w.blockNumber % 20 = 0
  · -- every stored order is the loop's result on the order at its place
    intro x hx
    obtain ⟨i, hi⟩ := List.mem_iff_getElem?.mp hx
    rw [onFinalize_orders_getElem? c w hblock i] at hi
    obtain ⟨o, ho, rfl⟩ := Option.map_eq_some_iff.mp hi
    exact (h o (List.mem_of_getElem? ho)).of_fixed (payOrder_spec c w.now w o).2.1
  · rw [onFinalize_ipse_of_ne c w hblock]
    exact h

theorem step_ordersWellFormed (h : w.ipse.OrdersWellFormed) (e : Event A) :
    (step c w e).ipse.OrdersWellFormed := by
  cases e with
  | call origin call => exact dispatch_ordersWellFormed c h origin call
  | nextBlock dt => exact onFinalize_ordersWellFormed c h
  | external balances => exact h

/-- Every order the pallet stores is well formed, in every state it reaches. -/
theorem reachable_ordersWellFormed (balances : Balances.State A)
    (hw : (machine c balances).Reachable w) : w.ipse.OrdersWellFormed := by
  induction hw with
  | init => exact fun o ho => absurd ho List.not_mem_nil
  | step e _ ih => exact step_ordersWellFormed c ih e

end Reach

/-! ### Payment by time alone -/

section Payment

variable [DecidableEq A] (c : Config) (now : ℕ)

/-- The loop's work on a confirmed order with one miner order, of the order's miner and with
`verify_result` set, that has not expired and was last paid a day or more ago: the miner's
stash is paid the day price, and the payment recorded. -/
theorem payOrder_of_due (w : World A) {order : Order A} {mo : MinerOrder A}
    (hmo : order.orders = [mo]) (hminer : mo.miner = order.miner) (hresult : mo.verifyResult = true)
    (hconf : order.status = .Confirmed)
    (hlive : ¬wrappingAdd momentBits (wrappingAdd momentBits order.duration order.createTs) DAY < now)
    (hday : DAY ≤ wrappingSub momentBits now order.updateTs) {m : Miner A}
    (hm : w.ipse.miners order.miner = some m) :
    payOrder c now w order = (payDay c w order.user m.stashAddress mo, { order with updateTs := now }) := by
  -- the loop runs once, on the one miner order
  have hloop : payOrder c now w order = payMinerOrder c now order.createTs w order mo := by
    rw [payOrder, if_pos hconf, hmo, List.foldl_cons, List.foldl_nil]
  have hdue : (decide (DAY ≤ wrappingSub momentBits now order.updateTs) && mo.verifyResult) = true := by
    simp [hday, hresult]
  rw [hloop, payMinerOrder, if_neg hlive, if_pos hdue, hminer, hm]

/-- In every reachable state, at a paying block, a confirmed live order last paid a day or more
ago is paid its day price into the miner's stash, whatever `verify_storage` did: its one miner
order keeps the `verify_result` and `verify_ts` that `create_order` gave it. -/
theorem onFinalize_pays_on_time_alone {balances : Balances.State A} {w : World A}
    (hw : (machine c balances).Reachable w) (hblock : w.blockNumber % 20 = 0) {i : ℕ}
    {order : Order A} (ho : w.ipse.orders[i]? = some order) (hconf : order.status = .Confirmed)
    (hlive : ¬wrappingAdd momentBits (wrappingAdd momentBits order.duration order.createTs) DAY < w.now)
    (hday : DAY ≤ wrappingSub momentBits w.now order.updateTs) {m : Miner A}
    (hm : w.ipse.miners order.miner = some m) :
    ∃ mo, order.orders = [mo] ∧ mo.verifyResult = true ∧ mo.verifyTs = order.createTs ∧
      (∀ w' : World A, w'.ipse = w.ipse →
        payOrder c w.now w' order =
          (payDay c w' order.user m.stashAddress mo, { order with updateTs := w.now })) ∧
      (onFinalize c w).ipse.orders[i]? = some { order with updateTs := w.now } := by
  obtain ⟨mo, hmo, hminer, hresult, hts⟩ :=
    (reachable_ordersWellFormed c balances hw order (List.mem_of_getElem? ho)).exists_eq_singleton
  -- the loop reaches the order with the balances changed but the storage as it was
  have hpay : ∀ w' : World A, w'.ipse = w.ipse →
      payOrder c w.now w' order =
        (payDay c w' order.user m.stashAddress mo, { order with updateTs := w.now }) := fun w' hw' =>
    payOrder_of_due c w.now w' hmo hminer hresult hconf hlive hday (hw' ▸ hm)
  refine ⟨mo, hmo, hresult, hts, hpay, ?_⟩
  rw [onFinalize_orders_getElem? c w hblock i, ho, Option.map_some, hpay w rfl]

/-- Miner 3 registers with stash 4 and never calls `verify_storage`; user 2 buys two days of
1000 bytes at time 0. Two days later, at block 20, `on_finalize` pays the stash for a day,
on a verification two days old. -/
theorem onFinalize_pays_order_never_verified :
    let w := (machine runtimeConfig (⟨fun a => if a = 2 then some ⟨10 ^ 16, 0, 0, 0⟩
        else if a = 4 then some ⟨10 ^ 14, 0, 0, 0⟩ else none, fun _ => [], 10 ^ 16 + 10 ^ 14⟩ :
          Balances.State ℕ)).run
      ([.call (.signed 3) (.registerMiner [1] 4 (10 ^ 6) (10 ^ 9)),
        .call (.signed 2) (.createOrder 3 1000 none 2), .nextBlock (2 * DAY)] ++
        List.replicate 19 (.nextBlock 0))
    let order : Order ℕ :=
      ⟨3, 1000, 2, [⟨3, 10 ^ 12, 2 * 10 ^ 12, true, 0, 0, none⟩], .Confirmed, 0, 0, 2 * DAY⟩
    let m : Miner ℕ := ⟨3, [1], 4, 10 ^ 6 - 1000, 10 ^ 9, 0, 10 ^ 15, 0, 0⟩
    w.now = 2 * DAY ∧
      ∃ mo, order.orders = [mo] ∧ mo.verifyResult = true ∧ mo.verifyTs = order.createTs ∧
        (∀ w' : World ℕ, w'.ipse = w.ipse →
          payOrder runtimeConfig w.now w' order =
            (payDay runtimeConfig w' order.user m.stashAddress mo, { order with updateTs := w.now })) ∧
        (onFinalize runtimeConfig w).ipse.orders[0]? = some { order with updateTs := w.now } :=
  ⟨by decide +kernel, onFinalize_pays_on_time_alone runtimeConfig (Machine.reachable_run _ _)
    (by decide +kernel) (by decide +kernel) rfl (by decide +kernel) (by decide +kernel)
    (by decide +kernel)⟩

end Payment

/-! ### Refunds -/

section Refund

variable [DecidableEq A] (c : Config)

/-- `delete_order` by the user of a live order whose duration fits in a `Moment` stores it as
deleted now and refunds the day prices times the days from the new `update_ts` to the deadline,
which are all the days of the duration. -/
theorem deleteOrder_of_live (w : World A) {i : ℕ} {order : Order A}
    (ho : w.ipse.orders[i]? = some order) (hdel : order.status ≠ .Deleted)
    (hexp : order.status ≠ .Expired) (hdur : order.duration < 2 ^ momentBits) :
    deleteOrder c w order.user i =
      .ok (unreserve c
        (w.setIpse { w.ipse with
          orders := w.ipse.orders.set i { order with status := .Deleted, updateTs := w.now } })
        order.user
        (wrappingMul Balances.balanceBits
          (order.orders.foldl (fun r mo => wrappingAdd Balances.balanceBits r mo.dayPrice) 0)
          (order.duration / DAY))) := by
  unfold deleteOrder
  rw [ho]
  dsimp only
  rw [if_neg (fun h => h rfl), if_neg hdel, if_neg hexp]
  -- the deadline is counted from the `update_ts` just written, so the days left are the
  -- whole duration
  rw [wrappingSub_wrappingAdd _ hdur]

/-- `delete_order` by the user of a live order, among well-formed orders, is accepted and
refunds the day price of the order's one miner order for every day of its duration. -/
theorem deleteOrder_refunds_of_wellFormed {w : World A} (hwf : w.ipse.OrdersWellFormed) {i : ℕ}
    {order : Order A} (ho : w.ipse.orders[i]? = some order) (hdel : order.status ≠ .Deleted)
    (hexp : order.status ≠ .Expired) :
    ∃ mo, order.orders = [mo] ∧ (deleteOrder c w order.user i).result = .ok () ∧
      (deleteOrder c w order.user i).state.balances =
        (Balances.unreserve c.existentialDeposit w.balances order.user
          (wrappingMul Balances.balanceBits mo.dayPrice (order.duration / DAY))).2 := by
  have hwfo := hwf order (List.mem_of_getElem? ho)
  obtain ⟨mo, hmo, -, -, -⟩ := hwfo.exists_eq_singleton
  have hdelete := deleteOrder_of_live c w ho hdel hexp hwfo.duration_lt
  -- the sum of the day prices runs over the one miner order
  have hrefund : wrappingMul Balances.balanceBits
      (order.orders.foldl (fun r mo => wrappingAdd Balances.balanceBits r mo.dayPrice) 0)
      (order.duration / DAY) = wrappingMul Balances.balanceBits mo.dayPrice (order.duration / DAY) := by
    rw [hmo, List.foldl_cons, List.foldl_nil, wrappingMul_zero_wrappingAdd]
  refine ⟨mo, hmo, ?_, ?_⟩
  · rw [hdelete, Machine.Outcome.ok_result]
  · rw [hdelete, Machine.Outcome.ok_state, hrefund]
    rfl

/-- From every reachable state, `delete_order` by the user of a live order is accepted and
refunds the day price for every day of the order, the days already paid included. -/
theorem deleteOrder_refunds_every_day {balances : Balances.State A} {w : World A}
    (hw : (machine c balances).Reachable w) {i : ℕ} {order : Order A}
    (ho : w.ipse.orders[i]? = some order) (hdel : order.status ≠ .Deleted)
    (hexp : order.status ≠ .Expired) :
    ∃ mo, order.orders = [mo] ∧ (deleteOrder c w order.user i).result = .ok () ∧
      (deleteOrder c w order.user i).state.balances =
        (Balances.unreserve c.existentialDeposit w.balances order.user
          (wrappingMul Balances.balanceBits mo.dayPrice (order.duration / DAY))).2 :=
  deleteOrder_refunds_of_wellFormed c (reachable_ordersWellFormed c balances hw) ho hdel hexp

/-- User 2 buys two days from miner 3, and two more a day later; at block 20 the first day is
paid to stash 4. Deleting the first order still releases its whole price, 2 · 10¹², of the
3 · 10¹² left reserved. -/
theorem deleteOrder_refunds_paid_day :
    let w := (machine runtimeConfig (⟨fun a => if a = 2 then some ⟨10 ^ 16, 0, 0, 0⟩
        else if a = 4 then some ⟨10 ^ 14, 0, 0, 0⟩ else none, fun _ => [], 10 ^ 16 + 10 ^ 14⟩ :
          Balances.State ℕ)).run
      ([.call (.signed 3) (.registerMiner [1] 4 (10 ^ 6) (10 ^ 9)),
        .call (.signed 2) (.createOrder 3 1000 none 2), .nextBlock DAY,
        .call (.signed 2) (.createOrder 3 1000 none 2)] ++ List.replicate 20 (.nextBlock 0))
    let order : Order ℕ :=
      ⟨3, 1000, 2, [⟨3, 10 ^ 12, 2 * 10 ^ 12, true, 0, 0, none⟩], .Confirmed, 0, DAY, 2 * DAY⟩
    (Balances.accountOf w.balances 4).free = 10 ^ 14 + 10 ^ 12 ∧
      (Balances.accountOf w.balances 2).reserved = 3 * 10 ^ 12 ∧
      (Balances.accountOf (deleteOrder runtimeConfig w 2 0).state.balances 2).reserved = 10 ^ 12 ∧
      ∃ mo, order.orders = [mo] ∧ (deleteOrder runtimeConfig w order.user 0).result = .ok () ∧
        (deleteOrder runtimeConfig w order.user 0).state.balances =
          (Balances.unreserve runtimeConfig.existentialDeposit w.balances order.user
            (wrappingMul Balances.balanceBits mo.dayPrice (order.duration / DAY))).2 :=
  ⟨by decide +kernel, by decide +kernel, by decide +kernel,
    deleteOrder_refunds_every_day runtimeConfig (Machine.reachable_run _ _) (by decide +kernel)
      (by decide) (by decide)⟩

end Refund

/-! ### Capacity -/

section Capacity

variable [DecidableEq A] (c : Config)

/-- An accepted `create_order` appends a confirmed order of the user on the miner, and lowers
the miner's capacity, which was larger, by the size bought. -/
theorem createOrder_ipse_of_ok (w : World A) {user miner : A} {size : ℕ}
    {url : Option (List UInt8)} {days : ℕ} {info : Miner A} (hinfo : w.ipse.miners miner = some info)
    (hok : (createOrder c w user miner size url days).result = .ok ()) :
    ∃ o : Order A, o.user = user ∧ o.status = .Confirmed ∧ o.slot = (miner, size) ∧
      size < info.capacity ∧
      (createOrder c w user miner size url days).state.ipse.orders = w.ipse.orders ++ [o] ∧
      (createOrder c w user miner size url days).state.ipse.miners =
        Function.update w.ipse.miners miner (some { info with capacity := info.capacity - size }) := by
  unfold createOrder at hok ⊢
  simp only [hinfo] at hok ⊢
  split_ifs at hok ⊢ with hdays hcapacity
  · simp at hok
  · simp at hok
  · cases hres : (reserve c w user (wrappingMul Balances.balanceBits
        (wrappingMul Balances.balanceBits info.unitPrice size) days)).result with
    | error e =>
      -- a rejected reservation is the outcome of the whole call
      rw [Machine.Outcome.andThen_of_error hres] at hok
      rw [hok] at hres
      cases hres
    | ok u =>
      rw [Machine.Outcome.andThen_of_ok hres]
      refine ⟨?o, ?user, ?status, ?slot, Nat.lt_of_not_le hcapacity, ?orders, ?miners⟩
      case orders =>
        simp only [Machine.Outcome.ok_state, World.setIpse_ipse, reserve_ipse]
        rfl
      case user => rfl
      case status => rfl
      case slot => rfl
      case miners =>
        simp only [Machine.Outcome.ok_state, World.setIpse_ipse, reserve_ipse]
        rfl

/-- A rejected `create_order` writes nothing of the pallet: the reservation, the one step that
can fail after the checks, leaves it alone. -/
theorem createOrder_ipse_of_error (w : World A) {user miner : A} {size : ℕ}
    {url : Option (List UInt8)} {days : ℕ}
    (h : (createOrder c w user miner size url days).result ≠ .ok ()) :
    (createOrder c w user miner size url days).state.ipse = w.ipse := by
  unfold createOrder at h ⊢
  cases hinfo : w.ipse.miners miner with
  | none => rfl
  | some info =>
    simp only [hinfo] at h ⊢
    split_ifs at h ⊢
    · rfl
    · rfl
    · cases hres : (reserve c w user (wrappingMul Balances.balanceBits
          (wrappingMul Balances.balanceBits info.unitPrice size) days)).result with
      | error e => rw [Machine.Outcome.andThen_of_error hres, reserve_ipse]
      | ok u =>
        rw [Machine.Outcome.andThen_of_ok hres] at h
        exact absurd rfl h

/-- `register_miner` writes the record of its caller alone. -/
theorem registerMiner_miners_of_ne (w : World A) {who m : A} (hm : who ≠ m) (url : List UInt8)
    (stashAddress : A) (capacity unitPrice : ℕ) :
    (registerMiner w who url stashAddress capacity unitPrice).state.ipse.miners m =
      w.ipse.miners m := by
  unfold registerMiner
  split_ifs
  · rfl
  · rfl
  · exact Function.update_of_ne (Ne.symm hm) _ _

/-- An accepted `register_miner` gives its caller the capacity declared. -/
theorem registerMiner_capacity_of_ok (w : World A) {who : A} {url : List UInt8}
    {stashAddress : A} {capacity unitPrice : ℕ}
    (hok : (registerMiner w who url stashAddress capacity unitPrice).result = .ok ()) :
    ∃ info : Miner A,
      (registerMiner w who url stashAddress capacity unitPrice).state.ipse.miners who = some info ∧
        info.capacity = capacity := by
  unfold registerMiner at hok ⊢
  split_ifs at hok ⊢
  · simp at hok
  · simp at hok
  · exact ⟨_, Function.update_self _ _ _, rfl⟩

/-- `delete_order` by the user of a live order writes nothing of the pallet but the order. -/
theorem deleteOrder_ipse_of_live (w : World A) {i : ℕ} {order : Order A}
    (ho : w.ipse.orders[i]? = some order) (hdel : order.status ≠ .Deleted)
    (hexp : order.status ≠ .Expired) :
    (deleteOrder c w order.user i).state.ipse =
      { w.ipse with
        orders := w.ipse.orders.set i { order with status := .Deleted, updateTs := w.now } } := by
  unfold deleteOrder
  rw [ho]
  dsimp only
  rw [if_neg (fun h => h rfl), if_neg hdel, if_neg hexp, Machine.Outcome.ok_state, unreserve_ipse,
    World.setIpse_ipse]

/-- Blocks never change `Miners`, whatever orders expire in them. -/
theorem nextBlocks_miners (w : World A) (dts : List ℕ) :
    ((dts.map Event.nextBlock).foldl (step c) w).ipse.miners = w.ipse.miners := by
  induction dts generalizing w with
  | nil => rfl
  | cons dt dts ih =>
    rw [List.map_cons, List.foldl_cons, ih]
    exact onFinalize_miners c w

/-- From any state, an order accepted on a registered miner and deleted at once leaves the
miner's capacity less the size bought, after any number of blocks: neither `delete_order` nor
the expiry in `on_finalize` writes `Miners`. -/
theorem capacity_not_returned (w : World A) (user miner : A) (size : ℕ)
    (url : Option (List UInt8)) (days : ℕ) {info : Miner A} (hinfo : w.ipse.miners miner = some info)
    (hok : (createOrder c w user miner size url days).result = .ok ()) :
    let w₁ := (createOrder c w user miner size url days).state
    let w₂ := (deleteOrder c w₁ user w.ipse.orders.length).state
    (w₂.ipse.orders[w.ipse.orders.length]?).map Order.status = some .Deleted ∧
      ∀ dts : List ℕ, (((dts.map Event.nextBlock).foldl (step c) w₂).ipse.miners miner).map
        Miner.capacity = some (info.capacity - size) := by
  intro w₁ w₂
  obtain ⟨o, huser, hstatus, -, -, horders, hminers⟩ := createOrder_ipse_of_ok c w hinfo hok
  have hlen : w.ipse.orders.length < w₁.ipse.orders.length := by
    simp [w₁, horders]
  have ho : w₁.ipse.orders[w.ipse.orders.length]? = some o := by
    simp only [w₁, horders]
    exact List.getElem?_concat_length
  have hlive : o.status ≠ .Deleted ∧ o.status ≠ .Expired := by
    rw [hstatus]
    exact ⟨by decide, by decide⟩
  -- the user's call finds the order just appended
  have hw₂ : w₂.ipse = { w₁.ipse with
      orders := w₁.ipse.orders.set w.ipse.orders.length
        { o with status := .Deleted, updateTs := w₁.now } } := by
    simp only [w₂]
    rw [← huser]
    exact deleteOrder_ipse_of_live c w₁ ho hlive.1 hlive.2
  refine ⟨?_, fun dts => ?_⟩
  · rw [hw₂]
    simp only [List.getElem?_set_self hlen, Option.map_some]
  · rw [nextBlocks_miners, hw₂]
    simp [w₁, hminers]

/-- Miner 3 registers 10⁶ bytes; user 2 buys 1000 of them for two days and deletes the order at
once. No order of miner 3 is live any more, yet its capacity stays 10⁶ - 1000, also after any
number of blocks. -/
theorem capacity_not_returned_after_delete :
    let w := (machine runtimeConfig (⟨fun a => if a = 2 then some ⟨10 ^ 16, 0, 0, 0⟩ else none,
        fun _ => [], 10 ^ 16⟩ : Balances.State ℕ)).run
      [.call (.signed 3) (.registerMiner [1] 4 (10 ^ 6) (10 ^ 9))]
    let w₁ := (createOrder runtimeConfig w 2 3 1000 none 2).state
    let w₂ := (deleteOrder runtimeConfig w₁ 2 w.ipse.orders.length).state
    (w₂.ipse.orders[w.ipse.orders.length]?).map Order.status = some .Deleted ∧
      ∀ dts : List ℕ, (((dts.map Event.nextBlock).foldl (step runtimeConfig) w₂).ipse.miners 3).map
        Miner.capacity = some (10 ^ 6 - 1000) :=
  @capacity_not_returned ℕ _ runtimeConfig _ 2 3 1000 none 2 ⟨3, [1], 4, 10 ^ 6, 10 ^ 9, 0, 10 ^ 15, 0, 0⟩
    (by decide +kernel) (by decide +kernel)

/-! #### Capacity spent for good -/

/-- The bytes the orders of `os` bought on miner `m`, whatever became of the orders. -/
def sizeOn (m : A) (os : List (Order A)) : ℕ := ((os.filter fun o => o.miner = m).map Order.size).sum

theorem sizeOn_cons (m : A) (o : Order A) (os : List (Order A)) :
    sizeOn m (o :: os) = (if o.miner = m then o.size else 0) + sizeOn m os := by
  by_cases h : o.miner = m <;> simp [sizeOn, h]

theorem sizeOn_append (m : A) (os os' : List (Order A)) :
    sizeOn m (os ++ os') = sizeOn m os + sizeOn m os' := by
  simp [sizeOn, List.filter_append]

/-- The bytes bought on a miner read the miners and sizes of the orders alone. -/
theorem sizeOn_congr (m : A) {os os' : List (Order A)}
    (h : os.map Order.slot = os'.map Order.slot) : sizeOn m os = sizeOn m os' := by
  induction os generalizing os' with
  | nil =>
    rw [List.map_nil, eq_comm, List.map_eq_nil_iff] at h
    rw [h]
  | cons o os ih =>
    cases os' with
    | nil => exact absurd h (by simp)
    | cons o' os' =>
      rw [List.map_cons, List.map_cons, List.cons.injEq] at h
      obtain ⟨hslot, hrest⟩ := h
      have hminer : o.miner = o'.miner := congrArg Prod.fst hslot
      have hsize : o.size = o'.size := congrArg Prod.snd hslot
      rw [sizeOn_cons, sizeOn_cons, hminer, hsize, ih hrest]

omit [DecidableEq A] in
/-- Writing an order in place with the same miner and size keeps the slots of the orders. -/
theorem map_slot_set {os : List (Order A)} {i : ℕ} {o o' : Order A} (hi : os[i]? = some o)
    (h : o'.slot = o.slot) : (os.set i o').map Order.slot = os.map Order.slot := by
  obtain ⟨hlt, rfl⟩ := List.getElem?_eq_some_iff.mp hi
  apply List.ext_getElem?
  intro j
  by_cases hij : i = j
  · subst hij
    simp [h, hlt]
  · simp [hij]

/-- From `v` to `v'`, miner `m` keeps its record, and what it has left plus what the orders
appended since bought on it is what it had at `v`; the orders of `v` keep their miners and
sizes. -/
def CapacityKept (m : A) (v v' : World A) : Prop :=
  ∀ info, v.ipse.miners m = some info → ∃ info' added, v'.ipse.miners m = some info' ∧
    v'.ipse.orders.map Order.slot = (v.ipse.orders ++ added).map Order.slot ∧
    info'.capacity + sizeOn m added = info.capacity

namespace CapacityKept

variable {m : A} {u v v' : World A}

theorem of_frame (hminers : v'.ipse.miners m = v.ipse.miners m)
    (hslots : v'.ipse.orders.map Order.slot = v.ipse.orders.map Order.slot) :
    CapacityKept m v v' :=
  fun info hinfo => ⟨info, [], by rw [hminers, hinfo], by rw [hslots, List.append_nil], by simp [sizeOn]⟩

theorem of_ipse (h : v'.ipse = v.ipse) : CapacityKept m v v' :=
  of_frame (by rw [h]) (by rw [h])

/-- Writing one order in place with the same miner and size. -/
theorem of_set {i : ℕ} {o o' : Order A} (hi : v.ipse.orders[i]? = some o)
    (hslot : o'.slot = o.slot) (h : v'.ipse = { v.ipse with orders := v.ipse.orders.set i o' }) :
    CapacityKept m v v' :=
  of_frame (by rw [h]) (by rw [h]; exact map_slot_set hi hslot)

theorem trans (h₁ : CapacityKept m u v) (h₂ : CapacityKept m v v') : CapacityKept m u v' := by
  intro info hinfo
  obtain ⟨info₁, added₁, hminers₁, hslots₁, hcap₁⟩ := h₁ info hinfo
  obtain ⟨info₂, added₂, hminers₂, hslots₂, hcap₂⟩ := h₂ info₁ hminers₁
  refine ⟨info₂, added₁ ++ added₂, hminers₂, ?_, ?_⟩
  · rw [hslots₂, List.map_append, hslots₁, ← List.map_append, List.append_assoc]
  · rw [sizeOn_append]
    omega

end CapacityKept

/-- An accepted `create_order` takes the size it appends from its miner's capacity, and a
rejected one writes nothing. -/
theorem createOrder_capacityKept (w : World A) (m user miner : A) (size : ℕ)
    (url : Option (List UInt8)) (days : ℕ) :
    CapacityKept m w (createOrder c w user miner size url days).state := by
  by_cases hok : (createOrder c w user miner size url days).result = .ok ()
  · intro info hinfo
    -- an accepted order names a registered miner
    cases hminer : w.ipse.miners miner with
    | none => simp [createOrder, hminer] at hok
    | some info₀ =>
      obtain ⟨o, -, -, hslot, hlt, horders, hminers⟩ := createOrder_ipse_of_ok c w hminer hok
      have hsize : sizeOn m [o] = if miner = m then size else 0 := by
        have hminer' : o.miner = miner := congrArg Prod.fst hslot
        have hsize' : o.size = size := congrArg Prod.snd hslot
        rw [sizeOn_cons, hminer', hsize']
        simp [sizeOn]
      by_cases hm : miner = m
      · subst hm
        rw [hminer, Option.some.injEq] at hinfo
        subst hinfo
        refine ⟨_, [o], by rw [hminers, Function.update_self], by rw [horders], ?_⟩
        rw [hsize, if_pos rfl]
        dsimp only
        omega
      · refine ⟨info, [o], ?_, by rw [horders], by rw [hsize, if_neg hm, add_zero]⟩
        rw [hminers, Function.update_of_ne (Ne.symm hm), hinfo]
  · exact CapacityKept.of_ipse (createOrder_ipse_of_error c w hok)

/-- `on_finalize` keeps the miner and size of every order. -/
theorem onFinalize_slots (w : World A) :
    (onFinalize c w).ipse.orders.map Order.slot = w.ipse.orders.map Order.slot := by
  by_cases hblock : w.blockNumber % 20 = 0
  · apply List.ext_getElem?
    intro i
    rw [List.getElem?_map, List.getElem?_map, onFinalize_orders_getElem? c w hblock i,
      Option.map_map]
    congr 1
    funext o
    exact Order.slot_eq_of_fixed (payOrder_spec c w.now w o).2.1
  · rw [onFinalize_ipse_of_ne c w hblock]

/-- Every event but a `register_miner` of `m` itself keeps `m`'s capacity accounted for: only
`create_order` lowers it, by what the order it appends bought. -/
theorem step_capacityKept (w : World A) {m : A} (e : Event A)
    (hreg : ∀ url stash capacity unitPrice,
      e ≠ .call (.signed m) (.registerMiner url stash capacity unitPrice)) :
    CapacityKept m w (step c w e) := by
  cases e with
  | call origin call =>
    cases origin with
    | signed who =>
      cases call with
      | registerMiner url stashAddress capacity unitPrice =>
        -- another account's registration writes its own record
        have hwho : who ≠ m := fun h => hreg url stashAddress capacity unitPrice (by rw [h])
        exact CapacityKept.of_frame (registerMiner_miners_of_ne w hwho _ _ _ _)
          (by rw [step, dispatch, registerMiner_orders])
      | createOrder miner size url days => exact createOrder_capacityKept c w m who miner size url days
      | confirmOrder orderId url =>
        rcases confirmOrder_ipse c w who orderId url with hst | ⟨o, o', ho, -, hslot, hst⟩
        · exact CapacityKept.of_ipse hst
        · exact CapacityKept.of_set ho hslot hst
      | deleteOrder orderId =>
        rcases deleteOrder_ipse c w who orderId with hst | ⟨o, ho, hst⟩
        · exact CapacityKept.of_ipse hst
        · exact CapacityKept.of_set ho (by rfl) hst
      | verifyStorage orderId => exact CapacityKept.of_ipse (by simp only [step, dispatch, verifyStorage_state])
      | applyToRecommendedList amount =>
        have hst := applyToRecommendedList_ipse c w who amount
        exact CapacityKept.of_frame (congrFun (congrArg State.miners hst) m)
          (congrArg (fun s => s.orders.map Order.slot) hst)
      | dropOutRecommendedList =>
        have hst := dropOutRecommendedList_ipse c w who
        exact CapacityKept.of_frame (congrFun (congrArg State.miners hst) m)
          (congrArg (fun s => s.orders.map Order.slot) hst)
    | root => exact CapacityKept.of_ipse rfl
    | none => exact CapacityKept.of_ipse rfl
  | nextBlock dt => exact CapacityKept.of_frame (onFinalize_miners c w ▸ rfl) (onFinalize_slots c w)
  | external balances => exact CapacityKept.of_ipse rfl

/-- Along events none of which is a `register_miner` of `m`, `m`'s capacity stays accounted
for. -/
theorem foldl_capacityKept {m : A} (es : List (Event A))
    (hno : ∀ e ∈ es, ∀ url stash capacity unitPrice,
      e ≠ .call (.signed m) (.registerMiner url stash capacity unitPrice)) (w : World A) :
    CapacityKept m w (es.foldl (step c) w) := by
  induction es generalizing w with
  | nil => exact CapacityKept.of_ipse rfl
  | cons e es ih =>
    rw [List.foldl_cons]
    exact (step_capacityKept c w e (hno e List.mem_cons_self)).trans
      (ih (fun e' he' => hno e' (List.mem_cons_of_mem e he')) _)

/-- After `m` registers `capacity`, and until it registers again, its capacity plus the sizes
of all the orders made on it since, deleted and expired ones included, is `capacity`. -/
theorem capacity_plus_ordered_eq_registered (w : World A) (m : A) (url : List UInt8)
    (stashAddress : A) (capacity unitPrice : ℕ)
    (hreg : (registerMiner w m url stashAddress capacity unitPrice).result = .ok ())
    (es : List (Event A))
    (hno : ∀ e ∈ es, ∀ url stash capacity unitPrice,
      e ≠ .call (.signed m) (.registerMiner url stash capacity unitPrice)) :
    let w₁ := step c w (.call (.signed m) (.registerMiner url stashAddress capacity unitPrice))
    let w₂ := es.foldl (step c) w₁
    ∃ info, w₂.ipse.miners m = some info ∧
      info.capacity + sizeOn m (w₂.ipse.orders.drop w₁.ipse.orders.length) = capacity := by
  intro w₁ w₂
  obtain ⟨info₁, hinfo₁, hcap₁⟩ := registerMiner_capacity_of_ok w hreg
  obtain ⟨info, added, hinfo, hslots, hcap⟩ := foldl_capacityKept c es hno w₁ info₁ hinfo₁
  -- the orders after the registration's are the ones appended since
  have hdrop : (w₂.ipse.orders.drop w₁.ipse.orders.length).map Order.slot =
      added.map Order.slot := by
    rw [List.map_drop, hslots, List.map_append, List.drop_left' (List.length_map _)]
  refine ⟨info, hinfo, ?_⟩
  rw [sizeOn_congr m hdrop, hcap, ← hcap₁]

/-- Miner 3 registers 10⁶ bytes; user 2 buys 1000 of them for two days, deletes the order at
once, and a block passes: the deleted order still counts against the capacity. -/
theorem capacity_plus_ordered_after_delete :
    let w : World ℕ := (machine runtimeConfig (⟨fun a => if a = 2 then some ⟨10 ^ 16, 0, 0, 0⟩
        else none, fun _ => [], 10 ^ 16⟩ : Balances.State ℕ)).init
    let es : List (Event ℕ) := [.call (.signed 2) (.createOrder 3 1000 none 2),
      .call (.signed 2) (.deleteOrder 0), .nextBlock 6000]
    (registerMiner w 3 [1] 4 (10 ^ 6) (10 ^ 9)).result = .ok () ∧
      let w₁ := step runtimeConfig w (.call (.signed 3) (.registerMiner [1] 4 (10 ^ 6) (10 ^ 9)))
      let w₂ := es.foldl (step runtimeConfig) w₁
      ∃ info, w₂.ipse.miners 3 = some info ∧
        info.capacity + sizeOn 3 (w₂.ipse.orders.drop w₁.ipse.orders.length) = 10 ^ 6 := by
  intro w es
  have hreg : (registerMiner w 3 [1] 4 (10 ^ 6) (10 ^ 9)).result = .ok () := by decide +kernel
  exact ⟨hreg, capacity_plus_ordered_eq_registered runtimeConfig w 3 [1] 4 (10 ^ 6) (10 ^ 9) hreg es
    (by simp [es])⟩

end Capacity

/-! ### Rejected confirmations -/

section Confirm

variable [DecidableEq A] (c : Config) (w : World A)

/-- A rejected reservation is an error of Balances. -/
theorem reserve_error_balances {who : A} {value : ℕ} {e : Error}
    (h : (reserve c w who value).result = .error e) : ∃ b, e = .Balances b := by
  unfold reserve at h
  dsimp only at h
  split at h
  · simp at h
  · next b _ =>
    simp only [Machine.Outcome.error_result, Except.error.injEq] at h
    exact ⟨b, h.symm⟩

/-- What `confirm_order` can do: reject the call before `Orders::mutate` without writing
anything, or stamp the miner's part of the order, confirm a created order, store it, and
return whatever the user's reservation returns. -/
theorem confirmOrder_cases (miner : A) (orderId : ℕ) (url : List UInt8) :
    (∃ e, confirmOrder c w miner orderId url = .error e w) ∨
      ∃ order i mo, w.ipse.orders[orderId]? = some order ∧
        findMinerOrder miner order.orders = some (i, mo) ∧
        let orders := order.orders.set i { mo with confirmTs := w.now, url := some url }
        let order' := if order.status = .Created then
            { order with orders := orders, status := .Confirmed, updateTs := w.now }
          else { order with orders := orders }
        confirmOrder c w miner orderId url =
          reserve c (w.setIpse { w.ipse with orders := w.ipse.orders.set orderId order' })
            order.user mo.totalPrice := by
  unfold confirmOrder
  split
  · exact .inl ⟨_, rfl⟩
  next minerInfo _ =>
  by_cases hstake : minerInfo.totalStaking = 0
  · exact .inl ⟨_, by rw [if_pos hstake]⟩
  rw [if_neg hstake]
  split
  · exact .inl ⟨_, rfl⟩
  next order horder =>
  by_cases hdel : order.status = .Deleted
  · exact .inl ⟨_, by rw [if_pos hdel]⟩
  by_cases hexp : order.status = .Expired
  · exact .inl ⟨_, by rw [if_neg hdel, if_pos hexp]⟩
  rw [if_neg hdel, if_neg hexp]
  split
  · exact .inl ⟨_, rfl⟩
  next i mo hfind => exact .inr ⟨order, i, mo, horder, hfind, rfl⟩

/-- A rejected `confirm_order` leaves the world as it was, but for one rejection: when the
user's funds cannot be reserved, `Orders::mutate` has already stamped the miner's part of the
order, and confirmed a created order, and it stores them with the error. -/
theorem confirmOrder_error_stamps {miner : A} {orderId : ℕ} {url : List UInt8} {e : Error}
    (h : (confirmOrder c w miner orderId url).result = .error e) :
    (confirmOrder c w miner orderId url).state = w ∨
      ∃ order i mo b, w.ipse.orders[orderId]? = some order ∧
        findMinerOrder miner order.orders = some (i, mo) ∧ e = .Balances b ∧
        let orders := order.orders.set i { mo with confirmTs := w.now, url := some url }
        let order' := if order.status = .Created then
            { order with orders := orders, status := .Confirmed, updateTs := w.now }
          else { order with orders := orders }
        (confirmOrder c w miner orderId url).state.ipse.orders = w.ipse.orders.set orderId order' := by
  rcases confirmOrder_cases c w miner orderId url with ⟨e', hrej⟩ | ⟨order, i, mo, horder, hfind, hres⟩
  · left
    rw [hrej]
    rfl
  · right
    rw [hres] at h ⊢
    obtain ⟨b, rfl⟩ := reserve_error_balances c _ h
    exact ⟨order, i, mo, b, horder, hfind, rfl, by rw [reserve_ipse]; rfl⟩

/-- User 2, holding 3·10¹⁴, buys 1000 bytes for 200 days from miner 3, which reserves 2·10¹⁴;
the confirmation's second reservation of 2·10¹⁴ fails, yet the order is stored stamped with the
miner's url and confirmation time. -/
theorem confirmOrder_error_stamps_when_unfunded :
    let w := (machine runtimeConfig (⟨fun a => if a = 2 then some ⟨3 * 10 ^ 14, 0, 0, 0⟩ else none,
        fun _ => [], 3 * 10 ^ 14⟩ : Balances.State ℕ)).run
      [.call (.signed 3) (.registerMiner [1] 4 (10 ^ 6) (10 ^ 9)),
        .call (.signed 2) (.createOrder 3 1000 none 200), .nextBlock 5]
    ((confirmOrder runtimeConfig w 3 0 [7]).result = .error (.Balances .InsufficientBalance) ∧
      (confirmOrder runtimeConfig w 3 0 [7]).state.ipse.orders ≠ w.ipse.orders) ∧
    ((confirmOrder runtimeConfig w 3 0 [7]).state = w ∨
      ∃ order i mo b, w.ipse.orders[0]? = some order ∧
        findMinerOrder 3 order.orders = some (i, mo) ∧
        Error.Balances .InsufficientBalance = .Balances b ∧
        let orders := order.orders.set i { mo with confirmTs := w.now, url := some [7] }
        let order' := if order.status = .Created then
            { order with orders := orders, status := .Confirmed, updateTs := w.now }
          else { order with orders := orders }
        (confirmOrder runtimeConfig w 3 0 [7]).state.ipse.orders = w.ipse.orders.set 0 order') :=
  ⟨by decide +kernel, confirmOrder_error_stamps runtimeConfig _ (by decide +kernel)⟩

end Confirm

/-! ### Ipse sets no lock

Ipse moves funds through `reserve`, `unreserve` and `repatriate_reserved` only, and none of them
touches a lock. So the locks of Balances are the same after every call and every `on_finalize`
of the pallet, which the runtime needs for the ledgers of PocStaking's lock.
-/

section Funds

/-! ### What the calls do to the balances

Ipse reaches Balances through `ReservableCurrency` alone: it reserves the price of an order and
a miner's bid, releases them, and pays the miners out of the users' reserves by
`repatriate_reserved`. Every call and the hook move the balances by `Balances.Reserves`, so Ipse
never mints and never changes a lock. -/

variable [DecidableEq A] (c : Config) (w : World A)

theorem reserve_reserves (who : A) (value : ℕ) :
    Balances.Reserves w.balances (reserve c w who value).state.balances := by
  have hop := Balances.Reserves.single (.reserve c.existentialDeposit w.balances who value)
  unfold reserve
  dsimp only
  -- accepted or not, the call leaves Balances' state after the reservation
  split <;> exact hop

theorem unreserve_reserves (who : A) (value : ℕ) :
    Balances.Reserves w.balances (unreserve c w who value).balances :=
  Balances.Reserves.single (.unreserve _ _ _ _)

theorem foldl_unreserve_reserves (l : List (A × ℕ)) (w : World A) :
    Balances.Reserves w.balances (l.foldl (fun w i => unreserve c w i.1 i.2) w).balances := by
  induction l generalizing w with
  | nil => exact Balances.Reserves.refl _
  | cons i l ih => exact (unreserve_reserves c w i.1 i.2).trans (ih _)

theorem sortAfter_reserves (miner : A) (amount index : ℕ) (oldList : List (A × ℕ)) :
    Balances.Reserves w.balances (sortAfter c w miner amount index oldList).state.balances := by
  unfold sortAfter
  refine Machine.Outcome.andThen_state_of
    (P := fun w' : World A => Balances.Reserves w.balances w'.balances)
    (reserve_reserves c w miner amount) ?_
  -- the cut unreserves, and storing the list writes the pallet only
  dsimp only
  split_ifs
  · exact (reserve_reserves c w miner amount).trans (foldl_unreserve_reserves c _ _)
  · exact reserve_reserves c w miner amount

theorem sortAccountByAmount_reserves (miner : A) (amount : ℕ) :
    Balances.Reserves w.balances (sortAccountByAmount c w miner amount).state.balances := by
  unfold sortAccountByAmount
  split
  · exact sortAfter_reserves c w miner amount _ _
  · split_ifs
    · exact Balances.Reserves.refl _
    · exact (unreserve_reserves c w miner _).trans (sortAfter_reserves c _ miner _ _ _)

/-- A miner order in the loop of `on_finalize` pays at most a day, by `repatriate_reserved`. -/
theorem payMinerOrder_reserves (now createTs : ℕ) (w : World A) (order : Order A)
    (mo : MinerOrder A) :
    Balances.Reserves w.balances (payMinerOrder c now createTs w order mo).1.balances := by
  rw [payMinerOrder]
  split_ifs
  · exact Balances.Reserves.refl _
  · split
    · exact Balances.Reserves.single (.repatriateReserved _ _ _ _ _ _)
    · exact Balances.Reserves.refl _
  · exact Balances.Reserves.refl _

theorem payOrder_reserves (now : ℕ) (w : World A) (order : Order A) :
    Balances.Reserves w.balances (payOrder c now w order).1.balances := by
  rw [payOrder]
  split_ifs
  · -- the loop over the miner orders, the order carried along
    suffices h : ∀ (l : List (MinerOrder A)) (p : World A × Order A),
        Balances.Reserves p.1.balances
          (l.foldl (fun p mo => payMinerOrder c now order.createTs p.1 p.2 mo) p).1.balances
      from h order.orders (w, order)
    intro l
    induction l with
    | nil => exact fun _ => Balances.Reserves.refl _
    | cons mo l ih =>
      intro p
      rw [List.foldl_cons]
      exact (payMinerOrder_reserves c now _ p.1 p.2 mo).trans (ih _)
  · exact Balances.Reserves.refl _

theorem payOrders_reserves (now : ℕ) (w : World A) (orders : List (Order A)) :
    Balances.Reserves w.balances (payOrders c now w orders).1.balances := by
  induction orders generalizing w with
  | nil => exact Balances.Reserves.refl _
  | cons order orders ih =>
    simp only [payOrders]
    exact (payOrder_reserves c now w order).trans (ih _)

theorem onFinalize_reserves : Balances.Reserves w.balances (onFinalize c w).balances := by
  unfold onFinalize
  split_ifs
  · exact Balances.Reserves.refl _
  · exact payOrders_reserves c w.now w w.ipse.orders

theorem registerMiner_balances (who : A) (url : List UInt8) (stashAddress : A)
    (capacity unitPrice : ℕ) :
    (registerMiner w who url stashAddress capacity unitPrice).state.balances = w.balances := by
  unfold registerMiner
  dsimp only
  split_ifs <;> rfl

theorem createOrder_reserves (user miner : A) (size : ℕ) (url : Option (List UInt8))
    (days : ℕ) :
    Balances.Reserves w.balances (createOrder c w user miner size url days).state.balances := by
  unfold createOrder
  split
  · exact Balances.Reserves.refl _
  · split_ifs
    · exact Balances.Reserves.refl _
    · exact Balances.Reserves.refl _
    · -- the price is reserved, then the order stored
      exact Machine.Outcome.andThen_state_of
        (P := fun w' : World A => Balances.Reserves w.balances w'.balances)
        (reserve_reserves c w user _) (reserve_reserves c w user _)

/-- A reservation after a write to the pallet's storage, as `confirm_order` makes it. -/
theorem setIpse_reserve_reserves (s : State A) (who : A) (value : ℕ) :
    Balances.Reserves w.balances (reserve c (w.setIpse s) who value).state.balances :=
  reserve_reserves c (w.setIpse s) who value

theorem confirmOrder_reserves (miner : A) (orderId : ℕ) (url : List UInt8) :
    Balances.Reserves w.balances (confirmOrder c w miner orderId url).state.balances := by
  rcases confirmOrder_cases c w miner orderId url with ⟨e, hrej⟩ | ⟨_, _, _, _, _, hres⟩
  · rw [hrej]
    exact Balances.Reserves.refl _
  · rw [hres]
    exact setIpse_reserve_reserves c w _ _ _

theorem deleteOrder_reserves (user : A) (orderId : ℕ) :
    Balances.Reserves w.balances (deleteOrder c w user orderId).state.balances := by
  unfold deleteOrder
  split
  · exact Balances.Reserves.refl _
  · split_ifs
    · exact Balances.Reserves.refl _
    · exact Balances.Reserves.refl _
    · exact Balances.Reserves.refl _
    · exact unreserve_reserves c _ _ _

theorem applyToRecommendedList_reserves (miner : A) (amount : ℕ) :
    Balances.Reserves w.balances (applyToRecommendedList c w miner amount).state.balances := by
  unfold applyToRecommendedList
  split_ifs
  · exact Balances.Reserves.refl _
  · exact sortAccountByAmount_reserves c w miner amount

theorem dropOutRecommendedList_reserves (miner : A) :
    Balances.Reserves w.balances (dropOutRecommendedList c w miner).state.balances := by
  unfold dropOutRecommendedList
  split
  · exact Balances.Reserves.refl _
  · exact unreserve_reserves c w miner _

/-- Every call of Ipse moves the balances by `ReservableCurrency` alone. -/
theorem dispatch_reserves (origin : Origin A) (call : Call A) :
    Balances.Reserves w.balances (dispatch c w origin call).state.balances := by
  cases origin with
  | root => exact Balances.Reserves.refl _
  | none => exact Balances.Reserves.refl _
  | signed who =>
    cases call with
    | registerMiner url stashAddress capacity unitPrice =>
      exact .of_eq (registerMiner_balances w who url stashAddress capacity unitPrice)
    | createOrder miner size url days => exact createOrder_reserves c w who miner size url days
    | confirmOrder orderId url => exact confirmOrder_reserves c w who orderId url
    | deleteOrder orderId => exact deleteOrder_reserves c w who orderId
    | verifyStorage orderId =>
      exact .of_eq (congrArg World.balances (verifyStorage_state w who orderId))
    | applyToRecommendedList amount => exact applyToRecommendedList_reserves c w who amount
    | dropOutRecommendedList => exact dropOutRecommendedList_reserves c w who

/-- No call of Ipse changes a lock. -/
theorem dispatch_balances_locks (origin : Origin A) (call : Call A) :
    (dispatch c w origin call).state.balances.locks = w.balances.locks :=
  (dispatch_reserves c w origin call).locks_eq

theorem onFinalize_balances_locks : (onFinalize c w).balances.locks = w.balances.locks :=
  (onFinalize_reserves c w).locks_eq

end Funds

end IpseCore.Ipse
