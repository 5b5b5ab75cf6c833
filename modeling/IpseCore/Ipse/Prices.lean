import IpseCore.Ipse.Orders

/-!
# The prices of Ipse

`register_miner` and `create_order` multiply with the unchecked `*` of `u128` and `u64`, which
the runtime compiles to wrapping multiplication. What they store is each product reduced
modulo `2 ^ 128` or `2 ^ 64`: the total staking of a miner, and the day price, the total price
and the duration of an order. The total price reserved at creation is the reduced product of
the reduced day price and the days, and it is the days times the day price that `on_finalize`
charges only when that product fits in a `u128`.
-/

namespace IpseCore.Ipse

open Unsigned

variable {A : Type} [DecidableEq A] (c : Config)

@[simp] theorem reserve_balances (w : World A) (who : A) (value : ℕ) :
    (reserve c w who value).state.balances =
      (Balances.reserve c.existentialDeposit w.balances who value).state := by
  unfold reserve
  dsimp only
  split <;> rfl

/-- An accepted `create_order` reserved the total price and appended the order it built. -/
theorem createOrder_of_ok (w : World A) {user miner : A} {size : ℕ} {url : Option (List UInt8)}
    {days : ℕ} {info : Miner A} (hinfo : w.ipse.miners miner = some info)
    (hok : (createOrder c w user miner size url days).result = .ok ()) :
    let dayPrice := wrappingMul Balances.balanceBits info.unitPrice size
    let totalPrice := wrappingMul Balances.balanceBits dayPrice days
    (reserve c w user totalPrice).result = .ok () ∧
      (createOrder c w user miner size url days).state.balances =
        (reserve c w user totalPrice).state.balances ∧
      (createOrder c w user miner size url days).state.ipse.orders = w.ipse.orders ++
        [⟨miner, size, user, [⟨miner, dayPrice, totalPrice, true, w.now, w.now, url⟩], .Confirmed,
          w.now, w.now, wrappingMul momentBits days DAY⟩] := by
  unfold createOrder at hok ⊢
  simp only [hinfo] at hok ⊢
  split_ifs at hok ⊢
  · simp at hok
  · simp at hok
  · cases hres : (reserve c w user (wrappingMul Balances.balanceBits
        (wrappingMul Balances.balanceBits info.unitPrice size) days)).result with
    | error e =>
      -- a rejected reservation is the outcome of the whole call
      rw [Machine.Outcome.andThen_of_error hres, hres] at hok
      cases hok
    | ok u =>
      rw [Machine.Outcome.andThen_of_ok hres]
      refine ⟨rfl, rfl, ?_⟩
      simp only [Machine.Outcome.ok_state, World.setIpse_ipse, reserve_ipse, reserve_now]
      rfl

/-- An accepted `register_miner` stores the capacity times the unit price, reduced. -/
theorem registerMiner_totalStaking (w : World A) {who : A} {url : List UInt8} {stash : A}
    {capacity unitPrice : ℕ} (hok : (registerMiner w who url stash capacity unitPrice).result = .ok ()) :
    ((registerMiner w who url stash capacity unitPrice).state.ipse.miners who).map Miner.totalStaking =
      some (capacity * unitPrice % 2 ^ 128) := by
  unfold registerMiner at hok ⊢
  split_ifs at hok ⊢
  · simp at hok
  · simp at hok
  · simp [wrappingMul, Balances.balanceBits]

/-- What `register_miner` and `create_order` store of their four products: each is the product
reduced modulo `2 ^ 128` or `2 ^ 64`, and the reservation made at creation is of the reduced
total price, which is the days times the day price exactly when that product fits. -/
theorem prices_stored_wrapped (w : World A) :
    (∀ (who : A) (url : List UInt8) (stash : A) (capacity unitPrice : ℕ),
      (registerMiner w who url stash capacity unitPrice).result = .ok () →
      ((registerMiner w who url stash capacity unitPrice).state.ipse.miners who).map
        Miner.totalStaking = some (capacity * unitPrice % 2 ^ 128)) ∧
    ∀ (user miner : A) (size : ℕ) (url : Option (List UInt8)) (days : ℕ) (info : Miner A),
      w.ipse.miners miner = some info →
      (createOrder c w user miner size url days).result = .ok () →
      let dayPrice := info.unitPrice * size % 2 ^ 128
      let totalPrice := dayPrice * days % 2 ^ 128
      ∃ o : Order A, (createOrder c w user miner size url days).state.ipse.orders =
          w.ipse.orders ++ [o] ∧
        o.orders.map (fun mo => (mo.dayPrice, mo.totalPrice)) = [(dayPrice, totalPrice)] ∧
        o.duration = days * DAY % 2 ^ 64 ∧
        (createOrder c w user miner size url days).state.balances =
          (Balances.reserve c.existentialDeposit w.balances user totalPrice).state ∧
        (totalPrice = dayPrice * days ↔ dayPrice * days < 2 ^ 128) := by
  refine ⟨fun who url stash capacity unitPrice hok => registerMiner_totalStaking w hok,
    fun user miner size url days info hinfo hok => ?_⟩
  obtain ⟨-, hbal, horders⟩ := createOrder_of_ok c w hinfo hok
  refine ⟨_, horders, rfl, rfl, ?_, ?_⟩
  · rw [hbal, reserve_balances]
    rfl
  · -- a number is its own remainder exactly when it is below the modulus
    constructor
    · intro h
      rw [← h]
      exact Nat.mod_lt _ (Nat.two_pow_pos _)
    · exact Nat.mod_eq_of_lt

/-- Miner 3 registers a capacity of 3 at the unit price 2¹²⁷ and stores a total staking of
2¹²⁷. User 2, who holds nothing, buys one byte for two days: the day price is 2¹²⁷, the total
price 2¹²⁸ wraps to 0, so the reservation of 0 is accepted and the order is stored. -/
theorem prices_stored_wrapped_at_two_pow_127 :
    let w₀ := (machine runtimeConfig (⟨fun _ => none, fun _ => [], 0⟩ : Balances.State ℕ)).init
    let w := (registerMiner w₀ 3 [1] 4 3 (2 ^ 127)).state
    (((w.ipse.miners 3).map Miner.totalStaking = some (2 ^ 127) ∧
      ((createOrder runtimeConfig w 2 3 1 none 2).state.ipse.orders.map fun o =>
        o.orders.map fun mo => (mo.dayPrice, mo.totalPrice)) = [[(2 ^ 127, 0)]]) ∧
    (w.ipse.miners 3).map Miner.totalStaking = some (3 * 2 ^ 127 % 2 ^ 128)) ∧
    let dayPrice := 2 ^ 127 * 1 % 2 ^ 128
    let totalPrice := dayPrice * 2 % 2 ^ 128
    ∃ o : Order ℕ, (createOrder runtimeConfig w 2 3 1 none 2).state.ipse.orders =
        w.ipse.orders ++ [o] ∧
      o.orders.map (fun mo => (mo.dayPrice, mo.totalPrice)) = [(dayPrice, totalPrice)] ∧
      o.duration = 2 * DAY % 2 ^ 64 ∧
      (createOrder runtimeConfig w 2 3 1 none 2).state.balances =
        (Balances.reserve runtimeConfig.existentialDeposit w.balances 2 totalPrice).state ∧
      (totalPrice = dayPrice * 2 ↔ dayPrice * 2 < 2 ^ 128) :=
  ⟨⟨by decide, (prices_stored_wrapped runtimeConfig _).1 3 [1] 4 3 (2 ^ 127) (by decide)⟩,
    (prices_stored_wrapped runtimeConfig _).2 2 3 1 none 2 ⟨3, [1], 4, 3, 2 ^ 127, 0, 2 ^ 127, 0, 0⟩
      (by decide) (by decide)⟩

end IpseCore.Ipse
