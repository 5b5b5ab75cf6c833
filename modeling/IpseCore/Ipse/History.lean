import IpseCore.Ipse.Orders
import IpseCore.Library.BoundedLog

/-!
# The histories of Ipse

`create_order` records each order it makes in `ListOrder` and in the miner's `MinerHistory`,
and every payment of `on_finalize` goes to the miner's `History`. Both order histories are
meant to keep the last 500 orders; but `split_off` leaves the kept entries in the vector and
binds the cut-off ones to a shadowing local that is dropped, and at 500 entries the split is at
zero. The vector is emptied, and the 501st order starts the history again. `History` keeps
the last hundred payments and counts them all, modulo `u64`.
-/

namespace IpseCore.Ipse

open Unsigned

variable {A : Type}

/-- `append_or_replace_orders` empties `ListOrder` when it holds `NUM_LIST_ORDER_LEN` orders. -/
theorem appendOrReplaceOrders_eq (orders : List (Order A)) (order : Order A) :
    appendOrReplaceOrders orders order = BoundedLog.pushRestart NUM_LIST_ORDER_LEN orders order := by
  unfold appendOrReplaceOrders BoundedLog.pushRestart
  dsimp only
  split_ifs with hfull
  · rw [hfull]
    rfl
  · rfl

variable [DecidableEq A]

/-- `update_miner_history` empties `MinerHistory[miner]` when it holds `NUM_LIST_HISTORY_LEN`
orders. -/
theorem updateMinerHistory_minerHistory_self (s : State A) (miner : A) (order : Order A)
    (hlen : (s.minerHistory miner).length ≤ NUM_LIST_HISTORY_LEN) :
    (updateMinerHistory s miner order).minerHistory miner =
      BoundedLog.pushRestart NUM_LIST_HISTORY_LEN (s.minerHistory miner) order := by
  unfold updateMinerHistory BoundedLog.pushRestart
  simp only [Function.update_self]
  split_ifs with hfull hfull' hfull'
  · rw [hfull']
    rfl
  · omega
  · omega
  · rfl

theorem updateMinerHistory_minerHistory_of_ne (s : State A) {miner m : A} (order : Order A)
    (hm : m ≠ miner) : (updateMinerHistory s miner order).minerHistory m = s.minerHistory m := by
  simp [updateMinerHistory, Function.update_of_ne hm]

/-- `update_history` keeps the last hundred payments and counts them, wrapping in `u64`. -/
theorem updateHistory_history (s : State A) (n : ℕ) (miner : A) (amount : ℕ) :
    (updateHistory s n miner amount).history miner =
      some (match s.history miner with
        | some h => ⟨wrappingAdd 64 h.totalNum 1, (h.history ++ [(n, amount)]).rtake 100⟩
        | none => ⟨1, [(n, amount)]⟩) := by
  unfold updateHistory
  cases hh : s.history miner with
  | none => simp
  | some h =>
    simp only [Function.update_self, Option.some.injEq, MiningHistory.mk.injEq, true_and]
    split_ifs with hfull
    · rfl
    · rw [List.rtake, Nat.sub_eq_zero_of_le (by omega), List.drop_zero]

/-- After `j` payments to a miner without a history, `History` holds the last hundred and counts
all `j` of them, modulo `u64`. -/
theorem foldl_updateHistory (s : State A) (miner : A) (hnone : s.history miner = none)
    (payments : List (ℕ × ℕ)) (hpay : payments ≠ []) :
    (payments.foldl (fun s p => updateHistory s p.1 miner p.2) s).history miner =
      some ⟨payments.length % 2 ^ 64, payments.rtake 100⟩ := by
  induction payments using List.reverseRecOn with
  | nil => exact absurd rfl hpay
  | append_singleton payments p ih =>
    rw [List.foldl_append, List.foldl_cons, List.foldl_nil, updateHistory_history]
    rcases List.eq_nil_or_concat payments with rfl | hne
    · simp [hnone, List.rtake]
    · -- one more payment: the count moves on by one and the window slides
      have hne : payments ≠ [] := by
        obtain ⟨l, b, rfl⟩ := hne
        simp
      rw [ih hne]
      simp only [Option.some.injEq, MiningHistory.mk.injEq, List.length_append,
        List.length_singleton]
      refine ⟨?_, ?_⟩
      · rw [wrappingAdd, Nat.mod_add_mod]
      · rw [List.rtake_concat_succ, List.rtake_concat_succ, BoundedLog.rtake_rtake_of_le (by decide)]

variable (c : Config)

/-- `create_order` either writes no history and no order, or records one order of the miner in
`ListOrder`, in `MinerHistory` and at the end of `Orders`. -/
theorem createOrder_histories (w : World A) (user miner : A) (size : ℕ)
    (url : Option (List UInt8)) (days : ℕ) :
    let w' := (createOrder c w user miner size url days).state
    (w'.ipse.orders = w.ipse.orders ∧ w'.ipse.listOrder = w.ipse.listOrder ∧
        w'.ipse.minerHistory = w.ipse.minerHistory) ∨
      ∃ o : Order A, o.miner = miner ∧ w'.ipse.orders = w.ipse.orders ++ [o] ∧
        w'.ipse.listOrder = appendOrReplaceOrders w.ipse.listOrder o ∧
        w'.ipse.minerHistory = (updateMinerHistory w.ipse miner o).minerHistory := by
  intro w'
  unfold w' createOrder
  split
  · exact .inl ⟨rfl, rfl, rfl⟩
  · rename_i info _
    split_ifs
    · exact .inl ⟨rfl, rfl, rfl⟩
    · exact .inl ⟨rfl, rfl, rfl⟩
    · cases hres : (reserve c w user (wrappingMul Balances.balanceBits
          (wrappingMul Balances.balanceBits info.unitPrice size) days)).result with
      | error e =>
        left
        rw [Machine.Outcome.andThen_of_error hres, reserve_ipse]
        exact ⟨rfl, rfl, rfl⟩
      | ok u =>
        right
        rw [Machine.Outcome.andThen_of_ok hres]
        -- the three copies of the order are made from the same fields, after the reservation
        refine ⟨?o, ?miner, ?orders, ?listOrder, ?minerHistory⟩
        case orders =>
          simp only [Machine.Outcome.ok_state, World.setIpse_ipse, reserve_ipse]
          rfl
        case miner => rfl
        case listOrder =>
          simp only [Machine.Outcome.ok_state, World.setIpse_ipse, reserve_ipse]
          rfl
        case minerHistory =>
          simp only [Machine.Outcome.ok_state, World.setIpse_ipse, reserve_ipse]
          rfl

/-- What the order histories hold after a run of `create_order` calls: the orders made so far,
as the run appends them to `Orders`. -/
structure HistoriesHold (w₀ w : World A) (m : A) : Prop where
  orders_eq : ∃ made, w.ipse.orders = w₀.ipse.orders ++ made ∧
    w.ipse.listOrder = made.rtake ((made.length - 1) % NUM_LIST_ORDER_LEN + 1) ∧
    w.ipse.minerHistory m = (made.filter fun o => o.miner = m).rtake
      (((made.filter fun o => o.miner = m).length - 1) % NUM_LIST_HISTORY_LEN + 1)

/-- One more `create_order` keeps the histories the windows of the orders made. -/
theorem HistoriesHold.createOrder {w₀ w : World A} {m : A} (h : HistoriesHold w₀ w m)
    (user miner : A) (size : ℕ) (url : Option (List UInt8)) (days : ℕ) :
    HistoriesHold w₀ (createOrder c w user miner size url days).state m := by
  obtain ⟨made, horders, hlist, hmine⟩ := h.orders_eq
  rcases createOrder_histories c w user miner size url days with ⟨ho, hl, hmh⟩ | ⟨o, hminer, ho, hl, hmh⟩
  · exact ⟨made, ho.trans horders, hl.trans hlist, by rw [hmh]; exact hmine⟩
  · refine ⟨made ++ [o], by rw [ho, horders, List.append_assoc], ?_, ?_⟩
    · rw [hl, appendOrReplaceOrders_eq, hlist, BoundedLog.pushRestart_rtake (by decide),
        List.length_append, List.length_singleton, Nat.add_sub_cancel]
    · -- the order joins the history of its own miner only
      have hwin : ∀ xs : List (Order A), (xs.rtake ((xs.length - 1) % NUM_LIST_HISTORY_LEN + 1)).length ≤
          NUM_LIST_HISTORY_LEN := fun xs => by
        rw [BoundedLog.length_rtake]
        have := Nat.mod_lt (xs.length - 1) (show 0 < NUM_LIST_HISTORY_LEN by decide)
        omega
      rw [hmh]
      by_cases hm : m = miner
      · subst hm
        have hfilter : (made ++ [o]).filter (fun o => o.miner = m) =
            made.filter (fun o => o.miner = m) ++ [o] := by
          simp [hminer]
        rw [updateMinerHistory_minerHistory_self _ _ _ (by rw [hmine]; exact hwin _), hmine,
          BoundedLog.pushRestart_rtake (by decide), hfilter, List.length_append,
          List.length_singleton, Nat.add_sub_cancel]
      · have hfilter : (made ++ [o]).filter (fun o => o.miner = m) =
            made.filter (fun o => o.miner = m) := by
          simp [hminer, Ne.symm hm]
        rw [updateMinerHistory_minerHistory_of_ne _ _ hm, hmine, hfilter]

/-- From empty histories, `ListOrder` and `MinerHistory[m]` hold the last `(k - 1) % 500 + 1`
of the `k` orders made, in order, and start again from one after 500; `History` holds the last
`min j 100` of `j` payments and counts them all. -/
theorem order_histories_restart (w : World A) (m : A) (hlist : w.ipse.listOrder = [])
    (hm : w.ipse.minerHistory m = []) (es : List (Event A))
    (hes : ∀ e ∈ es, ∃ user miner size url days,
      e = .call (.signed user) (.createOrder miner size url days)) :
    let w' := es.foldl (step c) w
    let made := w'.ipse.orders.drop w.ipse.orders.length
    let mined := made.filter fun o => o.miner = m
    w'.ipse.listOrder = made.rtake ((made.length - 1) % NUM_LIST_ORDER_LEN + 1) ∧
      w'.ipse.minerHistory m = mined.rtake ((mined.length - 1) % NUM_LIST_HISTORY_LEN + 1) ∧
      ∀ (s : State A) (miner : A) (payments : List (ℕ × ℕ)), s.history miner = none →
        payments ≠ [] → (payments.foldl (fun s p => updateHistory s p.1 miner p.2) s).history miner =
          some ⟨payments.length % 2 ^ 64, payments.rtake 100⟩ := by
  intro w' made mined
  -- the run keeps the histories the windows of the orders it appended
  have hrun : HistoriesHold w (es.foldl (step c) w) m := by
    induction es using List.reverseRecOn with
    | nil => exact ⟨[], by simp, by simp [hlist], by simp [hm]⟩
    | append_singleton es e ih =>
      obtain ⟨user, miner, size, url, days, rfl⟩ := hes e (by simp)
      rw [List.foldl_append, List.foldl_cons, List.foldl_nil]
      exact (ih fun e he => hes e (by simp [he])).createOrder c user miner size url days
  obtain ⟨made', horders, hlist', hmine'⟩ := hrun.orders_eq
  have hmade : made = made' := by
    simp only [made, w', horders, List.drop_left]
  refine ⟨?_, ?_, fun s miner payments hnone hpay => foldl_updateHistory s miner hnone payments hpay⟩
  · rw [hmade]
    exact hlist'
  · simp only [mined, hmade]
    exact hmine'

/-- Miner 3 registers a million bytes at price zero, and user 2 buys one byte of it for a day
501 times. All 501 orders are made, but `ListOrder` and `MinerHistory[3]` hold the last one
only. -/
theorem order_histories_restart_at_501 :
    let w := (machine runtimeConfig (⟨fun _ => none, fun _ => [], 0⟩ : Balances.State ℕ)).run
      [.call (.signed 3) (.registerMiner [1] 4 (10 ^ 6) 0)]
    let es : List (Event ℕ) := List.replicate 501 (.call (.signed 2) (.createOrder 3 1 none 1))
    let w' := es.foldl (step runtimeConfig) w
    let made := w'.ipse.orders.drop w.ipse.orders.length
    let mined := made.filter fun o => o.miner = 3
    (w'.ipse.orders.length = 501 ∧ w'.ipse.listOrder.length = 1 ∧
      (w'.ipse.minerHistory 3).length = 1) ∧
    w'.ipse.listOrder = made.rtake ((made.length - 1) % NUM_LIST_ORDER_LEN + 1) ∧
      w'.ipse.minerHistory 3 = mined.rtake ((mined.length - 1) % NUM_LIST_HISTORY_LEN + 1) ∧
      ∀ (s : State ℕ) (miner : ℕ) (payments : List (ℕ × ℕ)), s.history miner = none →
        payments ≠ [] → (payments.foldl (fun s p => updateHistory s p.1 miner p.2) s).history miner =
          some ⟨payments.length % 2 ^ 64, payments.rtake 100⟩ :=
  ⟨by decide +kernel, order_histories_restart runtimeConfig _ 3 rfl rfl _ fun e he =>
    ⟨2, 3, 1, none, 1, List.eq_of_mem_replicate he⟩⟩

end IpseCore.Ipse
