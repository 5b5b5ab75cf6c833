import IpseCore.PocStaking.Registry
import IpseCore.Ipse.Orders
import IpseCore.Library.RankedList

/-!
# The recommended lists

PocStaking and Ipse each keep a recommended list of `(account, amount)` with the same code.
`sort_account_by_amount` takes a listed account out, giving back its amount, and bids the sum;
`sort_after` reserves the bid, inserts it after every entry of at least that amount, and cuts
the list to its bound (`RecommendMaxNumber` in PocStaking, twenty in Ipse), giving back the
amounts cut off. In PocStaking an index beyond the bound is not inserted, but the list is
stored before `AmountTooLow` is returned. Leaving the list takes the account out.

Both lists stay ranked by amount, list each account once and keep to their bound, whatever
the calls and whether they fail: `RankedList.Bounded`. PocStaking's list holds registered
miners only, since `request_up_to_list` checks `is_can_mining` and no call unregisters a
miner (`Registry.Moves.registered_of`).
-/

namespace IpseCore.PocStaking

open Unsigned

variable {A H : Type} [DecidableEq A]

omit [DecidableEq A] in
theorem sortIndex_eq (list : List (A × ℕ)) (amount : ℕ) :
    sortIndex list amount = RankedList.insertIndex Prod.snd list amount := rfl

omit [DecidableEq A] in
@[simp] theorem State.registry_registered (s : State A) (m : A) :
    s.registry.registered m = isRegister s m := rfl

/-! ### What leaves the list alone -/

section Frame

variable (c : Config) (w : World A H)

@[simp] theorem lockAddAmount_recommendList (who : A) (amount expire : ℕ) :
    (lockAddAmount c w who amount expire).staking.recommendList = w.staking.recommendList := by
  unfold lockAddAmount
  dsimp only
  split <;> simp

@[simp] theorem lockSubAmount_recommendList (who : A) :
    (lockSubAmount c w who).staking.recommendList = w.staking.recommendList := by
  unfold lockSubAmount
  split
  · rfl
  · simp only [World.setStaking_staking]
    rw [foldl_lock_staking]

@[simp] theorem storeStakerInfo_recommendList (miner : A) (info : StakingInfo A)
    (stakerInfo : A × ℕ × ℕ) (others : List (A × ℕ × ℕ)) (nowBond nowStaking : ℕ)
    (isSlash : Bool) :
    (storeStakerInfo c w miner info stakerInfo others nowBond nowStaking isSlash).staking.recommendList =
      w.staking.recommendList := by
  unfold storeStakerInfo
  dsimp only
  split_ifs <;> simp [stakerRemoveMiner]

@[simp] theorem updateStakingInfo_recommendList (miner staker : A) (operate : Operate)
    (amountOpt : Option ℕ) (isSlash : Bool) :
    (updateStakingInfo c w miner staker operate amountOpt isSlash).state.staking.recommendList =
      w.staking.recommendList := by
  unfold updateStakingInfo
  split_ifs
  · rfl
  split
  · rfl
  dsimp only
  split
  · rfl
  cases operate with
  | Add =>
    dsimp only
    split
    · split <;> simp
    · rfl
  | Sub =>
    dsimp only
    split
    · simp
    · rfl

theorem register_recommendList (miner : A) (plotSize numericId minerProportion : ℕ)
    (rewardDest : Option A) :
    (register w miner plotSize numericId minerProportion rewardDest).state.staking.recommendList =
      w.staking.recommendList := by
  by_cases hzero : plotSize = 0
  · simp only [register, hzero, if_true, Machine.Outcome.error_state]
  -- the plot in bytes is not evaluated: only which branch is taken matters
  cases hdisk : checkedMul gibBits plotSize GiB with
  | none => simp only [register, hzero, hdisk, if_false, Machine.Outcome.error_state]
  | some disk =>
    simp only [register, hzero, hdisk, if_false]
    split_ifs <;> simp

omit [DecidableEq A] in
@[simp] theorem updateChill_recommendList (s : State A) (now : ℕ) :
    (updateChill c s now).recommendList = s.recommendList := by
  unfold updateChill
  dsimp only
  split_ifs <;> rfl

theorem updateRewardDest_recommendList (miner dest : A) :
    (updateRewardDest w miner dest).state.staking.recommendList = w.staking.recommendList := by
  unfold updateRewardDest
  split_ifs <;> rfl

theorem updateNumericId_recommendList (miner : A) (numericId : ℕ) :
    (updateNumericId w miner numericId).state.staking.recommendList = w.staking.recommendList := by
  unfold updateNumericId
  dsimp only
  split_ifs
  · rfl
  · rfl
  · split <;> rfl

theorem updatePlotSize_recommendList (removeHistory : A → H → H) (miner : A) (plotSize : ℕ) :
    (updatePlotSize removeHistory w miner plotSize).state.staking.recommendList =
      w.staking.recommendList := by
  unfold updatePlotSize
  cases checkedMul gibBits plotSize GiB with
  | none => rfl
  | some disk =>
    simp only [Option.elim_some, setPlotSize]
    split_ifs
    · rfl
    · rfl
    · rfl
    · simp only [Machine.Outcome.ok_state, World.setStaking_staking, resizeDisk]
      split <;> rfl

theorem stopMining_recommendList (miner : A) :
    (stopMining w miner).state.staking.recommendList = w.staking.recommendList := by
  unfold stopMining
  split
  · rfl
  · dsimp only
    split <;> rfl

theorem restartMining_recommendList (removeHistory : A → H → H) (miner : A) :
    (restartMining removeHistory w miner).state.staking.recommendList = w.staking.recommendList := by
  unfold restartMining
  dsimp only
  split_ifs
  · rfl
  · split
    · rfl
    · split_ifs <;> rfl

/-- `remove_staker` and `exit_Staking`. -/
theorem leaveStaking_recommendList (miner staker : A) (isSlash : Bool) :
    ((updateStakingInfo c w miner staker .Sub none isSlash).andThen fun w =>
      .ok (w.setStaking (stakerRemoveMiner w.staking staker miner))).state.staking.recommendList =
      w.staking.recommendList :=
  Machine.Outcome.andThen_state_of
    (P := fun w' : World A H => w'.staking.recommendList = w.staking.recommendList)
    (updateStakingInfo_recommendList c w miner staker .Sub none isSlash)
    (by simp [stakerRemoveMiner])

theorem staking_recommendList (who miner : A) (amount : ℕ) :
    (staking c w who miner amount).state.staking.recommendList = w.staking.recommendList := by
  unfold staking
  split
  · rfl
  dsimp only
  split_ifs
  · rfl
  · rfl
  · rfl
  split
  · rfl
  · rfl
  · split_ifs
    · rfl
    split
    · rfl
    · split <;> simp

theorem updateProportion_recommendList (miner : A) (proportion : Percent) :
    (updateProportion w miner proportion).state.staking.recommendList = w.staking.recommendList := by
  unfold updateProportion
  split_ifs
  · rfl
  · split <;> rfl

/-- Apart from `request_up_to_list` and `request_down_from_list`, no call writes
`RecommendList`. -/
theorem dispatch_recommendList_of_ne (removeHistory : A → H → H) (origin : Origin A)
    (call : Call A) (hup : ∀ amount, call ≠ .requestUpToList amount)
    (hdown : call ≠ .requestDownFromList) :
    (dispatch c removeHistory w origin call).state.staking.recommendList =
      w.staking.recommendList := by
  cases origin with
  | root => rfl
  | none => rfl
  | signed who =>
    cases call with
    | register plotSize numericId minerProportion rewardDest =>
      exact register_recommendList w who plotSize numericId minerProportion rewardDest
    | requestUpToList amount => exact absurd rfl (hup amount)
    | requestDownFromList => exact absurd rfl hdown
    | updateRewardDest dest => exact updateRewardDest_recommendList w who dest
    | updateNumericId numericId => exact updateNumericId_recommendList w who numericId
    | updatePlotSize plotSize => exact updatePlotSize_recommendList w removeHistory who plotSize
    | stopMining => exact stopMining_recommendList w who
    | restartMining => exact restartMining_recommendList w removeHistory who
    | removeStaker staker => exact leaveStaking_recommendList c w who staker true
    | staking miner amount => exact staking_recommendList c w who miner amount
    | updateStaking miner operate amount =>
      exact updateStakingInfo_recommendList c w miner who operate (some amount) false
    | unlock => exact lockSubAmount_recommendList c w who
    | exitStaking miner => exact leaveStaking_recommendList c w miner who false
    | updateProportion proportion => exact updateProportion_recommendList w who proportion

end Frame

/-! ### What writes the list -/

section Writes

variable (c : Config) (w : World A H)

omit [DecidableEq A] in
/-- `is_can_mining` passes only a registered miner. -/
theorem isRegister_of_isCanMining {s : State A} {m : A} {b : Bool}
    (h : isCanMining s m = .ok b) : isRegister s m = true := by
  unfold isCanMining at h
  split at h
  · next hd hi => simp [isRegister, hd, hi]
  · simp at h

omit [DecidableEq A] in
/-- A cut to the bound leaves a list within the bound as it is. -/
theorem ite_take_self (n : ℕ) (l : List (A × ℕ)) :
    (if n ≤ l.length then l.take n else l) = l.take n := by
  split_ifs with hfull
  · rfl
  · exact (List.take_of_length_le (by omega)).symm

/-- `sort_after` stores nothing when the reservation fails, and otherwise the first
`RecommendMaxNumber` entries of the list with the miner inserted at `index` when that is within
the bound, also when it then returns `AmountTooLow`. -/
theorem sortAfter_recommendList (miner : A) (amount index : ℕ) (oldList : List (A × ℕ)) :
    (sortAfter c w miner amount index oldList).state.staking.recommendList =
        w.staking.recommendList ∨
      (sortAfter c w miner amount index oldList).state.staking.recommendList =
        (if index < c.recommendMaxNumber then oldList.insertIdx index (miner, amount)
          else oldList).take c.recommendMaxNumber := by
  unfold sortAfter
  dsimp only
  split
  · -- the reservation failed, and only the balances moved
    left
    simp only [Machine.Outcome.error_state]
    split_ifs <;> simp
  · right
    -- the list is written before the result is decided
    have hstate : ∀ (p : Prop) [Decidable p] (w' : World A H),
        (if p then Machine.Outcome.error Error.AmountTooLow w' else .ok w').state = w' := by
      intro p _ w'
      split_ifs <;> rfl
    rw [hstate, World.setStaking_staking]
    simp only [decide_eq_true_eq]
    exact ite_take_self _ _

/-- `sort_account_by_amount` stores nothing, or the first `RecommendMaxNumber` entries of a
sublist of the list without the miner, with the miner inserted at its place when that is
within the bound. -/
theorem sortAccountByAmount_recommendList (hnd : (w.staking.recommendList.map Prod.fst).Nodup)
    (miner : A) (amount : ℕ) :
    (sortAccountByAmount c w miner amount).state.staking.recommendList =
        w.staking.recommendList ∨
      ∃ l a, l.Sublist w.staking.recommendList ∧ miner ∉ l.map Prod.fst ∧
        (sortAccountByAmount c w miner amount).state.staking.recommendList =
          (if sortIndex l a < c.recommendMaxNumber then RankedList.insert Prod.snd l (miner, a)
            else l).take c.recommendMaxNumber := by
  unfold sortAccountByAmount
  split
  · next hnone =>
    rcases sortAfter_recommendList c w miner amount _ _ with h | h
    · exact .inl h
    · exact .inr ⟨_, amount, List.Sublist.refl _, KeyedList.extract_eq_none_iff.mp hnone, h⟩
  · next old rest hext =>
    split_ifs
    · exact .inl rfl
    · rcases sortAfter_recommendList c (unreserve c w miner old.2) miner _ _ rest with h | h
      · exact .inl h
      · refine .inr ⟨rest, _, KeyedList.sublist_of_extract hext, fun hmem => ?_, h⟩
        -- with distinct accounts, the miner's entry was its only one
        exact ((KeyedList.mem_keys_of_extract hext hnd miner).mp hmem).2 rfl

/-- `request_up_to_list` stores nothing, or what `sort_account_by_amount` stores for a
registered miner. -/
theorem requestUpToList_recommendList (hnd : (w.staking.recommendList.map Prod.fst).Nodup)
    (miner : A) (amount : ℕ) :
    (requestUpToList c w miner amount).state.staking.recommendList = w.staking.recommendList ∨
      isRegister w.staking miner = true ∧ ∃ l a, l.Sublist w.staking.recommendList ∧
        miner ∉ l.map Prod.fst ∧
        (requestUpToList c w miner amount).state.staking.recommendList =
          (if sortIndex l a < c.recommendMaxNumber then RankedList.insert Prod.snd l (miner, a)
            else l).take c.recommendMaxNumber := by
  unfold requestUpToList
  split
  · exact .inl rfl
  · exact .inl rfl
  · next hcan =>
    rcases sortAccountByAmount_recommendList c w hnd miner amount with h | h
    · exact .inl h
    · exact .inr ⟨isRegister_of_isCanMining hcan, h⟩

/-- `request_down_from_list` leaves a sublist. -/
theorem requestDownFromList_recommendList (miner : A) :
    ((requestDownFromList c w miner).state.staking.recommendList).Sublist
      w.staking.recommendList := by
  unfold requestDownFromList
  split
  · exact List.Sublist.refl _
  · next entry list hext =>
    simp only [Machine.Outcome.ok_state, World.setStaking_staking]
    exact KeyedList.sublist_of_extract hext

end Writes

/-! ### The list over whole runs -/

section Runs

variable (c : Config) (removeHistory : A → H → H)

/-- What one event can do to `RecommendList`: leave it; or, keeping the registry, leave a
sublist, or store the first `RecommendMaxNumber` entries of a sublist without a registered
miner, with the miner inserted at its place when that is within the bound. -/
theorem step_recommendList {w : World A H} (hnd : (w.staking.recommendList.map Prod.fst).Nodup)
    (e : Event A H) :
    (step c removeHistory w e).staking.recommendList = w.staking.recommendList ∨
      (step c removeHistory w e).staking.registry = w.staking.registry ∧
        (((step c removeHistory w e).staking.recommendList).Sublist w.staking.recommendList ∨
          ∃ miner l a, isRegister w.staking miner = true ∧ l.Sublist w.staking.recommendList ∧
            miner ∉ l.map Prod.fst ∧
            (step c removeHistory w e).staking.recommendList =
              (if sortIndex l a < c.recommendMaxNumber then RankedList.insert Prod.snd l (miner, a)
                else l).take c.recommendMaxNumber) := by
  cases e with
  | call origin call =>
    -- the two calls on the list, signed, against every other call
    by_cases hup : ∃ miner amount, origin = .signed miner ∧ call = .requestUpToList amount
    · obtain ⟨miner, amount, rfl, rfl⟩ := hup
      have hreg := requestUpToList_registry c w miner amount
      rcases requestUpToList_recommendList c w hnd miner amount with h | ⟨hminer, l, a, hsub, hnew, h⟩
      · exact .inl h
      · exact .inr ⟨hreg, .inr ⟨miner, l, a, hminer, hsub, hnew, h⟩⟩
    by_cases hdown : ∃ miner, origin = .signed miner ∧ call = .requestDownFromList
    · obtain ⟨miner, rfl, rfl⟩ := hdown
      exact .inr ⟨requestDownFromList_registry c w miner,
        .inl (requestDownFromList_recommendList c w miner)⟩
    left
    cases origin with
    | signed who =>
      refine dispatch_recommendList_of_ne c w removeHistory _ call (fun amount hc => ?_) (fun hc => ?_)
      · exact hup ⟨who, amount, rfl, hc⟩
      · exact hdown ⟨who, rfl, hc⟩
    | root => rfl
    | none => rfl
  | nextBlock => exact .inl (by simp [step, onInitialize, onFinalize, updateChill_recommendList])
  | external balances handler => exact .inl rfl

/-- What `RecommendList` keeps in every reachable state: ranked by amount, each account
once, at most `RecommendMaxNumber` entries, and only registered miners. -/
structure RecommendInv (c : Config) (s : State A) : Prop where
  bounded : RankedList.Bounded Prod.snd Prod.fst c.recommendMaxNumber s.recommendList
  registered : ∀ e ∈ s.recommendList, isRegister s e.1 = true

theorem step_recommendInv {w : World A H} (h : w.staking.registry.Inv)
    (hinv : RecommendInv c w.staking) (e : Event A H) :
    RecommendInv c (step c removeHistory w e).staking := by
  -- no event unregisters a miner
  have hkeep : ∀ m, isRegister w.staking m = true →
      isRegister (step c removeHistory w e).staking m = true := fun m hm =>
    (step_registry_moves c removeHistory h e).registered_of hm
  rcases step_recommendList c removeHistory hinv.bounded.nodup e with
    hsame | ⟨hreg, hsub | ⟨miner, l, a, hminer, hsub, hnew, hlist⟩⟩
  · refine ⟨hsame ▸ hinv.bounded, fun x hx => ?_⟩
    rw [hsame] at hx
    exact hkeep x.1 (hinv.registered x hx)
  · refine ⟨hinv.bounded.sublist hsub, fun x hx => ?_⟩
    rw [← State.registry_registered, hreg, State.registry_registered]
    exact hinv.registered x (hsub.subset hx)
  · have hranked := hinv.bounded.ranked.sublist hsub
    have hnd := hinv.bounded.nodup.sublist (hsub.map Prod.fst)
    refine ⟨hlist ▸ RankedList.bounded_take_insert hranked hnd hnew _, fun x hx => ?_⟩
    rw [← State.registry_registered, hreg, State.registry_registered]
    rw [hlist] at hx
    -- an entry left is the miner or an entry it was listed with
    rcases RankedList.mem_of_mem_take_insert hx with rfl | hx
    · exact hminer
    · exact hinv.registered x (hsub.subset hx)

/-- In every state the pallet reaches, `RecommendList` is ranked by amount, lists each
account once, within `RecommendMaxNumber` entries, and only registered miners. -/
theorem reachable_recommendInv (balances : Balances.State A) (handler : H) {w : World A H}
    (hw : (machine c removeHistory balances handler).Reachable w) :
    RecommendInv c w.staking := by
  refine (machine c removeHistory balances handler).reachable_induction_with
    (P := fun w => RecommendInv c w.staking)
    (fun w hw => reachable_registry_inv removeHistory balances handler hw) ?_ ?_ hw
  · exact ⟨⟨List.Pairwise.nil, List.nodup_nil, Nat.zero_le _⟩, fun x hx => absurd hx List.not_mem_nil⟩
  · intro w e _ hreg hinv
    exact step_recommendInv c removeHistory hreg hinv e

end Runs

end IpseCore.PocStaking

namespace IpseCore.Ipse

open Unsigned

variable {A : Type} [DecidableEq A] (c : Config)

/-! ### What leaves Ipse's list alone -/

section Frame

variable (w : World A)

theorem registerMiner_recommendList (who : A) (url : List UInt8) (stashAddress : A)
    (capacity unitPrice : ℕ) :
    (registerMiner w who url stashAddress capacity unitPrice).state.ipse.recommendList =
      w.ipse.recommendList := by
  unfold registerMiner
  split_ifs <;> rfl

theorem createOrder_recommendList (user miner : A) (size : ℕ) (url : Option (List UInt8))
    (days : ℕ) :
    (createOrder c w user miner size url days).state.ipse.recommendList =
      w.ipse.recommendList := by
  unfold createOrder
  split
  · rfl
  · split_ifs
    · rfl
    · rfl
    · -- the order is stored after the reservation, over the storage it left
      exact Machine.Outcome.andThen_state_of
        (P := fun w' : World A => w'.ipse.recommendList = w.ipse.recommendList)
        (by rw [reserve_ipse]) (by simp [updateMinerHistory])

theorem confirmOrder_recommendList (miner : A) (orderId : ℕ) (url : List UInt8) :
    (confirmOrder c w miner orderId url).state.ipse.recommendList = w.ipse.recommendList := by
  unfold confirmOrder
  split
  · rfl
  · split_ifs
    · rfl
    · split
      · rfl
      · split
        · rfl
        · split
          · rfl
          · split
            · rfl
            · simp

theorem deleteOrder_recommendList (user : A) (orderId : ℕ) :
    (deleteOrder c w user orderId).state.ipse.recommendList = w.ipse.recommendList := by
  unfold deleteOrder
  split
  · rfl
  · split_ifs <;> simp

theorem onFinalize_recommendList : (onFinalize c w).ipse.recommendList = w.ipse.recommendList := by
  unfold onFinalize
  split_ifs
  · rfl
  · simpa using congrArg State.recommendList (payOrders_withoutHistory c w.now w w.ipse.orders)

/-- Apart from `apply_to_recommended_list` and `drop_out_recommended_list`, no call writes
`RecommendList`. -/
theorem dispatch_recommendList_of_ne (origin : Origin A) (call : Call A)
    (hup : ∀ amount, call ≠ .applyToRecommendedList amount)
    (hdown : call ≠ .dropOutRecommendedList) :
    (dispatch c w origin call).state.ipse.recommendList = w.ipse.recommendList := by
  cases origin with
  | root => rfl
  | none => rfl
  | signed who =>
    cases call with
    | registerMiner url stashAddress capacity unitPrice =>
      exact registerMiner_recommendList w who url stashAddress capacity unitPrice
    | createOrder miner size url days => exact createOrder_recommendList c w who miner size url days
    | confirmOrder orderId url => exact confirmOrder_recommendList c w who orderId url
    | deleteOrder orderId => exact deleteOrder_recommendList c w who orderId
    | verifyStorage orderId =>
      simp only [dispatch]
      rw [verifyStorage_state]
    | applyToRecommendedList amount => exact absurd rfl (hup amount)
    | dropOutRecommendedList => exact absurd rfl hdown

end Frame

/-! ### What writes Ipse's list -/

section Writes

variable (w : World A)

omit [DecidableEq A] in
/-- A cut to twenty leaves a shorter list as it is. -/
theorem ite_take_twenty (l : List (A × ℕ)) :
    (if 20 < l.length then l.take 20 else l) = l.take 20 := by
  split_ifs with hfull
  · rfl
  · exact (List.take_of_length_le (by omega)).symm

/-- `sort_after` stores nothing when the reservation fails, and otherwise the first twenty
entries of the list with the miner inserted at `index`. -/
theorem sortAfter_recommendList (miner : A) (amount index : ℕ) (oldList : List (A × ℕ)) :
    (sortAfter c w miner amount index oldList).state.ipse.recommendList = w.ipse.recommendList ∨
      (sortAfter c w miner amount index oldList).state.ipse.recommendList =
        (oldList.insertIdx index (miner, amount)).take 20 := by
  unfold sortAfter
  cases hres : (reserve c w miner amount).result with
  | error e =>
    left
    rw [Machine.Outcome.andThen_of_error hres, reserve_ipse]
  | ok u =>
    right
    rw [Machine.Outcome.andThen_of_ok hres]
    simp only [Machine.Outcome.ok_state, World.setIpse_ipse]
    exact ite_take_twenty _

/-- `sort_account_by_amount` stores nothing, or the first twenty entries of a sublist of the
list without the miner, with the miner inserted at its place. -/
theorem sortAccountByAmount_recommendList (hnd : (w.ipse.recommendList.map Prod.fst).Nodup)
    (miner : A) (amount : ℕ) :
    (sortAccountByAmount c w miner amount).state.ipse.recommendList = w.ipse.recommendList ∨
      ∃ l a, l.Sublist w.ipse.recommendList ∧ miner ∉ l.map Prod.fst ∧
        (sortAccountByAmount c w miner amount).state.ipse.recommendList =
          (RankedList.insert Prod.snd l (miner, a)).take 20 := by
  unfold sortAccountByAmount
  split
  · next hnone =>
    rcases sortAfter_recommendList c w miner amount _ _ with h | h
    · exact .inl h
    · exact .inr ⟨_, amount, List.Sublist.refl _, KeyedList.extract_eq_none_iff.mp hnone, h⟩
  · next old rest hext =>
    split_ifs
    · exact .inl rfl
    · rcases sortAfter_recommendList c (unreserve c w miner old.2) miner _ _ rest with h | h
      · exact .inl h
      · refine .inr ⟨rest, _, KeyedList.sublist_of_extract hext, fun hmem => ?_, h⟩
        -- with distinct accounts, the miner's entry was its only one
        exact ((KeyedList.mem_keys_of_extract hext hnd miner).mp hmem).2 rfl

/-- `drop_out_recommended_list` leaves a sublist. -/
theorem dropOutRecommendedList_recommendList (miner : A) :
    ((dropOutRecommendedList c w miner).state.ipse.recommendList).Sublist w.ipse.recommendList := by
  unfold dropOutRecommendedList
  split
  · exact List.Sublist.refl _
  · next entry list hext =>
    simp only [Machine.Outcome.ok_state, World.setIpse_ipse]
    exact KeyedList.sublist_of_extract hext

end Writes

/-! ### Ipse's list over whole runs -/

section Runs

/-- What one event can do to `RecommendList`: leave it, leave a sublist, or store the first
twenty entries of a sublist without a miner, with the miner inserted at its place. -/
theorem step_recommendList {w : World A} (hnd : (w.ipse.recommendList.map Prod.fst).Nodup)
    (e : Event A) :
    (step c w e).ipse.recommendList = w.ipse.recommendList ∨
      ((step c w e).ipse.recommendList).Sublist w.ipse.recommendList ∨
      ∃ miner l a, l.Sublist w.ipse.recommendList ∧ miner ∉ l.map Prod.fst ∧
        (step c w e).ipse.recommendList = (RankedList.insert Prod.snd l (miner, a)).take 20 := by
  cases e with
  | call origin call =>
    by_cases hup : ∃ miner amount, origin = .signed miner ∧ call = .applyToRecommendedList amount
    · obtain ⟨miner, amount, rfl, rfl⟩ := hup
      simp only [step, dispatch, applyToRecommendedList]
      split_ifs
      · exact .inl rfl
      · rcases sortAccountByAmount_recommendList c w hnd miner amount with h | h
        · exact .inl h
        · exact .inr (.inr ⟨miner, h⟩)
    by_cases hdown : ∃ miner, origin = .signed miner ∧ call = .dropOutRecommendedList
    · obtain ⟨miner, rfl, rfl⟩ := hdown
      exact .inr (.inl (dropOutRecommendedList_recommendList c w miner))
    left
    cases origin with
    | signed who =>
      refine dispatch_recommendList_of_ne c w _ call (fun amount hc => ?_) (fun hc => ?_)
      · exact hup ⟨who, amount, rfl, hc⟩
      · exact hdown ⟨who, rfl, hc⟩
    | root => rfl
    | none => rfl
  | nextBlock dt => exact .inl (onFinalize_recommendList c w)
  | external balances => exact .inl rfl

theorem step_recommendList_bounded {w : World A}
    (h : RankedList.Bounded Prod.snd Prod.fst 20 w.ipse.recommendList) (e : Event A) :
    RankedList.Bounded Prod.snd Prod.fst 20 (step c w e).ipse.recommendList := by
  rcases step_recommendList c h.nodup e with hsame | hsub | ⟨miner, l, a, hsub, hnew, hlist⟩
  · rw [hsame]
    exact h
  · exact h.sublist hsub
  · -- Ipse always inserts: the insertion of `RankedList.bounded_take_insert` taken
    have hb := RankedList.bounded_take_insert (n := 20) (x := (miner, a)) (h.ranked.sublist hsub)
      (h.nodup.sublist (hsub.map Prod.fst)) hnew True
    rw [if_pos trivial] at hb
    rw [hlist]
    exact hb

/-- In every state the pallet reaches, `RecommendList` is ranked by amount, lists each
account once and has at most twenty entries. -/
theorem reachable_recommendList_bounded (balances : Balances.State A) {w : World A}
    (hw : (machine c balances).Reachable w) :
    RankedList.Bounded Prod.snd Prod.fst 20 w.ipse.recommendList := by
  induction hw with
  | init => exact ⟨List.Pairwise.nil, List.nodup_nil, Nat.zero_le _⟩
  | step e _ ih => exact step_recommendList_bounded c ih e

end Runs

end IpseCore.Ipse

namespace IpseCore

/-- In every reachable state, PocStaking's `RecommendList` is ranked, duplicate-free, at most
`RecommendMaxNumber` long and of registered miners only, and Ipse's is ranked, duplicate-free
and at most twenty long, over any calls and blocks. -/
theorem recommendLists_ranked {A H : Type} [DecidableEq A] (c : PocStaking.Config)
    (removeHistory : A → H → H) (balances : Balances.State A) (handler : H) (c' : Ipse.Config)
    (balances' : Balances.State A) {w : PocStaking.World A H} {v : Ipse.World A}
    (hw : (PocStaking.machine c removeHistory balances handler).Reachable w)
    (hv : (Ipse.machine c' balances').Reachable v) :
    (RankedList.Ranked Prod.snd w.staking.recommendList ∧
      (w.staking.recommendList.map Prod.fst).Nodup ∧
      w.staking.recommendList.length ≤ c.recommendMaxNumber ∧
      ∀ e ∈ w.staking.recommendList, PocStaking.isRegister w.staking e.1 = true) ∧
    (RankedList.Ranked Prod.snd v.ipse.recommendList ∧ (v.ipse.recommendList.map Prod.fst).Nodup ∧
      v.ipse.recommendList.length ≤ 20) := by
  have hstaking := PocStaking.reachable_recommendInv c removeHistory balances handler hw
  have hipse := Ipse.reachable_recommendList_bounded c' balances' hv
  exact ⟨⟨hstaking.bounded.ranked, hstaking.bounded.nodup, hstaking.bounded.length_le,
    hstaking.registered⟩, ⟨hipse.ranked, hipse.nodup, hipse.length_le⟩⟩

/-- Miner 1 registers in PocStaking and asks for the list with 200 DOLLARS, miner 2 with 300;
in Ipse miners 3 and 4 register and apply with 2 and 5 DOLLARS. Both lists hold the richer
bid first. -/
theorem recommendLists_ranked_after_requests :
    let w := (PocStaking.machine PocStaking.runtimeConfig (fun _ h => h)
        (⟨fun a => if a = 1 ∨ a = 2 then some ⟨10 ^ 17, 0, 0, 0⟩ else none, fun _ => [],
          2 * 10 ^ 17⟩ : Balances.State ℕ) ()).run
      [.call (.signed 1) (.register 1 0 50 none), .call (.signed 2) (.register 1 1 50 none),
        .call (.signed 1) (.requestUpToList (200 * DOLLARS)),
        .call (.signed 2) (.requestUpToList (300 * DOLLARS))]
    let v := (Ipse.machine Ipse.runtimeConfig
        (⟨fun a => if a = 3 ∨ a = 4 then some ⟨10 ^ 16, 0, 0, 0⟩ else none, fun _ => [],
          2 * 10 ^ 16⟩ : Balances.State ℕ)).run
      [.call (.signed 3) (.registerMiner [1] 3 (10 ^ 6) (10 ^ 9)),
        .call (.signed 4) (.registerMiner [2] 4 (10 ^ 6) (10 ^ 9)),
        .call (.signed 3) (.applyToRecommendedList (2 * DOLLARS)),
        .call (.signed 4) (.applyToRecommendedList (5 * DOLLARS))]
    w.staking.recommendList = [(2, 300 * DOLLARS), (1, 200 * DOLLARS)] ∧
      v.ipse.recommendList = [(4, 5 * DOLLARS), (3, 2 * DOLLARS)] ∧
      ((RankedList.Ranked Prod.snd w.staking.recommendList ∧
        (w.staking.recommendList.map Prod.fst).Nodup ∧
        w.staking.recommendList.length ≤ PocStaking.runtimeConfig.recommendMaxNumber ∧
        ∀ e ∈ w.staking.recommendList, PocStaking.isRegister w.staking e.1 = true) ∧
      (RankedList.Ranked Prod.snd v.ipse.recommendList ∧ (v.ipse.recommendList.map Prod.fst).Nodup ∧
        v.ipse.recommendList.length ≤ 20)) :=
  ⟨by decide +kernel, by decide +kernel,
    recommendLists_ranked _ _ _ _ _ _ (Machine.reachable_run _ _) (Machine.reachable_run _ _)⟩

end IpseCore
