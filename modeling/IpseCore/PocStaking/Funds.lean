import IpseCore.PocStaking.Model
import IpseCore.Balances.Moves

/-!
# What PocStaking does to the balances

PocStaking holds funds in two ways: it reserves bonds, deposits and bids, and it locks what it
gives back for a while. Every call of the pallet therefore changes the balances only through
`ReservableCurrency` (reserve, unreserve, slash) and `LockableCurrency` (the pallet's lock): its
balances move by `Balances.Moves` (`dispatch_moves`), and the pallet never mints.
-/

namespace IpseCore.PocStaking

open Unsigned

variable {A H : Type} [DecidableEq A] (c : Config) (w : World A H)

/-! ### Helpers -/

theorem reserve_moves (who : A) (value : ℕ) :
    Balances.Moves w.balances (reserve c w who value).state.balances := by
  have hop := Balances.Moves.reservable
    (.reserve c.existentialDeposit w.balances who value)
  unfold reserve
  dsimp only
  -- accepted or not, the call leaves Balances' state after the reservation
  split <;> exact hop

theorem unreserve_moves (who : A) (value : ℕ) :
    Balances.Moves w.balances (unreserve c w who value).balances :=
  Balances.Moves.reservable (.unreserve _ _ _ _)

theorem slashReserved_moves (who : A) (value : ℕ) :
    Balances.Moves w.balances (slashReserved c w who value).balances :=
  Balances.Moves.reservable (.slashReserved _ _ _ _)

theorem lock_moves (who : A) (operate : Operate) (amount : ℕ) :
    Balances.Moves w.balances (lock c w who operate amount).balances := by
  unfold lock
  cases operate with
  | Add =>
    dsimp only
    split_ifs
    · exact Balances.Moves.setLock _ _ _ _ _ _
    · exact Balances.Moves.lockAddAmount _ _ _ _ _ _
  | Sub =>
    dsimp only
    split_ifs
    · exact Balances.Moves.refl _
    · exact Balances.Moves.lockSubAmount _ _ _ _ _ _

theorem lockAddAmount_moves (who : A) (amount expire : ℕ) :
    Balances.Moves w.balances (lockAddAmount c w who amount expire).balances :=
  lock_moves c w who .Add amount

/-- The releases of `lock_sub_amount`, one `lock` per due entry. -/
theorem foldl_release_moves (who : A) (now : ℕ) (l : List (ℕ × ℕ)) (w : World A H) :
    Balances.Moves w.balances
      (l.foldl (fun w i => if i.1 ≤ now then lock c w who .Sub i.2 else w) w).balances := by
  induction l generalizing w with
  | nil => exact Balances.Moves.refl _
  | cons i l ih =>
    rw [List.foldl_cons]
    refine Balances.Moves.trans ?_ (ih _)
    split_ifs
    · exact lock_moves c w who .Sub i.2
    · exact Balances.Moves.refl _

theorem lockSubAmount_moves (who : A) :
    Balances.Moves w.balances (lockSubAmount c w who).balances := by
  unfold lockSubAmount
  split
  · exact Balances.Moves.refl _
  · exact foldl_release_moves c who _ _ w

/-- The evictions of `sort_after`: each entry cut off is unreserved and locked. -/
theorem abandonRecommended_moves (abandon : List (A × ℕ)) (w : World A H) :
    Balances.Moves w.balances (abandonRecommended c w abandon).balances := by
  induction abandon generalizing w with
  | nil => exact Balances.Moves.refl _
  | cons i l ih =>
    simp only [abandonRecommended, List.foldl_cons] at ih ⊢
    exact ((unreserve_moves c w i.1 i.2).trans (lockAddAmount_moves c _ i.1 i.2 _)).trans (ih _)

theorem sortAfter_moves (miner : A) (amount index : ℕ) (oldList : List (A × ℕ)) :
    Balances.Moves w.balances (sortAfter c w miner amount index oldList).state.balances := by
  unfold sortAfter
  generalize hr : (if index < c.recommendMaxNumber then reserve c w miner amount
    else .ok w) = r
  have hreserved : Balances.Moves w.balances r.state.balances := by
    rw [← hr]
    split_ifs
    · exact reserve_moves c w miner amount
    · exact Balances.Moves.refl _
  generalize (if index < c.recommendMaxNumber then oldList.insertIdx index (miner, amount)
    else oldList) = list
  dsimp only
  split
  · exact hreserved
  · -- the cut unreserves and locks; storing the list and the verdict write the pallet only
    split_ifs <;> first
      | exact hreserved
      | exact hreserved.trans (abandonRecommended_moves c _ _)

theorem sortAccountByAmount_moves (miner : A) (amount : ℕ) :
    Balances.Moves w.balances (sortAccountByAmount c w miner amount).state.balances := by
  unfold sortAccountByAmount
  split
  · exact sortAfter_moves c w miner amount _ _
  · split_ifs
    · exact Balances.Moves.refl _
    · exact (unreserve_moves c w miner _).trans (sortAfter_moves c _ miner _ _ _)

theorem storeStakerInfo_moves (miner : A) (info : StakingInfo A) (stakerInfo : A × ℕ × ℕ)
    (others : List (A × ℕ × ℕ)) (nowBond nowStaking : ℕ) (isSlash : Bool) :
    Balances.Moves w.balances
      (storeStakerInfo c w miner info stakerInfo others nowBond nowStaking isSlash).balances := by
  unfold storeStakerInfo
  dsimp only
  -- a staker left with no bond has its deposit slashed or released
  split_ifs
  · exact slashReserved_moves c w _ _
  · exact unreserve_moves c w _ _
  · exact Balances.Moves.refl _

theorem updateStakingInfo_moves (miner staker : A) (operate : Operate) (amountOpt : Option ℕ)
    (isSlash : Bool) :
    Balances.Moves w.balances
      (updateStakingInfo c w miner staker operate amountOpt isSlash).state.balances := by
  unfold updateStakingInfo
  split_ifs
  · exact Balances.Moves.refl _
  split
  · exact Balances.Moves.refl _
  split
  · exact Balances.Moves.refl _
  cases operate with
  | Add =>
    dsimp only
    split
    · split
      · exact reserve_moves c w staker _
      · exact (reserve_moves c w staker _).trans (storeStakerInfo_moves c _ _ _ _ _ _ _ _)
    · exact Balances.Moves.refl _
  | Sub =>
    dsimp only
    split
    · -- the amount taken off the bond is unreserved and locked
      exact ((unreserve_moves c w staker _).trans (lockAddAmount_moves c _ staker _ _)).trans
        (storeStakerInfo_moves c _ _ _ _ _ _ _ _)
    · exact Balances.Moves.refl _

/-! ### Calls -/

omit [DecidableEq A] in
/-- A call whose every outcome is the state before it or that state with new pallet storage
leaves the balances. -/
theorem balances_eq_of_setStaking {o : Machine.Outcome Error (World A H)}
    (h : o.state = w ∨ ∃ s, o.state = w.setStaking s) : o.state.balances = w.balances := by
  rcases h with h | ⟨s, h⟩
  · rw [h]
  · rw [h]
    rfl

theorem register_balances (miner : A) (plotSize numericId minerProportion : ℕ)
    (rewardDest : Option A) :
    (register w miner plotSize numericId minerProportion rewardDest).state.balances =
      w.balances := by
  refine balances_eq_of_setStaking w ?_
  simp only [register]
  cases checkedMul gibBits plotSize GiB with
  | none => split_ifs <;> exact .inl rfl
  | some disk => split_ifs <;> first | exact .inl rfl | exact .inr ⟨_, rfl⟩

theorem updateRewardDest_balances (miner dest : A) :
    (updateRewardDest w miner dest).state.balances = w.balances := by
  refine balances_eq_of_setStaking w ?_
  unfold updateRewardDest
  split_ifs
  · exact .inl rfl
  · exact .inr ⟨_, rfl⟩

theorem updateNumericId_balances (miner : A) (numericId : ℕ) :
    (updateNumericId w miner numericId).state.balances = w.balances := by
  refine balances_eq_of_setStaking w ?_
  unfold updateNumericId
  dsimp only
  split_ifs
  · exact .inl rfl
  · exact .inl rfl
  split
  · exact .inl rfl
  · exact .inr ⟨_, rfl⟩

theorem updatePlotSize_balances (removeHistory : A → H → H) (miner : A) (plotSize : ℕ) :
    (updatePlotSize removeHistory w miner plotSize).state.balances = w.balances := by
  unfold updatePlotSize
  cases checkedMul gibBits plotSize GiB with
  | none => rfl
  | some disk =>
    simp only [Option.elim_some, setPlotSize]
    -- the history is cleared in the handler's storage, the disk resized in the pallet's
    split_ifs <;> rfl

theorem stopMining_balances (miner : A) : (stopMining w miner).state.balances = w.balances := by
  refine balances_eq_of_setStaking w ?_
  unfold stopMining
  split
  · exact .inl rfl
  dsimp only
  split
  · exact .inl rfl
  · exact .inr ⟨_, rfl⟩

theorem restartMining_balances (removeHistory : A → H → H) (miner : A) :
    (restartMining removeHistory w miner).state.balances = w.balances := by
  unfold restartMining
  dsimp only
  split_ifs
  · rfl
  split
  · rfl
  split_ifs <;> rfl

theorem updateProportion_balances (miner : A) (proportion : Percent) :
    (updateProportion w miner proportion).state.balances = w.balances := by
  refine balances_eq_of_setStaking w ?_
  unfold updateProportion
  split_ifs
  · exact .inl rfl
  split
  · exact .inl rfl
  · exact .inl rfl
  · exact .inr ⟨_, rfl⟩

theorem requestUpToList_moves (miner : A) (amount : ℕ) :
    Balances.Moves w.balances (requestUpToList c w miner amount).state.balances := by
  unfold requestUpToList
  split
  · exact Balances.Moves.refl _
  · exact Balances.Moves.refl _
  · exact sortAccountByAmount_moves c w miner amount

theorem requestDownFromList_moves (miner : A) :
    Balances.Moves w.balances (requestDownFromList c w miner).state.balances := by
  unfold requestDownFromList
  split
  · exact Balances.Moves.refl _
  next entry _ _ =>
    -- the amount is unreserved and locked, then the shorter list stored
    simp only [Machine.Outcome.ok_state, World.setStaking_balances]
    exact (unreserve_moves c w miner entry.2).trans (lockAddAmount_moves c _ miner entry.2 _)

theorem staking_moves (who miner : A) (amount : ℕ) :
    Balances.Moves w.balances (staking c w who miner amount).state.balances := by
  unfold staking
  split
  · exact Balances.Moves.refl _
  split_ifs
  any_goals exact Balances.Moves.refl _
  split
  any_goals exact Balances.Moves.refl _
  split_ifs
  · exact Balances.Moves.refl _
  split
  · exact Balances.Moves.refl _
  -- the stake is reserved, then the books are written
  dsimp only
  split <;> exact reserve_moves c w who _

/-- The two ways out of a staking, by the miner and by the staker. -/
theorem leaveStaking_moves (miner staker : A) (isSlash : Bool) :
    Balances.Moves w.balances ((updateStakingInfo c w miner staker .Sub none isSlash).andThen
      fun w => .ok (w.setStaking (stakerRemoveMiner w.staking staker miner))).state.balances :=
  Machine.Outcome.andThen_state_of (P := fun w' : World A H => Balances.Moves w.balances w'.balances)
    (updateStakingInfo_moves c w _ _ _ _ _) (updateStakingInfo_moves c w _ _ _ _ _)

/-- Every call of PocStaking moves the balances by `ReservableCurrency` and `LockableCurrency`
alone. -/
theorem dispatch_moves (removeHistory : A → H → H) (origin : Origin A) (call : Call A) :
    Balances.Moves w.balances (dispatch c removeHistory w origin call).state.balances := by
  cases origin with
  | root => exact Balances.Moves.refl _
  | none => exact Balances.Moves.refl _
  | signed who =>
    cases call with
    | register plotSize numericId minerProportion rewardDest =>
      exact .of_eq (register_balances w who plotSize numericId minerProportion rewardDest)
    | requestUpToList amount => exact requestUpToList_moves c w who amount
    | requestDownFromList => exact requestDownFromList_moves c w who
    | updateRewardDest dest => exact .of_eq (updateRewardDest_balances w who dest)
    | updateNumericId numericId =>
      exact .of_eq (updateNumericId_balances w who numericId)
    | updatePlotSize plotSize =>
      exact .of_eq (updatePlotSize_balances w removeHistory who plotSize)
    | stopMining => exact .of_eq (stopMining_balances w who)
    | restartMining => exact .of_eq (restartMining_balances w removeHistory who)
    | removeStaker staker => exact leaveStaking_moves c w who staker true
    | staking miner amount => exact staking_moves c w who miner amount
    | updateStaking miner operate amount =>
      exact updateStakingInfo_moves c w miner who operate (some amount) false
    | unlock => exact lockSubAmount_moves c w who
    | exitStaking miner => exact leaveStaking_moves c w miner who false
    | updateProportion proportion =>
      exact .of_eq (updateProportion_balances w who proportion)

end IpseCore.PocStaking
