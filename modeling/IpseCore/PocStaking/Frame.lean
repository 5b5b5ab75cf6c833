import IpseCore.PocStaking.Model

/-!
# What the calls leave alone

No call of PocStaking moves the block number. Only `update_plot_size` and
`restart_mining` touch the storage of the `PocHandler`, through `remove_history` of the
caller; every other call and helper writes the pallet's storage and the balances only.
The runtime relies on this: PoC's storage changes under PocStaking's calls only as
`remove_history` changes it.
-/

namespace IpseCore.PocStaking

open Unsigned

variable {A H : Type}

/-- `w'` differs from `w` at most in the pallet's storage and the balances. -/
structure Keeps (w w' : World A H) : Prop where
  handler_eq : w'.handler = w.handler
  blockNumber_eq : w'.blockNumber = w.blockNumber

/-- `w'` differs from `w` in the pallet's storage, the balances, and at most one
`remove_history` of the handler's storage. -/
structure KeepsUpTo (removeHistory : A → H → H) (w w' : World A H) : Prop where
  handler_eq : w'.handler = w.handler ∨ ∃ miner, w'.handler = removeHistory miner w.handler
  blockNumber_eq : w'.blockNumber = w.blockNumber

namespace Keeps

variable {w w₁ w₂ : World A H}

theorem refl (w : World A H) : Keeps w w := ⟨rfl, rfl⟩

theorem trans (h₁ : Keeps w w₁) (h₂ : Keeps w₁ w₂) : Keeps w w₂ :=
  ⟨h₂.handler_eq.trans h₁.handler_eq, h₂.blockNumber_eq.trans h₁.blockNumber_eq⟩

theorem setStaking (h : Keeps w w₁) (s : State A) : Keeps w (w₁.setStaking s) :=
  ⟨h.handler_eq, h.blockNumber_eq⟩

theorem setBalances (h : Keeps w w₁) (b : Balances.State A) : Keeps w (w₁.setBalances b) :=
  ⟨h.handler_eq, h.blockNumber_eq⟩

/-- A fold whose every step keeps the handler and the block keeps them too. -/
theorem foldl {α : Type} (f : World A H → α → World A H) (hf : ∀ w a, Keeps w (f w a))
    (l : List α) (w : World A H) : Keeps w (l.foldl f w) := by
  induction l generalizing w with
  | nil => exact refl w
  | cons a l ih => exact (hf w a).trans (ih (f w a))

theorem upTo (h : Keeps w w₁) (removeHistory : A → H → H) : KeepsUpTo removeHistory w w₁ :=
  ⟨.inl h.handler_eq, h.blockNumber_eq⟩

end Keeps

variable [DecidableEq A] (c : Config) (w : World A H)

/-! ### Helpers -/

theorem reserve_keeps (who : A) (value : ℕ) : Keeps w (reserve c w who value).state := by
  unfold reserve
  dsimp only
  split
  · exact (Keeps.refl w).setBalances _
  · exact (Keeps.refl w).setBalances _

theorem unreserve_keeps (who : A) (value : ℕ) : Keeps w (unreserve c w who value) :=
  (Keeps.refl w).setBalances _

@[simp] theorem unreserve_blockNumber (who : A) (value : ℕ) :
    (unreserve c w who value).blockNumber = w.blockNumber := rfl

theorem slashReserved_keeps (who : A) (value : ℕ) : Keeps w (slashReserved c w who value) :=
  (Keeps.refl w).setBalances _

theorem lock_keeps (who : A) (operate : Operate) (amount : ℕ) :
    Keeps w (lock c w who operate amount) := by
  cases operate <;> simp only [lock] <;> split_ifs
  all_goals first | exact Keeps.refl w | exact (Keeps.refl w).setBalances _

theorem lockAddAmount_keeps (who : A) (amount expire : ℕ) :
    Keeps w (lockAddAmount c w who amount expire) :=
  (lock_keeps c w who .Add amount).setStaking _

@[simp] theorem lockAddAmount_blockNumber (who : A) (amount expire : ℕ) :
    (lockAddAmount c w who amount expire).blockNumber = w.blockNumber :=
  (lockAddAmount_keeps c w who amount expire).blockNumber_eq

theorem lockSubAmount_keeps (who : A) : Keeps w (lockSubAmount c w who) := by
  unfold lockSubAmount
  split
  · exact Keeps.refl w
  · -- every due lock is released through `lock`
    refine (Keeps.foldl _ (fun w i => ?_) _ w).setStaking _
    split_ifs
    · exact lock_keeps c w who .Sub i.2
    · exact Keeps.refl w

theorem abandonRecommended_keeps (abandon : List (A × ℕ)) :
    Keeps w (abandonRecommended c w abandon) := by
  unfold abandonRecommended
  exact Keeps.foldl _ (fun w i => (unreserve_keeps c w i.1 i.2).trans
    (lockAddAmount_keeps c _ i.1 i.2 _)) abandon w

theorem sortAfter_keeps (miner : A) (amount index : ℕ) (oldList : List (A × ℕ)) :
    Keeps w (sortAfter c w miner amount index oldList).state := by
  unfold sortAfter
  dsimp only
  -- what is reserved, and what is abandoned past the bound, moves balances only
  have hreserved : Keeps w (if index < c.recommendMaxNumber then reserve c w miner amount
      else .ok w).state := by
    split_ifs
    · exact reserve_keeps c w miner amount
    · exact Keeps.refl w
  generalize (if index < c.recommendMaxNumber then reserve c w miner amount else .ok w) = r
    at hreserved ⊢
  split
  · exact hreserved
  · split_ifs <;> first
      | exact (hreserved.trans (abandonRecommended_keeps c _ _)).setStaking _
      | exact hreserved.setStaking _

theorem sortAccountByAmount_keeps (miner : A) (amount : ℕ) :
    Keeps w (sortAccountByAmount c w miner amount).state := by
  unfold sortAccountByAmount
  split
  · exact sortAfter_keeps c w miner _ _ _
  · split_ifs
    · exact Keeps.refl w
    · exact (unreserve_keeps c w miner _).trans (sortAfter_keeps c _ miner _ _ _)

theorem storeStakerInfo_keeps (miner : A) (info : StakingInfo A) (stakerInfo : A × ℕ × ℕ)
    (others : List (A × ℕ × ℕ)) (nowBond nowStaking : ℕ) (isSlash : Bool) :
    Keeps w (storeStakerInfo c w miner info stakerInfo others nowBond nowStaking isSlash) := by
  unfold storeStakerInfo
  dsimp only
  refine Keeps.setStaking ?_ _
  split_ifs
  · exact ((slashReserved_keeps c w _ _)).setStaking _
  · exact ((unreserve_keeps c w _ _)).setStaking _
  · exact Keeps.refl w

theorem updateStakingInfo_keeps (miner staker : A) (operate : Operate) (amountOpt : Option ℕ)
    (isSlash : Bool) :
    Keeps w (updateStakingInfo c w miner staker operate amountOpt isSlash).state := by
  unfold updateStakingInfo
  split_ifs
  · exact Keeps.refl w
  split
  · exact Keeps.refl w
  split
  · exact Keeps.refl w
  dsimp only
  split
  · -- an added amount is reserved before the books are written
    split
    · split
      · exact reserve_keeps c w staker _
      · exact (reserve_keeps c w staker _).trans (storeStakerInfo_keeps c _ _ _ _ _ _ _ _)
    · exact Keeps.refl w
  · -- a subtracted amount is unreserved and locked
    split
    · exact ((unreserve_keeps c w staker _).trans (lockAddAmount_keeps c _ staker _ _)).trans
        (storeStakerInfo_keeps c _ _ _ _ _ _ _ _)
    · exact Keeps.refl w

/-! ### Calls -/

omit [DecidableEq A] in
/-- A call whose every outcome is the state before it or that state with new pallet
storage keeps the handler and the block. -/
theorem keeps_of_setStaking {o : Machine.Outcome Error (World A H)}
    (h : o.state = w ∨ ∃ s, o.state = w.setStaking s) : Keeps w o.state := by
  rcases h with h | ⟨s, h⟩
  · rw [h]
    exact Keeps.refl w
  · rw [h]
    exact (Keeps.refl w).setStaking s

theorem register_keeps (miner : A) (plotSize numericId minerProportion : ℕ)
    (rewardDest : Option A) :
    Keeps w (register w miner plotSize numericId minerProportion rewardDest).state := by
  refine keeps_of_setStaking w ?_
  simp only [register]
  -- every check fails on the state before the call; the write is to the pallet's storage
  cases checkedMul gibBits plotSize GiB with
  | none => split_ifs <;> exact .inl rfl
  | some disk => split_ifs <;> first | exact .inl rfl | exact .inr ⟨_, rfl⟩

theorem updateRewardDest_keeps (miner dest : A) :
    Keeps w (updateRewardDest w miner dest).state := by
  refine keeps_of_setStaking w ?_
  unfold updateRewardDest
  split_ifs
  · exact .inl rfl
  · exact .inr ⟨_, rfl⟩

theorem updateNumericId_keeps (miner : A) (numericId : ℕ) :
    Keeps w (updateNumericId w miner numericId).state := by
  refine keeps_of_setStaking w ?_
  unfold updateNumericId
  dsimp only
  split_ifs
  · exact .inl rfl
  · exact .inl rfl
  split
  · exact .inl rfl
  · exact .inr ⟨_, rfl⟩

theorem stopMining_keeps (miner : A) : Keeps w (stopMining w miner).state := by
  refine keeps_of_setStaking w ?_
  unfold stopMining
  split
  · exact .inl rfl
  dsimp only
  split
  · exact .inl rfl
  · exact .inr ⟨_, rfl⟩

theorem updateProportion_keeps (miner : A) (proportion : Percent) :
    Keeps w (updateProportion w miner proportion).state := by
  refine keeps_of_setStaking w ?_
  unfold updateProportion
  split_ifs
  · exact .inl rfl
  split
  · exact .inl rfl
  · exact .inl rfl
  · exact .inr ⟨_, rfl⟩

theorem requestUpToList_keeps (miner : A) (amount : ℕ) :
    Keeps w (requestUpToList c w miner amount).state := by
  unfold requestUpToList
  split
  · exact Keeps.refl w
  · exact Keeps.refl w
  · exact sortAccountByAmount_keeps c w miner amount

theorem requestDownFromList_keeps (miner : A) :
    Keeps w (requestDownFromList c w miner).state := by
  unfold requestDownFromList
  split
  · exact Keeps.refl w
  · exact ((unreserve_keeps c w miner _).trans (lockAddAmount_keeps c _ miner _ _)).setStaking _

theorem staking_keeps (who miner : A) (amount : ℕ) :
    Keeps w (staking c w who miner amount).state := by
  unfold staking
  split
  · exact Keeps.refl w
  split_ifs
  any_goals exact Keeps.refl w
  split
  any_goals exact Keeps.refl w
  split_ifs
  · exact Keeps.refl w
  split
  · exact Keeps.refl w
  -- the stake is reserved, then the books are written
  dsimp only
  split
  · exact reserve_keeps c w who _
  · exact (reserve_keeps c w who _).setStaking _

/-- The two ways out of a staking, by the miner and by the staker, keep the handler. -/
theorem leaveStaking_keeps (miner staker : A) (isSlash : Bool) :
    Keeps w ((updateStakingInfo c w miner staker .Sub none isSlash).andThen fun w =>
      .ok (w.setStaking (stakerRemoveMiner w.staking staker miner))).state :=
  Machine.Outcome.andThen_state_of (P := Keeps w) (updateStakingInfo_keeps c w _ _ _ _ _)
    ((updateStakingInfo_keeps c w _ _ _ _ _).setStaking _)

/-- `update_plot_size` clears the caller's history in PoC, once the size passes its first
checks. -/
theorem updatePlotSize_keepsUpTo (removeHistory : A → H → H) (miner : A) (plotSize : ℕ) :
    KeepsUpTo removeHistory w (updatePlotSize removeHistory w miner plotSize).state := by
  unfold updatePlotSize
  cases checkedMul gibBits plotSize GiB with
  | none => exact (Keeps.refl w).upTo removeHistory
  | some disk =>
    simp only [Option.elim_some, setPlotSize]
    split_ifs
    · exact (Keeps.refl w).upTo removeHistory
    · exact (Keeps.refl w).upTo removeHistory
    · exact ⟨.inr ⟨miner, rfl⟩, rfl⟩
    · exact ⟨.inr ⟨miner, rfl⟩, rfl⟩

/-- `restart_mining` clears the miner's history in PoC when it goes through. -/
theorem restartMining_keepsUpTo (removeHistory : A → H → H) (miner : A) :
    KeepsUpTo removeHistory w (restartMining removeHistory w miner).state := by
  unfold restartMining
  dsimp only
  split_ifs
  · exact (Keeps.refl w).upTo removeHistory
  split
  · exact (Keeps.refl w).upTo removeHistory
  split_ifs
  · exact (Keeps.refl w).upTo removeHistory
  · exact ⟨.inr ⟨miner, rfl⟩, rfl⟩

/-- No call of PocStaking moves the block, and its only write to the handler's storage is
one `remove_history`. -/
theorem dispatch_keepsUpTo (removeHistory : A → H → H) (origin : Origin A) (call : Call A) :
    KeepsUpTo removeHistory w (dispatch c removeHistory w origin call).state := by
  cases origin with
  | root => exact (Keeps.refl w).upTo removeHistory
  | none => exact (Keeps.refl w).upTo removeHistory
  | signed who =>
    cases call with
    | updatePlotSize plotSize => exact updatePlotSize_keepsUpTo w removeHistory who plotSize
    | restartMining => exact restartMining_keepsUpTo w removeHistory who
    -- every other call writes the pallet's storage and the balances only
    | register plotSize numericId minerProportion rewardDest =>
      exact (register_keeps w who plotSize numericId minerProportion rewardDest).upTo _
    | requestUpToList amount => exact (requestUpToList_keeps c w who amount).upTo _
    | requestDownFromList => exact (requestDownFromList_keeps c w who).upTo _
    | updateRewardDest dest => exact (updateRewardDest_keeps w who dest).upTo _
    | updateNumericId numericId => exact (updateNumericId_keeps w who numericId).upTo _
    | stopMining => exact (stopMining_keeps w who).upTo _
    | removeStaker staker => exact (leaveStaking_keeps c w who staker true).upTo _
    | staking miner amount => exact (staking_keeps c w who miner amount).upTo _
    | updateStaking miner operate amount =>
      exact (updateStakingInfo_keeps c w miner who operate _ false).upTo _
    | unlock => exact (lockSubAmount_keeps c w who).upTo _
    | exitStaking miner => exact (leaveStaking_keeps c w miner who false).upTo _
    | updateProportion proportion => exact (updateProportion_keeps w who proportion).upTo _

end IpseCore.PocStaking
