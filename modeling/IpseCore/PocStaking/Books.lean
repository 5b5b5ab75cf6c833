import IpseCore.PocStaking.Ledger
import IpseCore.PocStaking.Frame

/-!
# The books in the storage

`State.ledger` reads the books out of the pallet's storage. Each call of the pallet either
leaves them as they are or acts on them as one of the operations of `LedgerView`, under the
guards it checks; the consistency of the books therefore holds in every reachable state.
-/

namespace IpseCore.PocStaking

open Unsigned

variable {A H : Type} [DecidableEq A]

/-- The books in the pallet's storage. -/
def State.ledger (s : State A) : LedgerView A where
  registered m := (s.diskOf m).isSome
  books m := (s.stakingInfoOf m).map fun info => (info.totalStaking, info.others)
  minersOf := s.minersOf

omit [DecidableEq A] in
theorem State.ledger_books_of {s : State A} {m : A} {info : StakingInfo A}
    (h : s.stakingInfoOf m = some info) :
    s.ledger.books m = some (info.totalStaking, info.others) := by
  simp [State.ledger, h]

/-! ### What does not touch the books -/

section Fields

omit [DecidableEq A]

variable (s : State A)

@[simp] theorem State.ledger_with_locks (l : A → Option (List (ℕ × ℕ))) :
    { s with locks := l }.ledger = s.ledger := rfl

@[simp] theorem State.ledger_with_recommendList (l : List (A × ℕ)) :
    { s with recommendList := l }.ledger = s.ledger := rfl

@[simp] theorem State.ledger_with_isChillTime (b : Bool) :
    { s with isChillTime := b }.ledger = s.ledger := rfl

@[simp] theorem State.ledger_with_miningNum (n : ℕ) :
    { s with miningNum := n }.ledger = s.ledger := rfl

@[simp] theorem State.ledger_with_accountIdOfPid (f : ℕ → Option A) :
    { s with accountIdOfPid := f }.ledger = s.ledger := rfl

@[simp] theorem State.ledger_with_declaredCapacity (n : ℕ) :
    { s with declaredCapacity := n }.ledger = s.ledger := rfl

@[simp] theorem State.ledger_with_miningMiners (m : Finset A) :
    { s with miningMiners := m }.ledger = s.ledger := rfl

@[simp] theorem State.ledger_with_declaredCapacity_miningMiners (n : ℕ) (m : Finset A) :
    { s with declaredCapacity := n, miningMiners := m }.ledger = s.ledger := rfl

/-- The storage without the recommended list and `Locks`: what is left alone by the helpers
that move funds, which write those two items and the balances. -/
def State.core : State A := { s with recommendList := [], locks := fun _ => none }

@[simp] theorem State.core_with_locks (l : A → Option (List (ℕ × ℕ))) :
    { s with locks := l }.core = s.core := rfl

@[simp] theorem State.core_with_recommendList (l : List (A × ℕ)) :
    { s with recommendList := l }.core = s.core := rfl

/-- The books live in the core of the storage. -/
theorem State.ledger_eq_of_core {s' : State A} (h : s'.core = s.core) :
    s'.ledger = s.ledger := by
  have hcore := congrArg State.ledger h
  exact hcore

variable [DecidableEq A] (staker miner : A)

@[simp] theorem stakerRemoveMiner_diskOf : (stakerRemoveMiner s staker miner).diskOf = s.diskOf :=
  rfl

@[simp] theorem stakerRemoveMiner_stakingInfoOf :
    (stakerRemoveMiner s staker miner).stakingInfoOf = s.stakingInfoOf := rfl

/-- `staker_remove_miner` is `LedgerView.removeMiner` on the books. -/
theorem stakerRemoveMiner_ledger :
    (stakerRemoveMiner s staker miner).ledger = s.ledger.removeMiner staker miner := rfl

end Fields

section Frame

variable (c : Config) (w : World A H)

@[simp] theorem mutateDisk_ledger (s : State A) (miner : A) (f : MachineInfo A → MachineInfo A) :
    (mutateDisk s miner f).ledger = s.ledger := by
  ext m
  · by_cases hm : m = miner
    · subst hm
      simp [mutateDisk, State.ledger]
    · simp [mutateDisk, State.ledger, hm]
  · rfl
  · rfl

@[simp] theorem resizeDisk_ledger (s : State A) (miner : A) (disk now : ℕ) :
    (resizeDisk s miner disk now).ledger = s.ledger := by
  unfold resizeDisk
  split
  · rfl
  · simp

omit [DecidableEq A] in
@[simp] theorem updateChill_ledger (s : State A) (now : ℕ) :
    (updateChill c s now).ledger = s.ledger := by
  unfold updateChill
  dsimp only
  split_ifs <;> rfl

@[simp] theorem lock_staking (who : A) (operate : Operate) (amount : ℕ) :
    (lock c w who operate amount).staking = w.staking := by
  cases operate <;> simp only [lock] <;> split_ifs <;> rfl

@[simp] theorem unreserve_staking (who : A) (value : ℕ) :
    (unreserve c w who value).staking = w.staking := rfl

@[simp] theorem slashReserved_staking (who : A) (value : ℕ) :
    (slashReserved c w who value).staking = w.staking := rfl

@[simp] theorem reserve_staking (who : A) (value : ℕ) :
    (reserve c w who value).state.staking = w.staking := by
  unfold reserve
  dsimp only
  split <;> rfl

/-- Releasing due locks only touches balances and `Locks`. -/
theorem foldl_lock_staking (who : A) (now : ℕ) (l : List (ℕ × ℕ)) (w : World A H) :
    (l.foldl (fun w i => if i.1 ≤ now then lock c w who .Sub i.2 else w) w).staking =
      w.staking := by
  induction l generalizing w with
  | nil => rfl
  | cons i l ih =>
    rw [List.foldl_cons, ih]
    split_ifs <;> simp

@[simp] theorem lockAddAmount_core (who : A) (amount expire : ℕ) :
    (lockAddAmount c w who amount expire).staking.core = w.staking.core := by
  unfold lockAddAmount
  dsimp only
  split <;> simp

@[simp] theorem lockSubAmount_core (who : A) :
    (lockSubAmount c w who).staking.core = w.staking.core := by
  unfold lockSubAmount
  split
  · rfl
  · rw [World.setStaking_staking, State.core_with_locks, foldl_lock_staking]

theorem abandonRecommended_core (abandon : List (A × ℕ)) (w : World A H) :
    (abandonRecommended c w abandon).staking.core = w.staking.core := by
  induction abandon generalizing w with
  | nil => rfl
  | cons i l ih =>
    simp only [abandonRecommended, List.foldl_cons] at ih ⊢
    rw [ih]
    simp

theorem sortAfter_core (miner : A) (amount index : ℕ) (oldList : List (A × ℕ)) :
    (sortAfter c w miner amount index oldList).state.staking.core = w.staking.core := by
  unfold sortAfter
  dsimp only
  -- whether the miner is reserved for and inserted, only the list and the locks move
  by_cases hi : index < c.recommendMaxNumber
  · simp only [hi, if_true]
    cases hres : (reserve c w miner amount).result with
    | error e => simp
    | ok u => split_ifs <;> simp [abandonRecommended_core]
  · simp only [hi, if_false, Machine.Outcome.ok_result]
    split_ifs <;> simp [abandonRecommended_core]

theorem sortAccountByAmount_core (miner : A) (amount : ℕ) :
    (sortAccountByAmount c w miner amount).state.staking.core = w.staking.core := by
  unfold sortAccountByAmount
  split
  · exact sortAfter_core c w miner _ _ _
  · split_ifs
    · rfl
    · rw [sortAfter_core]
      simp

@[simp] theorem lockAddAmount_ledger (who : A) (amount expire : ℕ) :
    (lockAddAmount c w who amount expire).staking.ledger = w.staking.ledger :=
  State.ledger_eq_of_core _ (lockAddAmount_core c w who amount expire)

@[simp] theorem lockSubAmount_ledger (who : A) :
    (lockSubAmount c w who).staking.ledger = w.staking.ledger :=
  State.ledger_eq_of_core _ (lockSubAmount_core c w who)

theorem abandonRecommended_ledger (abandon : List (A × ℕ)) (w : World A H) :
    (abandonRecommended c w abandon).staking.ledger = w.staking.ledger :=
  State.ledger_eq_of_core _ (abandonRecommended_core c abandon w)

theorem sortAfter_ledger (miner : A) (amount index : ℕ) (oldList : List (A × ℕ)) :
    (sortAfter c w miner amount index oldList).state.staking.ledger = w.staking.ledger :=
  State.ledger_eq_of_core _ (sortAfter_core c w miner amount index oldList)

theorem sortAccountByAmount_ledger (miner : A) (amount : ℕ) :
    (sortAccountByAmount c w miner amount).state.staking.ledger = w.staking.ledger :=
  State.ledger_eq_of_core _ (sortAccountByAmount_core c w miner amount)

end Frame

/-! ### `update_staking_info` -/

section UpdateStakingInfo

variable (c : Config) (w : World A H) (miner : A)

/-- The tail of `update_staking_info` stores the new entry, or takes the staker out of the
books and the miner out of the staker's `MinersOf` when the bond is gone. -/
theorem storeStakerInfo_ledger (info : StakingInfo A) (stakerInfo : A × ℕ × ℕ)
    (others : List (A × ℕ × ℕ)) (nowBond nowStaking : ℕ) (isSlash : Bool) :
    (storeStakerInfo c w miner info stakerInfo others nowBond nowStaking isSlash).staking.ledger =
      if nowBond = 0 then
        (w.staking.ledger.setBooks miner nowStaking others).removeMiner stakerInfo.1 miner
      else w.staking.ledger.setBooks miner nowStaking (others ++ [(stakerInfo.1, nowBond, stakerInfo.2.2)]) := by
  unfold storeStakerInfo
  dsimp only
  by_cases h0 : nowBond = 0
  · -- the deposit goes back or is slashed; the books only see the staker leave
    have hfunds : (if isSlash = true then slashReserved c w stakerInfo.1 stakerInfo.2.2
        else unreserve c w stakerInfo.1 stakerInfo.2.2).staking = w.staking := by
      split_ifs <;> rfl
    simp only [h0, ↓reduceIte, World.setStaking_staking, hfunds]
    ext m
    · simp [State.ledger]
    · by_cases hm : m = miner
      · subst hm
        simp [State.ledger, LedgerView.setBooks]
      · simp [State.ledger, LedgerView.setBooks, hm]
    · simp [State.ledger, LedgerView.removeMiner, stakerRemoveMiner]
  · simp only [h0, ↓reduceIte, World.setStaking_staking]
    ext m
    · simp [State.ledger]
    · by_cases hm : m = miner
      · subst hm
        simp [State.ledger, LedgerView.setBooks]
      · simp [State.ledger, LedgerView.setBooks, hm]
    · simp [State.ledger]

/-- `update_staking_info` on the books: a rejected call leaves them alone; an accepted one
re-pushes the staker's entry under its new bond unless that is zero, and the total moves by what
the bond moves. -/
theorem updateStakingInfo_cases (staker : A) (operate : Operate) (amountOpt : Option ℕ)
    (isSlash : Bool) :
    let o := updateStakingInfo c w miner staker operate amountOpt isSlash
    ((∃ e, o.result = .error e) ∧ o.state.staking.ledger = w.staking.ledger) ∨
    ∃ info stakerInfo others nowBond nowStaking,
      w.staking.stakingInfoOf miner = some info ∧
      KeyedList.extract Prod.fst staker info.others = some (stakerInfo, others) ∧
      nowStaking + bondOf stakerInfo = info.totalStaking + nowBond ∧
      (operate = .Sub → amountOpt = none → nowBond = 0) ∧
      o.result = .ok () ∧
      o.state.staking.ledger =
        if nowBond = 0 then
          (w.staking.ledger.setBooks miner nowStaking others).removeMiner staker miner
        else w.staking.ledger.setBooks miner nowStaking (others ++ [(staker, nowBond, stakerInfo.2.2)]) := by
  intro o
  unfold o updateStakingInfo
  by_cases hreg : isRegister w.staking miner = false
  · left
    simp [hreg]
  have hreg' : isRegister w.staking miner = true := by simpa using hreg
  simp only [hreg', Bool.not_true, Bool.false_eq_true, ↓reduceIte]
  cases hinfo : w.staking.stakingInfoOf miner with
  | none => left; simp
  | some info =>
    cases hex : KeyedList.extract Prod.fst staker info.others with
    | none => left; simp [hex]
    | some p =>
      obtain ⟨stakerInfo, others⟩ := p
      have hkey : stakerInfo.1 = staker := KeyedList.key_of_extract hex
      simp only [hex]
      -- the amount moved; without one, the whole bond
      set amount := amountOpt.getD stakerInfo.2.1 with hamount
      cases operate with
      | Add =>
        cases hbond : checkedAdd Balances.balanceBits stakerInfo.2.1 amount with
        | none => left; simp
        | some nowBond =>
          cases htotal : checkedAdd Balances.balanceBits info.totalStaking amount with
          | none => left; simp
          | some nowStaking =>
            cases hres : (reserve c w staker amount).result with
            | error e => left; simp
            | ok u =>
              right
              simp only [checkedAdd_eq_some_iff] at hbond htotal
              refine ⟨info, stakerInfo, others, nowBond, nowStaking, rfl, hex, ?_, by simp, rfl, ?_⟩
              · simp only [bondOf]
                omega
              · rw [Machine.Outcome.ok_state, storeStakerInfo_ledger, reserve_staking, hkey]
      | Sub =>
        cases hbond : checkedSub stakerInfo.2.1 amount with
        | none => left; simp
        | some nowBond =>
          cases htotal : checkedSub info.totalStaking amount with
          | none => left; simp
          | some nowStaking =>
            right
            simp only [checkedSub_eq_some_iff] at hbond htotal
            refine ⟨info, stakerInfo, others, nowBond, nowStaking, rfl, hex, ?_, ?_, rfl, ?_⟩
            · simp only [bondOf]
              omega
            · rintro - rfl
              simp only [hamount, Option.getD_none] at hbond
              omega
            · rw [Machine.Outcome.ok_state, storeStakerInfo_ledger, lockAddAmount_ledger,
                unreserve_staking, hkey]

end UpdateStakingInfo

/-! ### Every call keeps the books consistent -/

section Calls

variable {c : Config} {w : World A H}

omit [DecidableEq A] in
/-- With consistent books, `is_register` asks only whether the disk is stored. -/
theorem isRegister_eq_registered {s : State A} (h : LedgerView.Inv c s.ledger) (m : A) :
    isRegister s m = s.ledger.registered m := by
  have hreg := h.registered_eq m
  simp only [State.ledger, Option.isSome_map] at hreg ⊢
  simp [isRegister, hreg]

theorem updateStakingInfo_inv (h : LedgerView.Inv c w.staking.ledger) (miner staker : A)
    (operate : Operate) (amountOpt : Option ℕ) (isSlash : Bool) :
    LedgerView.Inv c
      (updateStakingInfo c w miner staker operate amountOpt isSlash).state.staking.ledger := by
  rcases updateStakingInfo_cases c w miner staker operate amountOpt isSlash with
    ⟨-, hsame⟩ | ⟨info, e, others, nowBond, nowStaking, hinfo, hex, htotal, -, -, hledger⟩
  · rw [hsame]
    exact h
  · have hbooks := State.ledger_books_of hinfo
    rw [hledger]
    split_ifs with h0
    · exact h.removeStaker hbooks hex (by omega)
    · exact h.replaceStaker hbooks hex htotal (Nat.pos_of_ne_zero h0) _

/-- `remove_staker` and `exit_Staking`: `update_staking_info` with no amount, then
`staker_remove_miner`, which finds nothing more to remove. -/
theorem leaveStaking_inv (h : LedgerView.Inv c w.staking.ledger) (miner staker : A)
    (isSlash : Bool) :
    LedgerView.Inv c ((updateStakingInfo c w miner staker .Sub none isSlash).andThen fun w =>
      .ok (w.setStaking (stakerRemoveMiner w.staking staker miner))).state.staking.ledger := by
  rcases updateStakingInfo_cases c w miner staker .Sub none isSlash with
    ⟨⟨err, herr⟩, hsame⟩ |
      ⟨info, e, others, nowBond, nowStaking, hinfo, hex, htotal, hzero, hok, hledger⟩
  · rw [Machine.Outcome.andThen_of_error herr, hsame]
    exact h
  · have h0 : nowBond = 0 := hzero rfl rfl
    have hbooks := State.ledger_books_of hinfo
    rw [Machine.Outcome.andThen_of_ok hok, Machine.Outcome.ok_state, World.setStaking_staking,
      stakerRemoveMiner_ledger, hledger, if_pos h0, LedgerView.removeMiner_removeMiner]
    exact h.removeStaker hbooks hex (by omega)

/-- `register` adds a miner with empty books, and only one that is not registered. -/
theorem register_inv (h : LedgerView.Inv c w.staking.ledger) (miner : A)
    (plotSize numericId minerProportion : ℕ) (rewardDest : Option A) :
    LedgerView.Inv c
      (register w miner plotSize numericId minerProportion rewardDest).state.staking.ledger := by
  simp only [register]
  cases hdisk : checkedMul gibBits plotSize GiB with
  | none => split_ifs <;> exact h
  | some disk =>
    split_ifs with hzero hreg hpid
    · exact h
    · exact h
    · exact h
    · have hnew : w.staking.ledger.registered miner = false := by
        rw [← isRegister_eq_registered h]
        simpa using hreg
      rw [Machine.Outcome.ok_state, World.setStaking_staking]
      -- the storage written is the old one with the miner registered
      convert h.register hnew using 1
      ext m
      · by_cases hm : m = miner
        · subst hm
          simp [State.ledger]
        · simp [State.ledger, LedgerView.register, hm]
      · by_cases hm : m = miner
        · subst hm
          simp [State.ledger]
        · simp [State.ledger, LedgerView.register, hm]
      · rfl

/-- `staking` adds a new staker with a bond of at least `PocStakingMinAmount` to a miner
with room for it. -/
theorem staking_inv (hmin : 0 < c.pocStakingMinAmount) (h : LedgerView.Inv c w.staking.ledger)
    (who miner : A) (amount : ℕ) :
    LedgerView.Inv c (staking c w who miner amount).state.staking.ledger := by
  unfold staking
  cases hcan : isCanMining w.staking miner with
  | error e => exact h
  | ok b =>
    dsimp only
    split_ifs with hchill hlow hstaked
    · exact h
    · exact h
    · exact h
    cases hbond : checkedAdd Balances.balanceBits amount c.stakingDeposit with
    | none => exact h
    | some bond =>
      cases hinfo : w.staking.stakingInfoOf miner with
      | none => exact h
      | some info =>
        dsimp only
        split_ifs with hfull
        · exact h
        cases htotal : checkedAdd Balances.balanceBits info.totalStaking amount with
        | none => exact h
        | some nowAmount =>
          cases hres : (reserve c w who bond).result with
          | error e => simpa using h
          | ok u =>
            have hbooks := State.ledger_books_of hinfo
            have hfresh : who ∉ info.others.map Prod.fst := by
              rw [← KeyedList.position_eq_none_iff]
              simpa [stakerPos, hinfo] using hstaked
            have hnow : nowAmount = info.totalStaking + amount :=
              ((checkedAdd_eq_some_iff).mp htotal).2
            have hpos : 0 < amount := by omega
            dsimp only
            rw [Machine.Outcome.ok_state, World.setStaking_staking]
            -- the storage written is the old one with the staker added
            convert h.addStaker hbooks hfresh (by omega) hpos c.stakingDeposit using 1
            rw [hnow]
            ext m
            · simp [State.ledger]
            · by_cases hm : m = miner
              · subst hm
                simp [State.ledger]
              · simp [State.ledger, LedgerView.books_setBooks_of_ne _ _ _ _ hm, hm]
            · by_cases hm : m = who
              · subst hm
                simp [State.ledger]
              · simp [State.ledger, LedgerView.minersOf_addMiner_of_ne _ _ _ hm, hm]

/-! The remaining calls leave the books alone. -/

theorem requestUpToList_ledger (miner : A) (amount : ℕ) :
    (requestUpToList c w miner amount).state.staking.ledger = w.staking.ledger := by
  unfold requestUpToList
  split
  · rfl
  · rfl
  · exact sortAccountByAmount_ledger c w miner amount

theorem requestDownFromList_ledger (miner : A) :
    (requestDownFromList c w miner).state.staking.ledger = w.staking.ledger := by
  unfold requestDownFromList
  split
  · rfl
  · simp

theorem updateRewardDest_ledger (miner dest : A) :
    (updateRewardDest w miner dest).state.staking.ledger = w.staking.ledger := by
  unfold updateRewardDest
  split_ifs <;> simp

theorem updateNumericId_ledger (miner : A) (numericId : ℕ) :
    (updateNumericId w miner numericId).state.staking.ledger = w.staking.ledger := by
  simp only [updateNumericId]
  split_ifs
  · rfl
  · rfl
  · split
    · rfl
    · simp

theorem setPlotSize_ledger (removeHistory : A → H → H) (miner : A) (disk : ℕ) :
    (setPlotSize removeHistory w miner disk).state.staking.ledger = w.staking.ledger := by
  unfold setPlotSize
  dsimp only
  split_ifs <;> simp

theorem updatePlotSize_ledger (removeHistory : A → H → H) (miner : A) (plotSize : ℕ) :
    (updatePlotSize removeHistory w miner plotSize).state.staking.ledger = w.staking.ledger := by
  unfold updatePlotSize
  cases checkedMul gibBits plotSize GiB with
  | none => rfl
  | some disk => exact setPlotSize_ledger removeHistory miner disk

theorem stopMining_ledger (miner : A) :
    (stopMining w miner).state.staking.ledger = w.staking.ledger := by
  simp only [stopMining]
  split
  · rfl
  · split <;> simp

theorem restartMining_ledger (removeHistory : A → H → H) (miner : A) :
    (restartMining removeHistory w miner).state.staking.ledger = w.staking.ledger := by
  simp only [restartMining]
  split_ifs
  · rfl
  · split
    · rfl
    · split_ifs <;> simp

/-- `update_proportion` stores the staking info back with only the proportion changed. -/
theorem updateProportion_ledger (miner : A) (proportion : Percent) :
    (updateProportion w miner proportion).state.staking.ledger = w.staking.ledger := by
  simp only [updateProportion]
  split_ifs
  · rfl
  · split
    · rfl
    · rfl
    · rename_i info _ hinfo
      ext m
      · rfl
      · by_cases hm : m = miner
        · subst hm
          simp [State.ledger, hinfo]
        · simp [State.ledger, hm]
      · rfl

/-- Every call keeps the books consistent. -/
theorem dispatch_inv (hmin : 0 < c.pocStakingMinAmount) (removeHistory : A → H → H)
    (h : LedgerView.Inv c w.staking.ledger) (origin : Origin A) (call : Call A) :
    LedgerView.Inv c (dispatch c removeHistory w origin call).state.staking.ledger := by
  cases origin with
  | root => exact h
  | none => exact h
  | signed who =>
    cases call with
    | register plotSize numericId minerProportion rewardDest =>
      exact register_inv h who plotSize numericId minerProportion rewardDest
    | requestUpToList amount => rw [dispatch, requestUpToList_ledger]; exact h
    | requestDownFromList => rw [dispatch, requestDownFromList_ledger]; exact h
    | updateRewardDest dest => rw [dispatch, updateRewardDest_ledger]; exact h
    | updateNumericId numericId => rw [dispatch, updateNumericId_ledger]; exact h
    | updatePlotSize plotSize => rw [dispatch, updatePlotSize_ledger]; exact h
    | stopMining => rw [dispatch, stopMining_ledger]; exact h
    | restartMining => rw [dispatch, restartMining_ledger]; exact h
    | removeStaker staker => exact leaveStaking_inv h who staker true
    | staking miner amount => exact staking_inv hmin h who miner amount
    | updateStaking miner operate amount =>
      exact updateStakingInfo_inv h miner who operate (some amount) false
    | unlock => simpa [dispatch, unlock] using h
    | exitStaking miner => exact leaveStaking_inv h miner who false
    | updateProportion proportion => rw [dispatch, updateProportion_ledger]; exact h

end Calls

/-! ### Over whole runs -/

omit [DecidableEq A] in
theorem State.empty_inv (c : Config) : LedgerView.Inv c (State.empty : State A).ledger where
  registered_eq _ := rfl
  wellFormed _ _ _ h := by simp [State.empty, State.ledger] at h
  minersOf_iff _ _ := by simp [State.empty, State.ledger, LedgerView.stakers]
  minersOf_nodup _ := List.nodup_nil

theorem step_inv {c : Config} (hmin : 0 < c.pocStakingMinAmount) (removeHistory : A → H → H)
    {w : World A H} (h : LedgerView.Inv c w.staking.ledger) (e : Event A H) :
    LedgerView.Inv c (step c removeHistory w e).staking.ledger := by
  cases e with
  | call origin call => exact dispatch_inv hmin removeHistory h origin call
  | nextBlock => simpa [step, onInitialize, onFinalize] using h
  | external balances handler => exact h

/-- The books are consistent in every state the pallet reaches. -/
theorem reachable_inv {c : Config} (hmin : 0 < c.pocStakingMinAmount)
    (removeHistory : A → H → H) (balances : Balances.State A) (handler : H) {w : World A H}
    (hw : (machine c removeHistory balances handler).Reachable w) :
    LedgerView.Inv c w.staking.ledger := by
  induction hw with
  | init => exact State.empty_inv c
  | step e _ ih => exact step_inv hmin removeHistory ih e

/-- In every reachable state, each registered miner's `StakingInfoOf` totals its distinct,
positive bonds, at most `StakerMaxNumber` of them, and `MinersOf` lists the miner for exactly
its stakers, once each. -/
theorem registered_books_consistent {c : Config} (hmin : 0 < c.pocStakingMinAmount)
    (removeHistory : A → H → H) (balances : Balances.State A) (handler : H) {w : World A H}
    (hw : (machine c removeHistory balances handler).Reachable w) {m : A}
    (hreg : isRegister w.staking m = true) :
    ∃ info, w.staking.stakingInfoOf m = some info ∧
      info.totalStaking = (info.others.map fun e => e.2.1).sum ∧
      (info.others.map Prod.fst).Nodup ∧
      (∀ e ∈ info.others, 0 < e.2.1) ∧
      info.others.length ≤ c.stakerMaxNumber ∧
      (∀ st, m ∈ w.staking.minersOf st ↔ st ∈ info.others.map Prod.fst) ∧
      ∀ st, (w.staking.minersOf st).Nodup := by
  have hi := reachable_inv hmin removeHistory balances handler hw
  obtain ⟨info, hinfo⟩ : ∃ info, w.staking.stakingInfoOf m = some info := by
    simp only [isRegister, Bool.and_eq_true] at hreg
    exact Option.isSome_iff_exists.mp hreg.2
  have hbooks := State.ledger_books_of hinfo
  have hwf := hi.wellFormed m _ _ hbooks
  refine ⟨info, hinfo, hwf.total_eq, hwf.nodup, hwf.bond_pos, hwf.length_le, fun st => ?_,
    hi.minersOf_nodup⟩
  -- `MinersOf` is the inverse of the staker lists of the books
  rw [show w.staking.minersOf st = w.staking.ledger.minersOf st from rfl, hi.minersOf_iff]
  simp [LedgerView.stakers, hbooks]

/-- Miner 1 registers at genesis: its books are empty and consistent. -/
theorem registered_books_consistent_after_register :
    let w := (machine runtimeConfig (fun _ h => h) ⟨fun _ => none, fun _ => [], 0⟩ ()).run
      [(.call (.signed 1) (.register 1 0 50 none) : Event ℕ Unit)]
    ∃ info, w.staking.stakingInfoOf 1 = some info ∧
      info.totalStaking = (info.others.map fun e => e.2.1).sum ∧
      (info.others.map Prod.fst).Nodup ∧
      (∀ e ∈ info.others, 0 < e.2.1) ∧
      info.others.length ≤ runtimeConfig.stakerMaxNumber ∧
      (∀ st, 1 ∈ w.staking.minersOf st ↔ st ∈ info.others.map Prod.fst) ∧
      ∀ st, (w.staking.minersOf st).Nodup :=
  registered_books_consistent (by decide) _ _ _ (Machine.reachable_run _ _) (by decide)

end IpseCore.PocStaking
