import IpseCore.Runtime.Storage
import IpseCore.Runtime.Mining
import IpseCore.Poc.Schedule
import IpseCore.PocStaking.Funds

/-!
# The total issuance in the runtimes

Of all the calls and hooks of the IPSE pallets, only PoC's payments mint. PocStaking and Ipse
move funds through `ReservableCurrency` and `LockableCurrency` alone (`PocStaking.dispatch_moves`,
`Ipse.dispatch_reserves`), and no such call raises the total issuance. So the storage runtime
never raises it (`issuance_never_grows`).

In the mining runtime PoC's `on_finalize` pays the reward of a cycle at its last block, and
nothing at the others (`onFinalize_pays_cycleReward`): after any run the issuance has grown by
at most what the blocks passed are paid, and the halvings of `get_reward_amount` add up to at
most `TotalMiningReward` (`issuance_within_total_reward`). The rest of the runtime, which the
`external` events stand for, has pallets that mint on their own and is left out.
-/

namespace IpseCore.Runtime.Storage

variable {A H : Type} [DecidableEq A] (c : Config) (removeHistory : A → H → H)

/-- Every event of the storage runtime moves the balances by reservations and locks alone. -/
theorem step_moves (w : World A H) (e : Event A) :
    Balances.Moves w.balances (step c removeHistory w e).balances := by
  cases e with
  | pocStaking origin call =>
    exact PocStaking.dispatch_moves c.staking w.toStaking removeHistory origin call
  | ipse origin call => exact (Ipse.dispatch_reserves c.ipse w.toIpse origin call).moves
  | nextBlock dt =>
    -- Ipse's `on_finalize` repatriates; PocStaking's hooks write its storage only
    exact (Ipse.onFinalize_reserves c.ipse w.toIpse).moves

/-- The storage runtime never raises the total issuance: along every run, from any balances,
the calls and hooks of PocStaking and Ipse reserve, release, slash, repatriate and lock, and
none of these mints. -/
theorem issuance_never_grows (balances : Balances.State A) (handler : H) (es : List (Event A)) :
    ((machine c removeHistory balances handler).run es).balances.totalIssuance ≤
      balances.totalIssuance :=
  Balances.Moves.totalIssuance_le
    ((machine c removeHistory balances handler).reflTransGen_of_reachable World.balances
      (fun w e _ => step_moves c removeHistory w e) (Machine.reachable_run _ es))

end IpseCore.Runtime.Storage

namespace IpseCore.Runtime

open Poc Finset

variable {A : Type} [DecidableEq A] (c : Poc.Config A) (balances : Balances.State A)

/-- A change of the balances by the rest of the runtime. -/
def Event.isExternal : Event A → Bool
  | .external _ => true
  | _ => false

/-- PoC's `on_finalize` of a block mints at most what the block is paid: the cycle's reward at
its last block, nothing at the others. -/
theorem onFinalize_pays_cycleReward {w w' : Poc.World A} (h : Poc.onFinalize c w = some w')
    (hbooks : BooksCovered w.staking) : Pays (cycleReward c w.blockNumber) w w' := by
  unfold cycleReward
  split_ifs with hlast
  · exact onFinalize_pays c h hbooks
  · -- off the last block of a cycle only the pallet's storage is written
    unfold Poc.onFinalize at h
    cases hr : getRewardAmount c w.blockNumber with
    | none =>
      simp only [hr, Option.some.injEq] at h
      subst h
      exact (Pays.refl 0 w).setPoc _
    | some r =>
      simp only [hr, if_neg hlast, Option.map_some, Option.some.injEq] at h
      subst h
      exact ((Pays.refl 0 w).setPoc _).setPoc _

/-- The books PoC pays stakers from cover their bonds in every state the runtime reaches. -/
theorem booksCovered_of_reachable (hmin : 0 < c.staking.pocStakingMinAmount) {w : Poc.World A}
    (hw : (machine c balances).Reachable w) : BooksCovered w.staking := fun m _ hinfo =>
  ((reachable_ledger_inv c balances hmin hw).wellFormed m _ _
    (PocStaking.State.ledger_books_of hinfo)).total_eq.ge

/-- A block boundary that PoC's `on_finalize` lets through: the balances it leaves, one block
later. -/
theorem nextBlock_of_onFinalize {w w₁ : Poc.World A} (h : Poc.onFinalize c w = some w₁) :
    (nextBlock c w).balances = w₁.balances ∧ (nextBlock c w).blockNumber = w₁.blockNumber + 1 := by
  simp only [nextBlock, h]
  rw [onInitialize_eq_setPoc]
  exact ⟨rfl, rfl⟩

omit [DecidableEq A] in
theorem genesis_balances : (genesis c balances).balances = balances := by
  simp only [genesis]
  rw [onInitialize_eq_setPoc]
  rfl

/-- One event of the runtime, not from outside it, keeps the issuance within `b₀` and the
payments of the blocks passed: PocStaking's calls and PoC's calls mint nothing and keep the
block, and a block boundary mints at most what the block ending is paid. -/
theorem step_issuance_le (hmin : 0 < c.staking.pocStakingMinAmount) {w : Poc.World A}
    (hw : (machine c balances).Reachable w) (e : Event A) (he : e.isExternal = false) {b₀ : ℕ}
    (hI : w.balances.totalIssuance ≤ b₀ + ∑ n ∈ range w.blockNumber, cycleReward c n) :
    (step c w e).balances.totalIssuance ≤
      b₀ + ∑ n ∈ range (step c w e).blockNumber, cycleReward c n := by
  cases e with
  | pocStaking origin call =>
    have hmoves := PocStaking.dispatch_moves c.staking w Poc.removeHistory origin call
    have hblock := (PocStaking.dispatch_keepsUpTo c.staking w Poc.removeHistory origin
      call).blockNumber_eq
    simp only [step] at hblock ⊢
    rw [hblock]
    exact (Balances.Moves.totalIssuance_le hmoves).trans hI
  | poc origin call =>
    simp only [step]
    rw [dispatch_eq_setPoc]
    exact hI
  | nextBlock =>
    cases hfin : Poc.onFinalize c w with
    | none =>
      -- a block that cannot be built leaves the chain where it is
      simp only [step, nextBlock, hfin]
      exact hI
    | some w₁ =>
      have hpays := onFinalize_pays_cycleReward c hfin (booksCovered_of_reachable c balances hmin hw)
      obtain ⟨hbal, hblock⟩ := nextBlock_of_onFinalize c hfin
      simp only [step]
      rw [hbal, hblock, hpays.blockNumber_eq, sum_range_succ]
      calc w₁.balances.totalIssuance
          ≤ w.balances.totalIssuance + cycleReward c w.blockNumber := hpays.issuance_le
        _ ≤ b₀ + ∑ n ∈ range w.blockNumber, cycleReward c n + cycleReward c w.blockNumber :=
          Nat.add_le_add_right hI _
        _ = b₀ + (∑ n ∈ range w.blockNumber, cycleReward c n + cycleReward c w.blockNumber) :=
          Nat.add_assoc _ _ _
  | external b => simp [Event.isExternal] at he

/-- The mining runtime mints at most `TotalMiningReward`: along every run from genesis made of
the calls of PocStaking and PoC and of block boundaries, the total issuance grows by at most
`TotalMiningReward` over the initial balances, as long as the staking minimum is positive. -/
theorem issuance_within_total_reward (hmin : 0 < c.staking.pocStakingMinAmount)
    (es : List (Event A)) (hext : ∀ e ∈ es, e.isExternal = false) :
    ((machine c balances).run es).balances.totalIssuance ≤
      balances.totalIssuance + c.totalMiningReward := by
  -- the invariant: reachable, and within the payments of the blocks passed
  have hinit : (machine c balances).Reachable (machine c balances).init ∧
      (machine c balances).init.balances.totalIssuance ≤ balances.totalIssuance +
        ∑ n ∈ range (machine c balances).init.blockNumber, cycleReward c n := by
    refine ⟨.init, ?_⟩
    show (genesis c balances).balances.totalIssuance ≤ _
    rw [genesis_balances]
    exact Nat.le_add_right _ _
  have hrun := (machine c balances).run_guarded_induction
    (P := fun w => (machine c balances).Reachable w ∧ w.balances.totalIssuance ≤
      balances.totalIssuance + ∑ n ∈ range w.blockNumber, cycleReward c n)
    (G := fun _ => True) (Q := fun e => e.isExternal = false) hinit
    (fun w e he hP _ => ⟨hP.1.step e, step_issuance_le c balances hmin hP.1 e he hP.2⟩)
    es hext (fun _ _ => trivial)
  exact hrun.2.trans (Nat.add_le_add_left (sum_range_cycleReward_le c _) _)

/-- Three blocks pass from empty balances with no miner: the first cycle is paid to nobody, and
at block 3 the second cycle's reward is minted for the treasury, account 0. -/
theorem issuance_within_total_reward_three_blocks :
    let c := Poc.runtimeConfig 0 fun _ _ _ _ => 0
    let b : Balances.State ℕ := ⟨fun _ => none, fun _ => [], 0⟩
    let es : List (Event ℕ) := [.nextBlock, .nextBlock, .nextBlock]
    0 < c.staking.pocStakingMinAmount ∧ (∀ e ∈ es, e.isExternal = false) ∧
      0 < ((machine c b).run es).balances.totalIssuance ∧
      ((machine c b).run es).balances.totalIssuance ≤ b.totalIssuance + c.totalMiningReward :=
  ⟨by decide, by decide, by decide +kernel,
    issuance_within_total_reward _ _ (by decide) _ (by decide)⟩

end IpseCore.Runtime
