import IpseCore.Poc.Log
import IpseCore.PocStaking.Frame
import IpseCore.Runtime.Mining
import IpseCore.Poc.Schedule

/-!
# Mining cycles in the runtime

Over every run of the runtime, `DlInfo` is a record of the mining cycles against the
`mining` calls the run accepted: cycles strictly increase along it, a miner's entry is the
best deadline accepted in its cycle and the miner is the one that submitted it, and a
treasury entry stands only for a cycle in which no deadline was accepted. Every event keeps
`LogInv` (`logInv_step`): the calls of PocStaking only clear histories, and PoC's root
calls, its payments, its difficulty and the hooks of the other pallet leave the log alone.

`on_finalize` pays the cycle that ends. The first cycle is the exception: with no deadline
in block one, the log is still empty, `get_last_mining_block` reads block `0`, of the same
cycle, and nobody is paid for it.
-/

namespace IpseCore.Runtime

open Poc

variable {A : Type} [DecidableEq A] (c : Poc.Config A) (balances : Balances.State A)

/-- The deadline that an event submits, when it is a `mining` call that is accepted. -/
def acceptedSubmission : Poc.World A × Event A → Option (Submission A)
  | (w, .poc (.signed miner) (.mining accountId height sig nonce deadline)) =>
    if (Poc.mining c w miner accountId height sig nonce deadline).accepted then
      some ⟨miner, w.blockNumber, deadline⟩
    else none
  | _ => none

/-- The deadlines that the `mining` calls of a run got accepted, in order. -/
def acceptedMining (es : List (Event A)) : List (Submission A) :=
  ((machine c balances).trace es).filterMap (acceptedSubmission c)

theorem acceptedMining_append_singleton (es : List (Event A)) (e : Event A) :
    acceptedMining c balances (es ++ [e]) =
      acceptedMining c balances es ++
        (acceptedSubmission c ((machine c balances).run es, e)).toList := by
  unfold acceptedMining
  rw [Machine.trace_append_singleton, List.filterMap_append, List.filterMap_cons,
    List.filterMap_nil]
  cases acceptedSubmission c ((machine c balances).run es, e) <;> rfl

/-- The end of a block: PoC's `on_finalize` panics and the chain stays, or the block moves
on with the log that `on_finalize` left. -/
theorem nextBlock_eq (w : Poc.World A) :
    (Poc.onFinalize c w = none ∧ nextBlock c w = w) ∨
    ∃ w₁, Poc.onFinalize c w = some w₁ ∧
      (nextBlock c w).blockNumber = w₁.blockNumber + 1 ∧
      (nextBlock c w).handler.dlInfo = w₁.handler.dlInfo := by
  cases hfin : Poc.onFinalize c w with
  | none => exact .inl ⟨rfl, by simp only [nextBlock, hfin]⟩
  | some w₁ =>
    refine .inr ⟨w₁, rfl, ?_⟩
    -- PocStaking's hooks touch its own storage, PoC's `on_initialize` the difficulty only
    have hinit := onInitialize_keepsLog c
      ({ PocStaking.onFinalize w₁ with blockNumber := w₁.blockNumber + 1 } : Poc.World A)
    simp only [nextBlock, hfin]
    exact ⟨hinit.blockNumber_eq, hinit.dlInfo_eq⟩

variable {c}

/-- Every event of the runtime keeps the record, with the deadline it got accepted. -/
theorem logInv_step {subs : List (Submission A)} {w : Poc.World A}
    (h : LogInv subs w.blockNumber w.handler.dlInfo) (e : Event A) :
    LogInv (subs ++ (acceptedSubmission c (w, e)).toList) (step c w e).blockNumber
      (step c w e).handler.dlInfo := by
  cases e with
  | pocStaking origin call =>
    -- PocStaking writes PoC's storage only through `remove_history`
    have hframe := PocStaking.dispatch_keepsUpTo c.staking w Poc.removeHistory origin call
    have hkeep : KeepsLog w (step c w (.pocStaking origin call)) := by
      refine ⟨?_, hframe.blockNumber_eq⟩
      rcases hframe.handler_eq with hh | ⟨m, hh⟩
      · exact congrArg State.dlInfo hh
      · -- `remove_history` clears a history and keeps the log
        exact (congrArg State.dlInfo hh).trans (removeHistory_dlInfo m w.handler)
    simpa only [acceptedSubmission, Option.toList_none, List.append_nil] using h.of_keepsLog hkeep
  | poc origin call =>
    cases origin <;> cases call
    case signed.mining miner accountId height sig nonce deadline =>
      obtain ⟨hblock, ⟨hacc, hlog⟩ | ⟨hacc, hbest, hlog⟩⟩ :=
        mining_log c w miner accountId height sig nonce deadline
      · have hkeep : KeepsLog w (step c w (.poc (.signed miner)
            (.mining accountId height sig nonce deadline))) := ⟨hlog, hblock⟩
        simpa only [acceptedSubmission, hacc, Bool.false_eq_true, if_false, Option.toList_none,
          List.append_nil] using h.of_keepsLog hkeep
      · simp only [acceptedSubmission, hacc, if_true, Option.toList_some]
        change LogInv _ (mining c w miner accountId height sig nonce deadline).state.blockNumber
          (mining c w miner accountId height sig nonce deadline).state.handler.dlInfo
        rw [hblock, hlog]
        exact h.accept miner hbest
    -- every other call of PoC leaves the log alone
    all_goals
      simpa only [step, acceptedSubmission, Option.toList_none, List.append_nil] using
        h.of_keepsLog (dispatch_keepsLog c w _ _ (by simp))
  | nextBlock =>
    rcases nextBlock_eq c w with ⟨-, hw⟩ | ⟨w₁, hfin, hblock, hlog⟩
    · simpa only [step, hw, acceptedSubmission, Option.toList_none, List.append_nil] using h
    · simp only [acceptedSubmission, Option.toList_none, List.append_nil, step]
      rw [hblock, hlog]
      obtain ⟨hblock₁, hkept | ⟨hend, hcycle, hlog₁⟩⟩ := onFinalize_log c hfin
      · rw [hblock₁, hkept]
        exact h.tick
      · rw [hblock₁, hlog₁]
        exact h.close c hend hcycle
  | external b =>
    simpa only [step, acceptedSubmission, Option.toList_none, List.append_nil] using
      h.of_keepsLog (⟨rfl, rfl⟩ : KeepsLog w (w.setBalances b))

variable (c)

/-- Over every run, the log records the accepted deadlines. -/
theorem logInv_run (es : List (Event A)) :
    LogInv (acceptedMining c balances es) ((machine c balances).run es).blockNumber
      ((machine c balances).run es).handler.dlInfo := by
  induction es using List.reverseRecOn with
  | nil => exact LogInv.nil _
  | append_singleton es e ih =>
    rw [acceptedMining_append_singleton, Machine.run_append_singleton]
    exact logInv_step ih e

/-- Over every run, `DlInfo` has strictly increasing cycles; a miner's entry holds the least
deadline accepted from it by `mining` in that cycle, and a treasury entry a cycle in which no
`mining` call was accepted. -/
theorem dlInfo_records_best_deadlines (c : Poc.Config A) (balances : Balances.State A)
    (es : List (Event A)) :
    ((machine c balances).run es).handler.dlInfo.IsChain
        (fun a b => a.block / MiningExpire < b.block / MiningExpire) ∧
    (∀ e ∈ ((machine c balances).run es).handler.dlInfo, ∀ m, e.miner = some m →
      ⟨m, e.block, e.bestDl⟩ ∈ acceptedMining c balances es ∧
      ∀ s ∈ acceptedMining c balances es,
        s.block / MiningExpire = e.block / MiningExpire → e.bestDl ≤ s.deadline) ∧
    (∀ e ∈ ((machine c balances).run es).handler.dlInfo, e.miner = none →
      ∀ s ∈ acceptedMining c balances es, s.block / MiningExpire ≠ e.block / MiningExpire) := by
  have h := logInv_run c balances es
  exact ⟨h.ordered.isChain, h.mined, fun e he hnone => (h.treasury e he hnone).2⟩

/-! ### The first cycle -/

/-- With an empty log, the payment at the end of the first cycle finds no entry and pays
nobody: `get_last_mining_block` reads block `0`, of the same cycle. -/
theorem payCycle_of_dlInfo_nil {w : Poc.World A} {currentBlock reward : ℕ}
    (hnil : w.handler.dlInfo = []) (hcycle : currentBlock / MiningExpire = 0) :
    payCycle c w currentBlock reward = some w := by
  have hlast : getLastMiningBlock w.handler = 0 := by
    unfold getLastMiningBlock
    rw [hnil, List.getLast?_nil]
  unfold payCycle
  rw [if_pos (by rw [hlast, hcycle, Nat.zero_div]), hnil, List.getLast?_nil]

/-- In the runtime's configuration, the end of block one with no deadline pays nobody for the
first cycle, although `get_reward_amount` gives it a positive reward. -/
theorem first_cycle_unpaid (treasuryId : A) (scoopTarget : ℕ → ℕ → Signature → ℕ → ℕ)
    (balances : Balances.State A) :
    0 < (getRewardAmount (Poc.runtimeConfig treasuryId scoopTarget) 1).getD 0 ∧
    ((machine (Poc.runtimeConfig treasuryId scoopTarget) balances).run [.nextBlock]).blockNumber =
      2 ∧
    ((machine (Poc.runtimeConfig treasuryId scoopTarget) balances).run
      [.nextBlock]).handler.dlInfo = [] ∧
    ((machine (Poc.runtimeConfig treasuryId scoopTarget) balances).run [.nextBlock]).balances =
      balances := by
  set c := Poc.runtimeConfig treasuryId scoopTarget
  set g := genesis c balances
  have hblock : g.blockNumber = 1 := rfl
  have hnil : g.handler.dlInfo = [] := rfl
  -- block one ends its cycle with the log still empty
  set w₁ := (g.setPoc (rotateActiveMiners g.handler 1)).setPoc
    (adjustAndMeasure c (rotateActiveMiners g.handler 1) 1)
  have hfin : Poc.onFinalize c g = some w₁ := by
    unfold Poc.onFinalize
    simp only [hblock, getRewardAmount_eq]
    rw [if_pos (show (1 + 1) % MiningExpire = 0 by decide),
      payCycle_of_dlInfo_nil c (by rw [World.setPoc_handler, rotateActiveMiners_dlInfo, hnil])
        (by decide)]
    rfl
  have hrun : (machine c balances).run [.nextBlock] =
      PocStaking.onInitialize c.staking
        (Poc.onInitialize c { PocStaking.onFinalize w₁ with
          blockNumber := (PocStaking.onFinalize w₁).blockNumber + 1 }) := by
    change nextBlock c g = _
    simp only [nextBlock, hfin]
  have hreward : 0 < (getRewardAmount c 1).getD 0 := by
    rw [getRewardAmount_eq, Option.getD_some, periodReward,
      show c.totalMiningReward = 500000000 * DOLLARS from rfl]
    decide
  rw [hrun]
  exact ⟨hreward, rfl, rfl, rfl⟩

end IpseCore.Runtime
