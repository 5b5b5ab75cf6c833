import IpseCore.Runtime.Difficulty

/-!
# Active miners

`ActiveMiners` holds the accounts that called `mining` since the last rotation, and their
number. `mining` adds its caller before any of its checks, and a failed call is not reverted,
so every rejected call but a panic leaves its caller in `ActiveMiners`, whether or not the
account ever registered. What does hold in every state the runtime reaches is the
bookkeeping: each count is the size of its set, reduced as the `u32` that `+= 1` wraps.
-/

namespace IpseCore.Poc

open Unsigned

variable {A : Type}

/-- Each count of `ActiveMiners` is the size of its set, as a `u32`. -/
structure ActiveMiners.Counted (m : ActiveMiners A) : Prop where
  now_eq : m.nowCount = m.now.card % 2 ^ 32
  last_eq : m.lastCount = m.last.card % 2 ^ 32

theorem rotateActiveMiners_counted {p : State A} (h : p.activeMiners.Counted) (n : ℕ) :
    (rotateActiveMiners p n).activeMiners.Counted := by
  unfold rotateActiveMiners
  split_ifs
  · exact ⟨by simp, h.now_eq⟩
  · exact h

variable (c : Config A)

theorem onInitialize_activeMiners (w : World A) :
    (onInitialize c w).handler.activeMiners = w.handler.activeMiners := by
  unfold onInitialize
  split_ifs <;> rfl

theorem adjustAndMeasure_activeMiners (p : State A) (currentBlock : ℕ) :
    (adjustAndMeasure c p currentBlock).activeMiners = p.activeMiners := by
  unfold adjustAndMeasure
  dsimp only
  split_ifs <;> rfl

variable [DecidableEq A]

theorem ActiveMiners.Counted.insert {m : ActiveMiners A} (h : m.Counted) (miner : A) :
    (m.insert miner).Counted := by
  unfold ActiveMiners.insert
  split_ifs with hmem
  · exact h
  · refine ⟨?_, h.last_eq⟩
    -- a new miner adds one to the set and, wrapping, to the count
    change wrappingAdd 32 m.nowCount 1 = (Insert.insert miner m.now).card % 2 ^ 32
    rw [Finset.card_insert_of_notMem hmem, wrappingAdd, h.now_eq, Nat.mod_add_mod]

/-- What `mining` can do: panic and leave the world, or add its caller to `ActiveMiners` and
stop at one of its checks, or also record the deadline. -/
theorem mining_cases (w : World A) (miner : A) (accountId height : ℕ) (sig : Signature)
    (nonce deadline : ℕ) :
    mining c w miner accountId height sig nonce deadline = .error .Panic w ∨
      (∃ e, mining c w miner accountId height sig nonce deadline =
        .error e (w.setPoc { w.handler with activeMiners := w.handler.activeMiners.insert miner })) ∨
      ∃ p : State A, p.activeMiners = w.handler.activeMiners.insert miner ∧
        mining c w miner accountId height sig nonce deadline = .ok (w.setPoc p) := by
  unfold mining
  dsimp only
  split_ifs <;> (repeat' split) <;> first
    | exact .inl rfl
    | exact .inr (.inl ⟨_, rfl⟩)
    | exact .inr (.inr ⟨_, rfl, rfl⟩)

/-- A call of the pallet leaves `ActiveMiners`, or adds one miner to it. -/
theorem dispatch_activeMiners (w : World A) (origin : Origin A) (call : Call) :
    (dispatch c w origin call).state.handler.activeMiners = w.handler.activeMiners ∨
      ∃ miner, (dispatch c w origin call).state.handler.activeMiners =
        w.handler.activeMiners.insert miner := by
  unfold dispatch
  split
  · unfold setDifficulty
    split_ifs <;> exact .inl rfl
  · unfold setAdjustDifficultyDuration
    split_ifs <;> exact .inl rfl
  · exact .inl rfl
  · unfold setCapacityOfPerDifficulty
    split_ifs <;> exact .inl rfl
  · next miner _ _ _ _ _ =>
    rcases mining_cases c w miner _ _ _ _ _ with hpanic | ⟨e, herr⟩ | ⟨p, hp, hok⟩
    · rw [hpanic]
      exact .inl rfl
    · rw [herr]
      exact .inr ⟨miner, rfl⟩
    · rw [hok]
      exact .inr ⟨miner, hp⟩
  · exact .inl rfl

/-- The payment at the end of a cycle, to a miner or to the treasury, keeps `ActiveMiners`. -/
theorem payCycle_activeMiners {w w' : World A} {currentBlock reward : ℕ}
    (h : payCycle c w currentBlock reward = some w') :
    w'.handler.activeMiners = w.handler.activeMiners := by
  unfold payCycle at h
  split_ifs at h
  · split at h
    · split at h
      · obtain ⟨o, ho, rfl⟩ := Option.map_eq_some_iff.mp h
        exact (reward_keepsRecords c ho).activeMiners_eq
      · rw [Option.some.inj h]
    · rw [Option.some.inj h]
  · rw [← Option.some.inj h, (rewardTreasury_keepsRecords c _ _).activeMiners_eq]
    rfl

/-- At the end of a block `ActiveMiners` is what the rotation left. -/
theorem onFinalize_activeMiners {w w' : World A} (h : onFinalize c w = some w') :
    w'.handler.activeMiners = (rotateActiveMiners w.handler w.blockNumber).activeMiners := by
  unfold onFinalize at h
  dsimp only at h
  split at h
  · rw [← Option.some.inj h]
    rfl
  · obtain ⟨w₁, hpaid, rfl⟩ := Option.map_eq_some_iff.mp h
    rw [World.setPoc_handler, adjustAndMeasure_activeMiners]
    split_ifs at hpaid
    · exact payCycle_activeMiners c hpaid
    · rw [← Option.some.inj hpaid]
      rfl

end IpseCore.Poc

namespace IpseCore.Runtime

open Poc

variable {A : Type} [DecidableEq A] (c : Poc.Config A) (balances : Balances.State A)

/-- Every event of the runtime keeps the counts of `ActiveMiners`. -/
theorem step_activeMiners_counted {w : Poc.World A} (hw : w.handler.activeMiners.Counted)
    (e : Event A) : (step c w e).handler.activeMiners.Counted := by
  cases e with
  | pocStaking origin call =>
    -- PocStaking writes PoC's storage only through `remove_history`, which keeps it
    have hframe := PocStaking.dispatch_keepsUpTo c.staking w Poc.removeHistory origin call
    rcases hframe.handler_eq with hh | ⟨m, hh⟩
    · simp only [step]
      rw [hh]
      exact hw
    · simp only [step]
      rw [hh]
      exact hw
  | poc origin call =>
    rcases dispatch_activeMiners c w origin call with hkeep | ⟨miner, hins⟩
    · simp only [step]
      rw [hkeep]
      exact hw
    · simp only [step]
      rw [hins]
      exact hw.insert miner
  | nextBlock =>
    simp only [step, nextBlock]
    split
    · exact hw
    · next w₁ hfin =>
      -- PocStaking's hooks write their own storage around PoC's `on_initialize`
      change (Poc.onInitialize c { PocStaking.onFinalize w₁ with
        blockNumber := (PocStaking.onFinalize w₁).blockNumber + 1 }).handler.activeMiners.Counted
      rw [Poc.onInitialize_activeMiners]
      change w₁.handler.activeMiners.Counted
      rw [onFinalize_activeMiners c hfin]
      exact rotateActiveMiners_counted hw _
  | external b => exact hw

/-- `mining` adds its caller to `ActiveMiners` before its checks and keeps it when one of them
rejects the call: only a panic leaves the world. Over every run the counts of `ActiveMiners`
are the sizes of its sets, as `u32`s. -/
theorem mining_error_keeps_caller :
    (∀ (w : Poc.World A) (miner : A) (accountId height : ℕ) (sig : Signature)
      (nonce deadline : ℕ) (e : Poc.Error),
      (mining c w miner accountId height sig nonce deadline).result = .error e →
      (e = .Panic ∧ (mining c w miner accountId height sig nonce deadline).state = w) ∨
        (mining c w miner accountId height sig nonce deadline).state =
          w.setPoc { w.handler with activeMiners := w.handler.activeMiners.insert miner }) ∧
    ∀ w : Poc.World A, (machine c balances).Reachable w → w.handler.activeMiners.Counted := by
  refine ⟨fun w miner accountId height sig nonce deadline e he => ?_, fun w hw => ?_⟩
  · rcases mining_cases c w miner accountId height sig nonce deadline with
      hpanic | ⟨e', herr⟩ | ⟨p, -, hok⟩
    · rw [hpanic] at he ⊢
      exact .inl ⟨(Except.error.inj he).symm, rfl⟩
    · rw [herr]
      exact .inr rfl
    · rw [hok] at he
      cases he
  · induction hw with
    | init => exact ⟨rfl, rfl⟩
    | step e _ ih => exact step_activeMiners_counted c ih e

/-- From genesis with no balances, account 5, which never registered, calls `mining`: the call
is rejected with PocStaking's `NotRegister`, and 5 is left among the active miners. -/
theorem mining_error_keeps_caller_unregistered :
    let c := Poc.runtimeConfig 0 fun _ _ _ _ => 0
    let b : Balances.State ℕ := ⟨fun _ => none, fun _ => [], 0⟩
    let sig : Signature := Vector.replicate 32 0
    let w := (machine c b).run [.poc (.signed 5) (.mining 0 1 sig 0 0)]
    ((mining c (genesis c b) 5 0 1 sig 0 0).result = .error (.Staking .NotRegister) ∧
      PocStaking.isRegister w.staking 5 = false ∧ 5 ∈ w.handler.activeMiners.now ∧
      w.handler.activeMiners.nowCount = 1) ∧
    ((Poc.Error.Staking .NotRegister = .Panic ∧ (mining c (genesis c b) 5 0 1 sig 0 0).state = genesis c b) ∨
      (mining c (genesis c b) 5 0 1 sig 0 0).state = (genesis c b).setPoc
        { (genesis c b).handler with activeMiners := (genesis c b).handler.activeMiners.insert 5 }) ∧
    w.handler.activeMiners.Counted :=
  ⟨by decide +kernel,
    (mining_error_keeps_caller (Poc.runtimeConfig 0 fun _ _ _ _ => 0)
      ⟨fun _ => none, fun _ => [], 0⟩).1 _ 5 0 1 _ 0 0 _ (by decide +kernel),
    (mining_error_keeps_caller (Poc.runtimeConfig 0 fun _ _ _ _ => 0)
      ⟨fun _ => none, fun _ => [], 0⟩).2 _ (Machine.reachable_run _ _)⟩

end IpseCore.Runtime
