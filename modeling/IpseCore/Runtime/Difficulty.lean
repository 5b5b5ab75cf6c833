import IpseCore.Runtime.Mining
import IpseCore.Poc.Log

/-!
# The difficulty

`TargetInfo` holds PoC's difficulties, the last one current. Three places write it. The
`on_initialize` of block one appends the genesis difficulty, of base target
`GENESIS_BASE_TARGET`. The root's `set_difficulty` appends `GENESIS_BASE_TARGET / difficulty`
for a difficulty from one to `GENESIS_BASE_TARGET`. And `adjust_difficulty` appends
`last * 10 / 11` raised to one when it reaches zero, the saturating `last * 11 / 10`, or
`last` itself. Each of these is at least one once the last base target is, so from block one
on `TargetInfo` is never empty and holds no zero base target: `get_current_base_target` never
panics, and neither `verify_dl` nor the `GENESIS_BASE_TARGET / new` of `adjust_difficulty`
divides by zero. Everything else, the payments of `on_finalize` included, leaves
`TargetInfo` alone.
-/

namespace IpseCore.Poc

open Unsigned

variable {A : Type}

/-- What `TargetInfo` carries from block one on: some difficulty, and no zero base target. -/
structure TargetInv (l : List Difficulty) : Prop where
  ne_nil : l ≠ []
  one_le : ∀ d ∈ l, 1 ≤ d.baseTarget

/-- Appending a difficulty of nonzero base target to difficulties of nonzero base targets. -/
theorem TargetInv.push {l : List Difficulty} (hl : ∀ d ∈ l, 1 ≤ d.baseTarget) {d : Difficulty}
    (hd : 1 ≤ d.baseTarget) (cap : ℕ) : TargetInv (BoundedLog.push cap l d) where
  ne_nil := BoundedLog.push_ne_nil
  one_le e he := by
    rcases BoundedLog.mem_push he with he | rfl
    · exact hl e he
    · exact hd

/-- Nonempty difficulties of nonzero base targets have a nonzero current base target. -/
theorem TargetInv.currentBaseTarget {p : State A} (h : TargetInv p.targetInfo) :
    ∃ b, 1 ≤ b ∧ getCurrentBaseTarget p = some b := by
  obtain ⟨d, hd⟩ := List.getLast?_isSome.mpr h.ne_nil |> Option.isSome_iff_exists.mp
  have hone : 1 ≤ d.baseTarget := h.one_le d (List.mem_of_getLast? hd)
  exact ⟨d.baseTarget, hone, by rw [getCurrentBaseTarget, hd, Option.map_some]⟩

variable (c : Config A)

/-- `verify_dl` at a nonzero current base target compares, and neither panics nor divides by
zero. -/
theorem verifyDl_of_currentBaseTarget {p : State A} {b : ℕ}
    (hcur : getCurrentBaseTarget p = some b) (hb : 1 ≤ b) (accountId height : ℕ)
    (sig : Signature) (nonce deadline : ℕ) :
    verifyDl c p accountId height sig nonce deadline =
      some (decide (deadline = c.scoopTarget accountId height sig nonce / b)) := by
  obtain ⟨b', rfl⟩ : ∃ b', b = b' + 1 := ⟨b - 1, by omega⟩
  unfold verifyDl
  rw [hcur]
  rfl

/-! ### The writers -/

/-- The base target `adjust_difficulty` starts from is nonzero: the last difficulty's, or the
genesis one when there is none. -/
theorem one_le_getLastBaseTarget (hgen : 0 < c.genesisBaseTarget) {p : State A}
    (hp : ∀ d ∈ p.targetInfo, 1 ≤ d.baseTarget) : 1 ≤ (getLastBaseTarget c p).1 := by
  unfold getLastBaseTarget
  split
  · next info hinfo => exact hp info (List.mem_of_getLast? hinfo)
  · exact hgen

/-- The saturating increase of a nonzero base target stays nonzero. -/
theorem one_le_increase {last : ℕ} (hlast : 1 ≤ last) : 1 ≤ saturatingMul 64 last SPEED / 10 := by
  have hmax : 10 ≤ maxOf 64 := by norm_num [maxOf]
  have hmul : 10 ≤ last * SPEED := by
    unfold SPEED
    omega
  have hsat : 10 ≤ saturatingMul 64 last SPEED := le_min hmul hmax
  exact (Nat.one_le_div_iff (by norm_num)).mpr hsat

/-- `adjust_difficulty` appends a nonzero base target: the decrease is raised to one, the
increase only grows, and otherwise the last base target stays. -/
theorem adjustDifficulty_targetInv (hgen : 0 < c.genesisBaseTarget) {p : State A}
    (hp : ∀ d ∈ p.targetInfo, 1 ≤ d.baseTarget) (block : ℕ) :
    TargetInv (adjustDifficulty c p block).targetInfo := by
  have hlast := one_le_getLastBaseTarget c hgen hp
  unfold adjustDifficulty appendTargetInfo
  refine TargetInv.push hp ?_ 50
  dsimp only
  split_ifs with hfast hzero hslow
  · exact le_refl 1
  · exact Nat.one_le_iff_ne_zero.mpr hzero
  · exact one_le_increase hlast
  · exact hlast

theorem rotateActiveMiners_targetInfo (p : State A) (n : ℕ) :
    (rotateActiveMiners p n).targetInfo = p.targetInfo := by
  unfold rotateActiveMiners
  split_ifs <;> rfl

theorem getTotalCapacity_targetInfo (p : State A) : (getTotalCapacity p).2.targetInfo = p.targetInfo :=
  rfl

theorem adjustAndMeasure_targetInv (hgen : 0 < c.genesisBaseTarget) {p : State A}
    (hp : TargetInv p.targetInfo) (block : ℕ) :
    TargetInv (adjustAndMeasure c p block).targetInfo := by
  unfold adjustAndMeasure
  dsimp only
  rw [getTotalCapacity_targetInfo]
  split_ifs
  · exact adjustDifficulty_targetInv c hgen hp.one_le block
  · exact hp

/-- `set_difficulty` appends `GENESIS_BASE_TARGET / difficulty`, nonzero for a difficulty it
accepts. -/
theorem setDifficulty_targetInv [DecidableEq A] (w : World A) (difficulty : ℕ)
    (hw : TargetInv w.handler.targetInfo) :
    TargetInv (setDifficulty c w difficulty).state.handler.targetInfo := by
  unfold setDifficulty
  split_ifs with hzero hlarge
  · exact hw
  · exact hw
  · refine TargetInv.push hw.one_le ?_ 50
    exact (Nat.one_le_div_iff (Nat.pos_of_ne_zero hzero)).mpr (Nat.le_of_not_lt hlarge)

/-- The `on_initialize` of block one appends the genesis difficulty; later ones do nothing. -/
theorem onInitialize_targetInv (hgen : 0 < c.genesisBaseTarget) (w : World A)
    (hw : ∀ d ∈ w.handler.targetInfo, 1 ≤ d.baseTarget)
    (hne : w.blockNumber = 1 ∨ w.handler.targetInfo ≠ []) :
    TargetInv (onInitialize c w).handler.targetInfo := by
  unfold onInitialize
  split_ifs with hone
  · refine TargetInv.push hw ?_ 50
    exact hgen
  · exact ⟨hne.resolve_left hone, hw⟩

/-! ### What leaves the difficulties alone -/

section Keeps

variable [DecidableEq A]

theorem mining_targetInfo (w : World A) (miner : A) (accountId height : ℕ) (sig : Signature)
    (nonce deadline : ℕ) :
    (mining c w miner accountId height sig nonce deadline).state.handler.targetInfo =
      w.handler.targetInfo := by
  unfold mining
  dsimp only
  -- every branch writes `ActiveMiners`, and an accepted deadline `DlInfo`
  split_ifs <;> (repeat' split) <;> rfl

/-- The payment at the end of a cycle, to a miner or to the treasury, keeps the difficulties
and the block. -/
theorem payCycle_targetInfo {w w' : World A} {currentBlock reward : ℕ}
    (h : payCycle c w currentBlock reward = some w') :
    w'.handler.targetInfo = w.handler.targetInfo := by
  unfold payCycle at h
  split_ifs at h
  · split at h
    · split at h
      · obtain ⟨o, ho, rfl⟩ := Option.map_eq_some_iff.mp h
        exact (reward_keepsRecords c ho).targetInfo_eq
      · rw [Option.some.inj h]
    · rw [Option.some.inj h]
  · rw [← Option.some.inj h, (rewardTreasury_keepsRecords c _ _).targetInfo_eq]
    rfl

theorem onFinalize_targetInv (hgen : 0 < c.genesisBaseTarget) {w w' : World A}
    (h : onFinalize c w = some w') (hw : TargetInv w.handler.targetInfo) :
    TargetInv w'.handler.targetInfo := by
  unfold onFinalize at h
  dsimp only at h
  have hrot : TargetInv (w.setPoc (rotateActiveMiners w.handler w.blockNumber)).handler.targetInfo := by
    rw [World.setPoc_handler, rotateActiveMiners_targetInfo]
    exact hw
  split at h
  · rw [← Option.some.inj h]
    exact hrot
  · obtain ⟨w₁, hpaid, rfl⟩ := Option.map_eq_some_iff.mp h
    -- the payment, if any, keeps the difficulties; the adjustment appends one
    have hw₁ : TargetInv w₁.handler.targetInfo := by
      split_ifs at hpaid
      · rw [payCycle_targetInfo c hpaid]
        exact hrot
      · rw [← Option.some.inj hpaid]
        exact hrot
    exact adjustAndMeasure_targetInv c hgen hw₁ w.blockNumber

theorem dispatch_targetInv (w : World A) (hw : TargetInv w.handler.targetInfo) (origin : Origin A)
    (call : Call) : TargetInv (dispatch c w origin call).state.handler.targetInfo := by
  unfold dispatch
  split
  · exact setDifficulty_targetInv c w _ hw
  · unfold setAdjustDifficultyDuration
    split_ifs <;> exact hw
  · exact hw
  · unfold setCapacityOfPerDifficulty
    split_ifs <;> exact hw
  · rw [mining_targetInfo]
    exact hw
  · exact hw

end Keeps

end IpseCore.Poc

namespace IpseCore.Runtime

open Poc

variable {A : Type} [DecidableEq A] (c : Poc.Config A) (balances : Balances.State A)

omit [DecidableEq A] in
/-- Genesis is block one after its `on_initialize`, with the genesis difficulty. -/
theorem genesis_targetInv (hgen : 0 < c.genesisBaseTarget) :
    TargetInv (genesis c balances).handler.targetInfo :=
  Poc.onInitialize_targetInv c hgen _ (fun _ hd => absurd hd List.not_mem_nil) (.inl rfl)

/-- Every event of the runtime keeps the difficulties nonempty and nonzero. -/
theorem step_targetInv (hgen : 0 < c.genesisBaseTarget) {w : Poc.World A}
    (hw : TargetInv w.handler.targetInfo) (e : Event A) :
    TargetInv (step c w e).handler.targetInfo := by
  cases e with
  | pocStaking origin call =>
    -- PocStaking writes PoC's storage only through `remove_history`, which keeps the difficulties
    have hframe := PocStaking.dispatch_keepsUpTo c.staking w Poc.removeHistory origin call
    rcases hframe.handler_eq with hh | ⟨m, hh⟩
    · simp only [step]
      rw [hh]
      exact hw
    · simp only [step]
      rw [hh]
      exact hw
  | poc origin call => exact dispatch_targetInv c w hw origin call
  | nextBlock =>
    simp only [step, nextBlock]
    split
    · exact hw
    · next w₁ hfin =>
      -- PocStaking's hooks write their own storage around PoC's `on_initialize`
      have h₁ := onFinalize_targetInv c hgen hfin hw
      exact Poc.onInitialize_targetInv c hgen _ h₁.one_le (.inr h₁.ne_nil)
  | external b => exact hw

theorem reachable_targetInv (hgen : 0 < c.genesisBaseTarget) {w : Poc.World A}
    (hw : (machine c balances).Reachable w) : TargetInv w.handler.targetInfo := by
  induction hw with
  | init => exact genesis_targetInv c balances hgen
  | step e _ ih => exact step_targetInv c hgen ih e

/-- In every state the runtime reaches, from block one on, `TargetInfo` holds a difficulty
and no zero base target: `get_current_base_target` finds a nonzero base target, and
`verify_dl` neither panics nor divides by zero, whatever it is asked. -/
theorem baseTarget_never_zero (hgen : 0 < c.genesisBaseTarget) {w : Poc.World A}
    (hw : (machine c balances).Reachable w) :
    w.handler.targetInfo ≠ [] ∧ (∀ d ∈ w.handler.targetInfo, 1 ≤ d.baseTarget) ∧
      (∃ b, 1 ≤ b ∧ getCurrentBaseTarget w.handler = some b) ∧
      ∀ accountId height sig nonce deadline,
        (verifyDl c w.handler accountId height sig nonce deadline).isSome := by
  have h := reachable_targetInv c balances hgen hw
  obtain ⟨b, hone, hcurrent⟩ := h.currentBaseTarget
  refine ⟨h.ne_nil, h.one_le, ⟨b, hone, hcurrent⟩, ?_⟩
  intro accountId height sig nonce deadline
  rw [verifyDl_of_currentBaseTarget c hcurrent hone]
  rfl

/-- Root sets the difficulty to 1000 and the adjustment period to two blocks, and two blocks
end: the second appends the adjusted difficulty. -/
def setThenAdjusted : List (Event ℕ) :=
  [.poc .root (.setDifficulty 1000), .poc .root (.setAdjustDifficultyDuration 2), .nextBlock,
    .nextBlock]

/-- After `set_difficulty` and an adjustment, in the runtime's own configuration. -/
theorem baseTarget_never_zero_after_adjustment :
    let c := Poc.runtimeConfig (0 : ℕ) fun _ _ _ _ => 0
    let w := (machine c ⟨fun _ => none, fun _ => [], 0⟩).run setThenAdjusted
    w.handler.targetInfo.map (·.baseTarget) = [366503875925, 366503875, 366503875] ∧
    w.handler.targetInfo ≠ [] ∧ (∀ d ∈ w.handler.targetInfo, 1 ≤ d.baseTarget) ∧
      (∃ b, 1 ≤ b ∧ getCurrentBaseTarget w.handler = some b) ∧
      ∀ accountId height sig nonce deadline,
        (verifyDl c w.handler accountId height sig nonce deadline).isSome :=
  ⟨by decide +kernel, baseTarget_never_zero _ _ (by decide) (Machine.reachable_run _ _)⟩

end IpseCore.Runtime
