import IpseCore.Runtime.Difficulty

/-!
# The direction of the difficulty

`adjust_difficulty` starts from the last base target `last` and appends `last * 10 / 11` when
the mined deadlines came fast, `last * 11 / 10` when they came slowly, and `last` otherwise,
both products saturating at `u64::MAX`. The increase could move the wrong way only from above
`u64::MAX / 10`, where the saturated product divided by ten falls below `last`. No base target
gets there: the genesis one is far below, `set_difficulty` appends at most the genesis one,
the decrease only lowers, and the saturated increase is `u64::MAX / 10` at most. So in every
state the runtime reaches, each adjustment moves the base target the way the deadlines ask.
-/

namespace IpseCore.Poc

open Unsigned

variable {A : Type}

/-- No base target of the difficulties exceeds `u64::MAX / 10`. -/
def TargetsBounded (l : List Difficulty) : Prop :=
  ∀ d ∈ l, d.baseTarget ≤ maxOf 64 / 10

theorem TargetsBounded.push {l : List Difficulty} (hl : TargetsBounded l) {d : Difficulty}
    (hd : d.baseTarget ≤ maxOf 64 / 10) (cap : ℕ) : TargetsBounded (BoundedLog.push cap l d) := by
  intro e he
  rcases BoundedLog.mem_push he with he | rfl
  · exact hl e he
  · exact hd

/-! ### The three adjustments -/

/-- The decrease never rises above `last`. -/
theorem decrease_le (last : ℕ) : saturatingMul 64 last 10 / SPEED ≤ last := by
  have hsat : saturatingMul 64 last 10 ≤ last * 10 := saturatingMul_le 64 last 10
  have hdiv : last * 10 / SPEED ≤ last := by
    unfold SPEED
    omega
  calc saturatingMul 64 last 10 / SPEED ≤ last * 10 / SPEED := Nat.div_le_div_right hsat
    _ ≤ last := hdiv

/-- The increase never rises above `u64::MAX / 10`. -/
theorem increase_le (last : ℕ) : saturatingMul 64 last SPEED / 10 ≤ maxOf 64 / 10 :=
  Nat.div_le_div_right (min_le_right _ _)

/-- Up to `u64::MAX / 10` the increase never falls below `last`: below the saturation the
product grows, and at it the saturated value divided by ten is the bound itself. -/
theorem le_increase {last : ℕ} (hlast : last ≤ maxOf 64 / 10) :
    last ≤ saturatingMul 64 last SPEED / 10 := by
  unfold saturatingMul SPEED
  rcases le_total (last * 11) (maxOf 64) with hfit | hsat
  · rw [min_eq_left hfit]
    omega
  · rw [min_eq_right hsat]
    exact hlast

variable (c : Config A)

/-- What `adjust_difficulty` appends, against the last base target and the deadlines it reads:
at most `last` when they came fast, at least `last` when they came slowly, and `last`
otherwise; never zero nor above `u64::MAX / 10` when `last` is neither. -/
theorem adjustDifficulty_direction (p : State A) (block : ℕ)
    (hone : 1 ≤ (getLastBaseTarget c p).1) (hlast : (getLastBaseTarget c p).1 ≤ maxOf 64 / 10) :
    ∃ new, (adjustDifficulty c p block).targetInfo =
        BoundedLog.push 50 p.targetInfo ⟨new, c.genesisBaseTarget / new, block⟩ ∧
      1 ≤ new ∧ new ≤ maxOf 64 / 10 ∧
      ((getAveDeadline p).2 < 2000 ∧ 0 < (getAveDeadline p).1 → new ≤ (getLastBaseTarget c p).1) ∧
      (3000 < (getAveDeadline p).2 → (getLastBaseTarget c p).1 ≤ new) ∧
      (¬((getAveDeadline p).2 < 2000 ∧ 0 < (getAveDeadline p).1) → ¬3000 < (getAveDeadline p).2 →
        new = (getLastBaseTarget c p).1) := by
  have hmax : 1 ≤ maxOf 64 / 10 := by norm_num [maxOf]
  unfold adjustDifficulty appendTargetInfo
  dsimp only
  split_ifs with hfast hzero hslow
  · -- fast deadlines, and the decrease reached zero: it is raised to one
    have hlt := hfast.1
    refine ⟨1, rfl, le_refl 1, hmax, fun _ => hone, fun hgt => ?_, fun hnot => absurd hfast hnot⟩
    omega
  · -- fast deadlines: the decrease
    have hlt := hfast.1
    have hdec := decrease_le (getLastBaseTarget c p).1
    refine ⟨_, rfl, Nat.one_le_iff_ne_zero.mpr hzero, hdec.trans hlast, fun _ => hdec,
      fun hgt => ?_, fun hnot => absurd hfast hnot⟩
    omega
  · -- slow deadlines: the increase
    have hinc := le_increase hlast
    exact ⟨_, rfl, hone.trans hinc, increase_le _, fun h => absurd h hfast, fun _ => hinc,
      fun _ hnot => absurd hslow hnot⟩
  · exact ⟨_, rfl, hone, hlast, fun h => absurd h hfast, fun h => absurd h hslow, fun _ _ => rfl⟩

/-! ### No base target above `u64::MAX / 10` -/

theorem getLastBaseTarget_le (hG : c.genesisBaseTarget ≤ maxOf 64 / 10) {p : State A}
    (hp : TargetsBounded p.targetInfo) : (getLastBaseTarget c p).1 ≤ maxOf 64 / 10 := by
  unfold getLastBaseTarget
  split
  · next info hinfo => exact hp info (List.mem_of_getLast? hinfo)
  · exact hG

theorem adjustDifficulty_bounded (hgen : 0 < c.genesisBaseTarget)
    (hG : c.genesisBaseTarget ≤ maxOf 64 / 10) {p : State A}
    (hp₁ : ∀ d ∈ p.targetInfo, 1 ≤ d.baseTarget) (hp : TargetsBounded p.targetInfo) (block : ℕ) :
    TargetsBounded (adjustDifficulty c p block).targetInfo := by
  obtain ⟨new, hpush, -, hle, -⟩ := adjustDifficulty_direction c p block
    (one_le_getLastBaseTarget c hgen hp₁) (getLastBaseTarget_le c hG hp)
  rw [hpush]
  exact hp.push hle 50

theorem adjustAndMeasure_bounded (hgen : 0 < c.genesisBaseTarget)
    (hG : c.genesisBaseTarget ≤ maxOf 64 / 10) {p : State A} (hp₁ : TargetInv p.targetInfo)
    (hp : TargetsBounded p.targetInfo) (block : ℕ) :
    TargetsBounded (adjustAndMeasure c p block).targetInfo := by
  unfold adjustAndMeasure
  dsimp only
  rw [getTotalCapacity_targetInfo]
  split_ifs
  · exact adjustDifficulty_bounded c hgen hG hp₁.one_le hp block
  · exact hp

/-- `set_difficulty` appends `GENESIS_BASE_TARGET / difficulty`, at most the genesis one. -/
theorem setDifficulty_bounded [DecidableEq A] (hG : c.genesisBaseTarget ≤ maxOf 64 / 10)
    (w : World A) (difficulty : ℕ) (hw : TargetsBounded w.handler.targetInfo) :
    TargetsBounded (setDifficulty c w difficulty).state.handler.targetInfo := by
  unfold setDifficulty
  split_ifs
  · exact hw
  · exact hw
  · exact hw.push ((Nat.div_le_self _ _).trans hG) 50

theorem onInitialize_bounded (hG : c.genesisBaseTarget ≤ maxOf 64 / 10) (w : World A)
    (hw : TargetsBounded w.handler.targetInfo) :
    TargetsBounded (onInitialize c w).handler.targetInfo := by
  unfold onInitialize
  split_ifs
  · exact hw.push hG 50
  · exact hw

theorem onFinalize_bounded [DecidableEq A] (hgen : 0 < c.genesisBaseTarget)
    (hG : c.genesisBaseTarget ≤ maxOf 64 / 10) {w w' : World A} (h : onFinalize c w = some w')
    (hw₁ : TargetInv w.handler.targetInfo) (hw : TargetsBounded w.handler.targetInfo) :
    TargetsBounded w'.handler.targetInfo := by
  unfold onFinalize at h
  dsimp only at h
  have hrot : (w.setPoc (rotateActiveMiners w.handler w.blockNumber)).handler.targetInfo =
      w.handler.targetInfo := by
    rw [World.setPoc_handler, rotateActiveMiners_targetInfo]
  split at h
  · rw [← Option.some.inj h, hrot]
    exact hw
  · obtain ⟨w₁, hpaid, rfl⟩ := Option.map_eq_some_iff.mp h
    -- the payment, if any, keeps the difficulties; the adjustment appends one
    have hpaid_targetInfo : w₁.handler.targetInfo = w.handler.targetInfo := by
      split_ifs at hpaid
      · rw [payCycle_targetInfo c hpaid, hrot]
      · rw [← Option.some.inj hpaid, hrot]
    rw [World.setPoc_handler]
    refine adjustAndMeasure_bounded c hgen hG ?_ ?_ w.blockNumber
    · rw [hpaid_targetInfo]
      exact hw₁
    · rw [hpaid_targetInfo]
      exact hw

theorem dispatch_bounded [DecidableEq A] (hG : c.genesisBaseTarget ≤ maxOf 64 / 10) (w : World A)
    (hw : TargetsBounded w.handler.targetInfo) (origin : Origin A) (call : Call) :
    TargetsBounded (dispatch c w origin call).state.handler.targetInfo := by
  unfold dispatch
  split
  · exact setDifficulty_bounded c hG w _ hw
  · unfold setAdjustDifficultyDuration
    split_ifs <;> exact hw
  · exact hw
  · unfold setCapacityOfPerDifficulty
    split_ifs <;> exact hw
  · rw [mining_targetInfo]
    exact hw
  · exact hw

end IpseCore.Poc

namespace IpseCore.Runtime

open Poc Unsigned

variable {A : Type} [DecidableEq A] (c : Poc.Config A) (balances : Balances.State A)

/-- Every event of the runtime keeps the base targets at most `u64::MAX / 10`. -/
theorem step_targetsBounded (hgen : 0 < c.genesisBaseTarget)
    (hG : c.genesisBaseTarget ≤ maxOf 64 / 10) {w : Poc.World A}
    (hw₁ : TargetInv w.handler.targetInfo) (hw : TargetsBounded w.handler.targetInfo) (e : Event A) :
    TargetsBounded (step c w e).handler.targetInfo := by
  cases e with
  | pocStaking origin call =>
    -- PocStaking writes PoC's storage only through `remove_history`, which keeps the difficulties
    have hframe := PocStaking.dispatch_keepsUpTo c.staking w Poc.removeHistory origin call
    rcases hframe.handler_eq with hh | ⟨m, hh⟩
    · simp only [step]
      rw [hh]
      exact hw
    · simp only [step]
      rw [hh]
      exact hw
  | poc origin call => exact dispatch_bounded c hG w hw origin call
  | nextBlock =>
    simp only [step, nextBlock]
    split
    · exact hw
    · next w₁ hfin =>
      -- PocStaking's hooks write their own storage around PoC's `on_initialize`
      have h₁ := onFinalize_bounded c hgen hG hfin hw₁ hw
      exact Poc.onInitialize_bounded c hG _ h₁
  | external b => exact hw

theorem reachable_targetsBounded (hgen : 0 < c.genesisBaseTarget)
    (hG : c.genesisBaseTarget ≤ maxOf 64 / 10) {w : Poc.World A}
    (hw : (machine c balances).Reachable w) : TargetsBounded w.handler.targetInfo := by
  induction hw with
  | init => exact Poc.onInitialize_bounded c hG _ fun _ hd => absurd hd List.not_mem_nil
  | step e hr ih => exact step_targetsBounded c hgen hG (reachable_targetInv c balances hgen hr) ih e

/-- In every reachable state, an adjustment appends a base target of at least one that moves
the way the deadlines ask: not up when they came fast, not down when they came slowly, and
nowhere otherwise. -/
theorem adjustDifficulty_moves_as_asked (hgen : 0 < c.genesisBaseTarget)
    (hG : c.genesisBaseTarget ≤ maxOf 64 / 10) {w : Poc.World A}
    (hw : (machine c balances).Reachable w) (p : Poc.State A)
    (hp : p.targetInfo = w.handler.targetInfo) (block : ℕ) :
    ∃ new, (adjustDifficulty c p block).targetInfo =
        BoundedLog.push 50 p.targetInfo ⟨new, c.genesisBaseTarget / new, block⟩ ∧
      1 ≤ new ∧
      ((getAveDeadline p).2 < 2000 ∧ 0 < (getAveDeadline p).1 → new ≤ (getLastBaseTarget c p).1) ∧
      (3000 < (getAveDeadline p).2 → (getLastBaseTarget c p).1 ≤ new) ∧
      (¬((getAveDeadline p).2 < 2000 ∧ 0 < (getAveDeadline p).1) → ¬3000 < (getAveDeadline p).2 →
        new = (getLastBaseTarget c p).1) := by
  have hinv := reachable_targetInv c balances hgen hw
  have hbound := reachable_targetsBounded c balances hgen hG hw
  rw [← hp] at hinv hbound
  obtain ⟨new, hpush, hone, -, hfast, hslow, hsame⟩ :=
    adjustDifficulty_direction c p block (one_le_getLastBaseTarget c hgen hinv.one_le)
      (getLastBaseTarget_le c hG hbound)
  exact ⟨new, hpush, hone, hfast, hslow, hsame⟩

/-- After `set_difficulty` and an adjustment, the next adjustment, at the end of block four. -/
theorem adjustDifficulty_moves_as_asked_after_adjustment :
    let c := Poc.runtimeConfig (0 : ℕ) fun _ _ _ _ => 0
    let w := (machine c ⟨fun _ => none, fun _ => [], 0⟩).run setThenAdjusted
    w.handler.targetInfo.map (·.baseTarget) = [366503875925, 366503875, 366503875] ∧
    (0 < c.genesisBaseTarget ∧ c.genesisBaseTarget ≤ maxOf 64 / 10) ∧
    ∃ new, (adjustDifficulty c w.handler 4).targetInfo =
        BoundedLog.push 50 w.handler.targetInfo ⟨new, c.genesisBaseTarget / new, 4⟩ ∧
      1 ≤ new ∧
      ((getAveDeadline w.handler).2 < 2000 ∧ 0 < (getAveDeadline w.handler).1 →
        new ≤ (getLastBaseTarget c w.handler).1) ∧
      (3000 < (getAveDeadline w.handler).2 → (getLastBaseTarget c w.handler).1 ≤ new) ∧
      (¬((getAveDeadline w.handler).2 < 2000 ∧ 0 < (getAveDeadline w.handler).1) →
        ¬3000 < (getAveDeadline w.handler).2 → new = (getLastBaseTarget c w.handler).1) :=
  ⟨by decide +kernel, ⟨by decide, by decide⟩, adjustDifficulty_moves_as_asked _ _ (by decide)
    (by decide) (Machine.reachable_run _ _) _ rfl 4⟩

end IpseCore.Runtime
