import IpseCore.Poc.Model

/-!
# The mining log

`DlInfo` is the pallet's log of mining cycles: one entry per cycle that got a deadline,
holding the best deadline of the cycle and its miner, and a treasury entry for a cycle that
got none. Only two places write it. An accepted `mining` call replaces the entry of the
current cycle, or opens it, with its deadline; and `on_finalize` at the last block of a
cycle appends the treasury entry when the last entry is of an older cycle. Everything else
(the payments of `reward`, the difficulty, `ActiveMiners`, PocStaking's
`remove_history`) leaves the log and the block alone.

`LogInv` says what the log records against the deadlines accepted so far: cycles increase
along it, a miner's entry is an accepted deadline and the best of its cycle, and a treasury
entry is for a past cycle without deadlines. Each way the log or the block can change keeps
it: `LogInv.accept`, `LogInv.close` and `LogInv.tick`.
-/

namespace IpseCore.Poc

open Unsigned

variable {A : Type}

/-- `w'` has the mining log and the block of `w`. -/
structure KeepsLog (w w' : World A) : Prop where
  dlInfo_eq : w'.handler.dlInfo = w.handler.dlInfo
  blockNumber_eq : w'.blockNumber = w.blockNumber

namespace KeepsLog

variable {w w₁ w₂ : World A}

theorem refl (w : World A) : KeepsLog w w := ⟨rfl, rfl⟩

theorem trans (h₁ : KeepsLog w w₁) (h₂ : KeepsLog w₁ w₂) : KeepsLog w w₂ :=
  ⟨h₂.dlInfo_eq.trans h₁.dlInfo_eq, h₂.blockNumber_eq.trans h₁.blockNumber_eq⟩

theorem setPoc (h : KeepsLog w w₁) {p : State A} (hp : p.dlInfo = w₁.handler.dlInfo) :
    KeepsLog w (w₁.setPoc p) :=
  ⟨hp.trans h.dlInfo_eq, h.blockNumber_eq⟩

end KeepsLog

/-- `w'` has the mining log, the difficulties, `ActiveMiners` and the block of `w`: what the
payments keep. -/
structure KeepsRecords (w w' : World A) : Prop where
  dlInfo_eq : w'.handler.dlInfo = w.handler.dlInfo
  targetInfo_eq : w'.handler.targetInfo = w.handler.targetInfo
  activeMiners_eq : w'.handler.activeMiners = w.handler.activeMiners
  blockNumber_eq : w'.blockNumber = w.blockNumber

namespace KeepsRecords

variable {w w₁ w₂ : World A}

theorem refl (w : World A) : KeepsRecords w w := ⟨rfl, rfl, rfl, rfl⟩

theorem trans (h₁ : KeepsRecords w w₁) (h₂ : KeepsRecords w₁ w₂) : KeepsRecords w w₂ :=
  ⟨h₂.dlInfo_eq.trans h₁.dlInfo_eq, h₂.targetInfo_eq.trans h₁.targetInfo_eq,
    h₂.activeMiners_eq.trans h₁.activeMiners_eq, h₂.blockNumber_eq.trans h₁.blockNumber_eq⟩

theorem setPoc (h : KeepsRecords w w₁) {p : State A} (hp : p.dlInfo = w₁.handler.dlInfo)
    (hq : p.targetInfo = w₁.handler.targetInfo)
    (ha : p.activeMiners = w₁.handler.activeMiners) : KeepsRecords w (w₁.setPoc p) :=
  ⟨hp.trans h.dlInfo_eq, hq.trans h.targetInfo_eq, ha.trans h.activeMiners_eq, h.blockNumber_eq⟩

theorem keepsLog (h : KeepsRecords w w₁) : KeepsLog w w₁ := ⟨h.dlInfo_eq, h.blockNumber_eq⟩

end KeepsRecords

variable (c : Config A)

/-! ### What leaves the log alone -/

theorem rotateActiveMiners_dlInfo (p : State A) (n : ℕ) :
    (rotateActiveMiners p n).dlInfo = p.dlInfo := by
  unfold rotateActiveMiners
  split_ifs <;> rfl

theorem removeHistory_dlInfo [DecidableEq A] (miner : A) (p : State A) :
    (removeHistory miner p).dlInfo = p.dlInfo := rfl

theorem getLastMiningBlock_rotateActiveMiners (p : State A) (n : ℕ) :
    getLastMiningBlock (rotateActiveMiners p n) = getLastMiningBlock p := by
  unfold getLastMiningBlock
  rw [rotateActiveMiners_dlInfo]

theorem treasuryMinning_dlInfo (p : State A) (currentBlock : ℕ) :
    (treasuryMinning c p currentBlock).dlInfo =
      BoundedLog.push 2000 p.dlInfo ⟨none, c.maxDeadlineValue, currentBlock⟩ := rfl

theorem adjustAndMeasure_dlInfo (p : State A) (currentBlock : ℕ) :
    (adjustAndMeasure c p currentBlock).dlInfo = p.dlInfo := by
  unfold adjustAndMeasure
  dsimp only
  split_ifs <;> rfl

theorem lastDeadline_activeMiners (p : State A) (m : ActiveMiners A) :
    lastDeadline { p with activeMiners := m } = lastDeadline p := rfl

theorem onInitialize_keepsLog (w : World A) : KeepsLog w (onInitialize c w) := by
  unfold onInitialize
  split_ifs
  · exact ⟨rfl, rfl⟩
  · exact KeepsLog.refl w

section Effects

variable [DecidableEq A]

theorem payAccount_keepsRecords (w : World A) (who : A) (amount now : ℕ) :
    KeepsRecords w (payAccount c w who amount now) := ⟨rfl, rfl, rfl, rfl⟩

theorem rewardTreasury_keepsRecords (w : World A) (reward : ℕ) :
    KeepsRecords w (rewardTreasury c w reward) := ⟨rfl, rfl, rfl, rfl⟩

theorem rewardMiner_keepsRecords {w w' : World A} {miner : A} {amount now : ℕ}
    (h : rewardMiner c w miner amount now = some w') : KeepsRecords w w' := by
  obtain ⟨disk, -, rfl⟩ := Option.map_eq_some_iff.mp h
  dsimp only
  split_ifs
  · exact payAccount_keepsRecords c w _ amount now
  · exact (payAccount_keepsRecords c w _ _ now).trans (payAccount_keepsRecords c _ _ _ now)

section Payments

variable {miner : A}

theorem payStakers_keepsRecords {stakersReward totalStaking now : ℕ} (l : List (A × ℕ × ℕ))
    {w : World A} {o : Machine.Outcome Error (World A)}
    (h : payStakers c miner stakersReward totalStaking now l w = some o) : KeepsRecords w o.state := by
  induction l generalizing w with
  | nil =>
    simp only [payStakers, Option.some.injEq] at h
    subst h
    exact KeepsRecords.refl w
  | cons e l ih =>
    simp only [payStakers] at h
    split at h
    · rw [Option.some.injEq] at h
      subst h
      exact KeepsRecords.refl w
    · obtain ⟨w₁, hpaid, hrest⟩ := Option.bind_eq_some_iff.mp h
      have h₁ : KeepsRecords w w₁ := by
        split_ifs at hpaid
        · exact rewardMiner_keepsRecords c hpaid
        · rw [Option.some.injEq] at hpaid
          subst hpaid
          exact payAccount_keepsRecords c w _ _ now
      exact h₁.trans (ih hrest)

theorem rewardStaker_keepsRecords {w : World A} {reward : ℕ} {o : Machine.Outcome Error (World A)}
    (h : rewardStaker c w miner reward = some o) : KeepsRecords w o.state := by
  unfold rewardStaker at h
  split at h
  · rw [Option.some.injEq] at h
    subst h
    exact KeepsRecords.refl w
  · split_ifs at h
    · obtain ⟨w', hw', rfl⟩ := Option.map_eq_some_iff.mp h
      exact rewardMiner_keepsRecords c hw'
    · obtain ⟨w₁, hw₁, hrest⟩ := Option.bind_eq_some_iff.mp h
      exact (rewardMiner_keepsRecords c hw₁).trans (payStakers_keepsRecords c _ hrest)

theorem rewardSplit_keepsRecords {w w' : World A} {allReward disk updateTime minerMiningNum r : ℕ}
    (h : rewardSplit c w miner allReward disk updateTime minerMiningNum = some (r, w')) :
    KeepsRecords w w' := by
  -- both splits pay through `reward_staker`, the reduced one also the treasury
  have hsplit : ∀ w₀ : World A, KeepsRecords w w₀ →
      (rewardReduced c w₀ miner allReward = some (r, w') ∨
        rewardFull c w₀ miner allReward = some (r, w')) → KeepsRecords w w' := by
    rintro w₀ h₀ (hred | hfull)
    · obtain ⟨o, ho, hpair⟩ := Option.map_eq_some_iff.mp hred
      rw [Prod.mk.injEq] at hpair
      rw [← hpair.2]
      exact (h₀.trans (rewardStaker_keepsRecords c ho)).trans (rewardTreasury_keepsRecords c _ _)
    · obtain ⟨o, ho, hpair⟩ := Option.map_eq_some_iff.mp hfull
      rw [Prod.mk.injEq] at hpair
      rw [← hpair.2]
      exact h₀.trans (rewardStaker_keepsRecords c ho)
  unfold rewardSplit at h
  split at h
  · exact hsplit w (KeepsRecords.refl w) (.inl h)
  · -- the capacity read writes `NetPower` only
    have hcap : KeepsRecords w (w.setPoc (getTotalCapacity w.handler).2) :=
      (KeepsRecords.refl w).setPoc rfl rfl rfl
    dsimp only at h
    split_ifs at h
    · exact hsplit _ hcap (.inl h)
    · exact hsplit _ hcap (.inr h)
    · exact hsplit w (KeepsRecords.refl w) (.inl h)

/-- `reward` pays and records the reward in the history; the log and the block stay. -/
theorem reward_keepsRecords {w : World A} {r : ℕ} {o : Machine.Outcome Error (World A)}
    (h : reward c w miner r = some o) : KeepsRecords w o.state := by
  unfold reward at h
  split at h
  · rw [Option.some.injEq] at h
    subst h
    exact KeepsRecords.refl w
  · obtain ⟨paid, hpaid, rfl⟩ := Option.map_eq_some_iff.mp h
    exact (rewardSplit_keepsRecords c hpaid).setPoc rfl rfl rfl

end Payments

/-! ### What writes the log -/

/-- At the end of a block the log stays, or, at the last block of a cycle whose last entry
is of an older cycle, gets the treasury entry of the block. The block stays. -/
theorem onFinalize_log {w w' : World A} (h : onFinalize c w = some w') :
    w'.blockNumber = w.blockNumber ∧
    (w'.handler.dlInfo = w.handler.dlInfo ∨
      (w.blockNumber + 1) % MiningExpire = 0 ∧
      w.blockNumber / MiningExpire ≠ getLastMiningBlock w.handler / MiningExpire ∧
      w'.handler.dlInfo = (treasuryMinning c w.handler w.blockNumber).dlInfo) := by
  unfold onFinalize at h
  dsimp only at h
  have hrot : KeepsLog w (w.setPoc (rotateActiveMiners w.handler w.blockNumber)) :=
    (KeepsLog.refl w).setPoc (rotateActiveMiners_dlInfo _ _)
  split at h
  · rw [Option.some.injEq] at h
    subst h
    exact ⟨rfl, .inl (rotateActiveMiners_dlInfo _ _)⟩
  obtain ⟨w₁, hpaid, rfl⟩ := Option.map_eq_some_iff.mp h
  simp only [World.setPoc_blockNumber, World.setPoc_handler, adjustAndMeasure_dlInfo]
  split_ifs at hpaid with hlast
  · -- the last block of a cycle: its entry's miner is paid, or the treasury
    unfold payCycle at hpaid
    split at hpaid
    · have hkeep : KeepsLog w w₁ := by
        split at hpaid
        · split at hpaid
          · obtain ⟨o, ho, rfl⟩ := Option.map_eq_some_iff.mp hpaid
            exact hrot.trans (reward_keepsRecords c ho).keepsLog
          · rw [Option.some.injEq] at hpaid
            subst hpaid
            exact hrot
        · rw [Option.some.injEq] at hpaid
          subst hpaid
          exact hrot
      exact ⟨hkeep.blockNumber_eq, .inl hkeep.dlInfo_eq⟩
    · rename_i hcycle
      rw [Option.some.injEq] at hpaid
      subst hpaid
      simp only [World.setPoc_handler, getLastMiningBlock_rotateActiveMiners] at hcycle
      refine ⟨rfl, .inr ⟨hlast, hcycle, ?_⟩⟩
      rw [(rewardTreasury_keepsRecords c _ _).dlInfo_eq]
      simp only [World.setPoc_handler, treasuryMinning_dlInfo, rotateActiveMiners_dlInfo]
  · rw [Option.some.injEq] at hpaid
    subst hpaid
    exact ⟨rfl, .inl (rotateActiveMiners_dlInfo _ _)⟩

/-- Apart from a signed `mining`, no call writes the log. -/
theorem dispatch_keepsLog (w : World A) (origin : Origin A) (call : Call)
    (hmining : ∀ miner accountId height sig nonce deadline,
      origin = .signed miner → call ≠ .mining accountId height sig nonce deadline) :
    KeepsLog w (dispatch c w origin call).state := by
  unfold dispatch
  split
  · unfold setDifficulty
    split_ifs <;> exact ⟨rfl, rfl⟩
  · unfold setAdjustDifficultyDuration
    split_ifs <;> exact ⟨rfl, rfl⟩
  · exact ⟨rfl, rfl⟩
  · unfold setCapacityOfPerDifficulty
    split_ifs <;> exact ⟨rfl, rfl⟩
  · exact absurd rfl (hmining _ _ _ _ _ _ rfl)
  · exact KeepsLog.refl w

/-- What `mining` can do to the log: a rejected call leaves it, and an accepted one beats
the deadline of the cycle's entry, or opens the cycle, and stands as the cycle's entry in
place of the old one. The block stays. -/
theorem mining_log (w : World A) (miner : A) (accountId height : ℕ) (sig : Signature)
    (nonce deadline : ℕ) :
    (mining c w miner accountId height sig nonce deadline).state.blockNumber = w.blockNumber ∧
    ((mining c w miner accountId height sig nonce deadline).accepted = false ∧
      (mining c w miner accountId height sig nonce deadline).state.handler.dlInfo =
        w.handler.dlInfo ∨
    (mining c w miner accountId height sig nonce deadline).accepted = true ∧
      ¬ ((lastDeadline w.handler).2 ≤ deadline ∧
        w.blockNumber / MiningExpire = (lastDeadline w.handler).1 / MiningExpire) ∧
      (mining c w miner accountId height sig nonce deadline).state.handler.dlInfo =
        BoundedLog.push 2000
          (if w.blockNumber / MiningExpire = (lastDeadline w.handler).1 / MiningExpire then
            w.handler.dlInfo.dropLast else w.handler.dlInfo)
          ⟨some miner, deadline, w.blockNumber⟩) := by
  unfold mining
  dsimp only
  rw [World.setPoc_blockNumber, World.setPoc_handler, lastDeadline_activeMiners]
  -- every rejection keeps the log; the one acceptance writes it
  split_ifs <;> (repeat' split) <;> first
    | exact ⟨rfl, .inl ⟨rfl, rfl⟩⟩
    | exact ⟨rfl, .inr ⟨rfl, by assumption, rfl⟩⟩

end Effects

/-! ### What the log records -/

/-- A deadline that `mining` accepted: who signed the call, in which block, and the
deadline. -/
structure Submission (A : Type) where
  miner : A
  block : ℕ
  deadline : ℕ
  deriving DecidableEq, Repr

theorem lastDeadline_of_getLast? {p : State A} {e : MiningInfo A}
    (he : p.dlInfo.getLast? = some e) : lastDeadline p = (e.block, e.bestDl) := by
  unfold lastDeadline
  rw [he]

theorem getLastMiningBlock_of_getLast? {p : State A} {e : MiningInfo A}
    (he : p.dlInfo.getLast? = some e) : getLastMiningBlock p = e.block := by
  unfold getLastMiningBlock
  rw [he]

/-- What the log records at block `now` against the deadlines `subs` accepted so far. -/
structure LogInv (subs : List (Submission A)) (now : ℕ) (log : List (MiningInfo A)) : Prop where
  /-- Cycles strictly increase along the log. -/
  ordered : log.Pairwise fun a b => a.block / MiningExpire < b.block / MiningExpire
  entry_le : ∀ e ∈ log, e.block ≤ now
  submission_le : ∀ s ∈ subs, s.block ≤ now
  /-- A miner's entry is an accepted deadline, and the best one of its cycle. -/
  mined : ∀ e ∈ log, ∀ m, e.miner = some m → ⟨m, e.block, e.bestDl⟩ ∈ subs ∧
    ∀ s ∈ subs, s.block / MiningExpire = e.block / MiningExpire → e.bestDl ≤ s.deadline
  /-- A treasury entry is for a past cycle without accepted deadlines. -/
  treasury : ∀ e ∈ log, e.miner = none → e.block / MiningExpire < now / MiningExpire ∧
    ∀ s ∈ subs, s.block / MiningExpire ≠ e.block / MiningExpire
  /-- A deadline of the current cycle has the log end in that cycle. -/
  current : ∀ s ∈ subs, s.block / MiningExpire = now / MiningExpire →
    ∃ e, log.getLast? = some e ∧ e.block / MiningExpire = now / MiningExpire

theorem LogInv.nil (now : ℕ) : LogInv ([] : List (Submission A)) now [] where
  ordered := List.Pairwise.nil
  entry_le _ h := nomatch h
  submission_le _ h := nomatch h
  mined _ h := nomatch h
  treasury _ h := nomatch h
  current _ h := nomatch h

section LogInv

variable {subs : List (Submission A)} {now : ℕ} {log : List (MiningInfo A)}

/-- An entry of the log is its last one or of an earlier cycle. -/
theorem LogInv.mem_last (h : LogInv subs now log) {x : MiningInfo A} (hx : x ∈ log) :
    ∃ e, log.getLast? = some e ∧ (x = e ∨ x.block / MiningExpire < e.block / MiningExpire) := by
  have hne : log ≠ [] := List.ne_nil_of_mem hx
  refine ⟨log.getLast hne, List.getLast?_eq_some_getLast hne, ?_⟩
  rw [← List.dropLast_concat_getLast hne, List.mem_append, List.mem_singleton] at hx
  rcases hx with hx | hx
  · exact .inr (h.ordered.rel_dropLast_getLast hx)
  · exact .inl hx

/-- When the last entry is not of the current cycle, no entry is. -/
theorem LogInv.cycle_lt (h : LogInv subs now log)
    (hlast : ∀ e, log.getLast? = some e → e.block / MiningExpire ≠ now / MiningExpire)
    {x : MiningInfo A} (hx : x ∈ log) : x.block / MiningExpire < now / MiningExpire := by
  obtain ⟨e, he, hxe⟩ := h.mem_last hx
  have hle : e.block / MiningExpire ≤ now / MiningExpire :=
    Nat.div_le_div_right (h.entry_le e (List.mem_of_getLast? he))
  have hlt : e.block / MiningExpire < now / MiningExpire := lt_of_le_of_ne hle (hlast e he)
  rcases hxe with rfl | hxe
  · exact hlt
  · exact hxe.trans hlt

/-- When the last entry is not of the current cycle, no deadline of it was accepted. -/
theorem LogInv.not_current (h : LogInv subs now log)
    (hlast : ∀ e, log.getLast? = some e → e.block / MiningExpire ≠ now / MiningExpire) :
    ∀ s ∈ subs, s.block / MiningExpire ≠ now / MiningExpire := by
  intro s hs hcur
  obtain ⟨e, he, hecur⟩ := h.current s hs hcur
  exact hlast e he hecur

/-- What keeps the log and the block keeps the record. -/
theorem LogInv.of_keepsLog {w w' : World A} (h : LogInv subs w.blockNumber w.handler.dlInfo)
    (hkeep : KeepsLog w w') : LogInv subs w'.blockNumber w'.handler.dlInfo := by
  rw [hkeep.dlInfo_eq, hkeep.blockNumber_eq]
  exact h

/-- The next block keeps the record. -/
theorem LogInv.tick (h : LogInv subs now log) : LogInv subs (now + 1) log where
  ordered := h.ordered
  entry_le e he := Nat.le_succ_of_le (h.entry_le e he)
  submission_le s hs := Nat.le_succ_of_le (h.submission_le s hs)
  mined := h.mined
  treasury e he hnone := by
    obtain ⟨hlt, hsubs⟩ := h.treasury e he hnone
    exact ⟨lt_of_lt_of_le hlt (Nat.div_le_div_right (Nat.le_succ now)), hsubs⟩
  current s hs hcur := by
    -- a deadline of the new block's cycle is of the old block's cycle too
    have hle : s.block / MiningExpire ≤ now / MiningExpire :=
      Nat.div_le_div_right (h.submission_le s hs)
    have hmono : now / MiningExpire ≤ (now + 1) / MiningExpire :=
      Nat.div_le_div_right (Nat.le_succ now)
    have hsame : now / MiningExpire = (now + 1) / MiningExpire := by omega
    obtain ⟨e, he, hecur⟩ := h.current s hs (by omega)
    exact ⟨e, he, hecur.trans hsame⟩

/-- The treasury entry that closes a cycle without deadlines, with the next block. -/
theorem LogInv.close {p : State A} (h : LogInv subs now p.dlInfo)
    (hend : (now + 1) % MiningExpire = 0) (hcycle : now / MiningExpire ≠ getLastMiningBlock p / MiningExpire) :
    LogInv subs (now + 1) (treasuryMinning c p now).dlInfo := by
  have hlast : ∀ e, p.dlInfo.getLast? = some e → e.block / MiningExpire ≠ now / MiningExpire :=
    fun e he hcur => hcycle (by rw [getLastMiningBlock_of_getLast? he, hcur])
  have hbefore : ∀ x ∈ p.dlInfo, x.block / MiningExpire < now / MiningExpire :=
    fun x hx => h.cycle_lt hlast hx
  have hnone := h.not_current hlast
  have hnext : now / MiningExpire < (now + 1) / MiningExpire := by
    unfold MiningExpire at hend ⊢
    omega
  rw [treasuryMinning_dlInfo]
  refine ⟨?_, ?_, ?_, ?_, ?_, ?_⟩
  · refine BoundedLog.Pairwise.push (List.pairwise_append.mpr ⟨h.ordered, List.pairwise_singleton _ _, ?_⟩)
    intro x hx y hy
    rw [List.mem_singleton] at hy
    subst hy
    exact hbefore x hx
  · intro e he
    rcases BoundedLog.mem_push he with he | rfl
    · exact Nat.le_succ_of_le (h.entry_le e he)
    · exact Nat.le_succ now
  · exact fun s hs => Nat.le_succ_of_le (h.submission_le s hs)
  · intro e he m hm
    rcases BoundedLog.mem_push he with he | rfl
    · exact h.mined e he m hm
    · exact absurd hm (by simp)
  · intro e he hm
    rcases BoundedLog.mem_push he with he | rfl
    · obtain ⟨hlt, hsubs⟩ := h.treasury e he hm
      exact ⟨hlt.trans hnext, hsubs⟩
    · exact ⟨hnext, hnone⟩
  · -- every accepted deadline is of the closed cycle or an earlier one
    intro s hs hcur
    have hle : s.block / MiningExpire ≤ now / MiningExpire :=
      Nat.div_le_div_right (h.submission_le s hs)
    omega

/-- An accepted deadline: it beats the cycle's entry, or opens the cycle, and stands as
the cycle's entry in place of the old one. -/
theorem LogInv.accept {p : State A} (h : LogInv subs now p.dlInfo) (miner : A) {deadline : ℕ}
    (hbest : ¬ ((lastDeadline p).2 ≤ deadline ∧
      now / MiningExpire = (lastDeadline p).1 / MiningExpire)) :
    LogInv (subs ++ [⟨miner, now, deadline⟩]) now
      (BoundedLog.push 2000
        (if now / MiningExpire = (lastDeadline p).1 / MiningExpire then p.dlInfo.dropLast
          else p.dlInfo)
        ⟨some miner, deadline, now⟩) := by
  set base := if now / MiningExpire = (lastDeadline p).1 / MiningExpire then p.dlInfo.dropLast
    else p.dlInfo with hbase
  have hsub : base.Sublist p.dlInfo := by
    rw [hbase]
    split_ifs
    · exact p.dlInfo.dropLast_sublist
    · exact List.Sublist.refl _
  -- the entries kept are of earlier cycles
  have hbefore : ∀ x ∈ base, x.block / MiningExpire < now / MiningExpire := by
    intro x hx
    rw [hbase] at hx
    split_ifs at hx with hsame
    · have hne : p.dlInfo ≠ [] := fun hnil => by simp [hnil] at hx
      rw [lastDeadline_of_getLast? (List.getLast?_eq_some_getLast hne)] at hsame
      exact hsame ▸ h.ordered.rel_dropLast_getLast hx
    · exact h.cycle_lt (fun e he hcur => hsame (by rw [lastDeadline_of_getLast? he, hcur])) hx
  -- the new deadline is at most every deadline accepted before in the cycle
  have hle : ∀ s ∈ subs, s.block / MiningExpire = now / MiningExpire → deadline ≤ s.deadline := by
    intro s hs hcur
    obtain ⟨e, he, hecur⟩ := h.current s hs hcur
    rw [lastDeadline_of_getLast? he] at hbest
    have hlt : deadline < e.bestDl := by
      by_contra hge
      exact hbest ⟨Nat.le_of_not_lt hge, hecur.symm⟩
    have hmem := List.mem_of_getLast? he
    cases hm : e.miner with
    | none => exact absurd hecur (h.treasury e hmem hm).1.ne
    | some m => exact hlt.le.trans ((h.mined e hmem m hm).2 s hs (hcur.trans hecur.symm))
  refine ⟨?_, ?_, ?_, ?_, ?_, ?_⟩
  · refine BoundedLog.Pairwise.push
      (List.pairwise_append.mpr ⟨h.ordered.sublist hsub, List.pairwise_singleton _ _, ?_⟩)
    intro x hx y hy
    rw [List.mem_singleton] at hy
    subst hy
    exact hbefore x hx
  · intro e he
    rcases BoundedLog.mem_push he with he | rfl
    · exact h.entry_le e (hsub.subset he)
    · exact le_refl now
  · intro s hs
    rcases List.mem_append.mp hs with hs | hs
    · exact h.submission_le s hs
    · rw [List.mem_singleton.mp hs]
  · intro e he m hm
    rcases BoundedLog.mem_push he with he | rfl
    · -- an older entry: the new deadline is of a later cycle
      obtain ⟨hin, hbestOld⟩ := h.mined e (hsub.subset he) m hm
      refine ⟨List.mem_append_left _ hin, fun s hs hcyc => ?_⟩
      rcases List.mem_append.mp hs with hs | hs
      · exact hbestOld s hs hcyc
      · rw [List.mem_singleton.mp hs] at hcyc
        exact absurd hcyc (hbefore e he).ne'
    · -- the new entry
      cases Option.some.inj hm
      refine ⟨List.mem_append_right _ (List.mem_singleton_self _), fun s hs hcyc => ?_⟩
      rcases List.mem_append.mp hs with hs | hs
      · exact hle s hs hcyc
      · rw [List.mem_singleton.mp hs]
  · intro e he hnone
    rcases BoundedLog.mem_push he with he | rfl
    · obtain ⟨hlt, hsubs⟩ := h.treasury e (hsub.subset he) hnone
      refine ⟨hlt, fun s hs => ?_⟩
      rcases List.mem_append.mp hs with hs | hs
      · exact hsubs s hs
      · rw [List.mem_singleton.mp hs]
        exact (hbefore e he).ne'
    · exact absurd hnone (by simp)
  · exact fun _ _ _ => ⟨_, BoundedLog.getLast?_push, rfl⟩

end LogInv

end IpseCore.Poc
