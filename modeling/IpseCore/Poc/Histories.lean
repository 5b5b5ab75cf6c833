import IpseCore.Poc.Model

/-!
# The bounded histories of PoC

PoC keeps four histories that are cut as they grow: `DlInfo` and `TargetInfo` with
`split_off(len - N)` on the length measured before the push, and the per-miner `History` of
`reward` and `UserRewardHistory` with `split_off(1)` once the pushed vector holds 300 entries.
Each keeps a window of what was appended and ends with the last entry, but the four windows
are 2001, 51, 299 and 299 entries long, never the 2000, 50, 300 and 300 of their constants.
-/

namespace IpseCore.Poc

variable {A : Type}

/-- The history `reward` keeps for a miner, empty before its first reward. -/
def State.historyOf (p : State A) (miner : A) : List (ℕ × ℕ) :=
  ((p.history miner).map MiningHistory.history).getD []

theorem appendDlInfo_dlInfo (p : State A) (dl : MiningInfo A) :
    (appendDlInfo p dl).dlInfo = BoundedLog.push 2000 p.dlInfo dl := rfl

theorem appendTargetInfo_targetInfo (p : State A) (d : Difficulty) :
    (appendTargetInfo p d).targetInfo = BoundedLog.push 50 p.targetInfo d := rfl

variable [DecidableEq A]

/-- `reward` pushes the new entry and drops the oldest once there are 300, whether or not the
miner had a history. -/
theorem recordHistory_historyOf (p : State A) (miner : A) (num now reward : ℕ) :
    (recordHistory p miner num now reward).historyOf miner =
      BoundedLog.pushDropFirst 300 (p.historyOf miner) (now, reward) := by
  unfold recordHistory State.historyOf
  cases hhis : p.history miner with
  | some his => simp [BoundedLog.pushDropFirst]
  | none => simp [BoundedLog.pushDropFirst]

theorem updateRewordHistory_userRewardHistory (p : State A) (accountId : A) (amount blockNum : ℕ) :
    (updateRewordHistory p accountId amount blockNum).userRewardHistory accountId =
      BoundedLog.pushDropFirst 300 (p.userRewardHistory accountId) (blockNum, amount) := by
  simp [updateRewordHistory, BoundedLog.pushDropFirst]

/-- What each bounded history holds after any appends: `append_dl_info` and
`append_target_info` keep `N + 1` entries, `reward` and `update_reword_history` keep 299, and
every window ends with the entry appended last. -/
theorem bounded_histories_windows (p : State A) :
    (∀ dls : List (MiningInfo A), p.dlInfo = [] →
      (dls.foldl appendDlInfo p).dlInfo = dls.rtake 2001) ∧
    (∀ ds : List Difficulty, p.targetInfo = [] →
      (ds.foldl appendTargetInfo p).targetInfo = ds.rtake 51) ∧
    (∀ (miner : A) (rewards : List (ℕ × ℕ × ℕ)), p.history miner = none →
      (rewards.foldl (fun p r => recordHistory p miner r.1 r.2.1 r.2.2) p).historyOf miner =
        (rewards.map Prod.snd).rtake 299) ∧
    (∀ (who : A) (entries : List (ℕ × ℕ)), p.userRewardHistory who = [] →
      (entries.foldl (fun p e => updateRewordHistory p who e.2 e.1) p).userRewardHistory who =
        entries.rtake 299) := by
  refine ⟨fun dls hdl => ?_, fun ds hd => ?_, fun miner rewards hmin => ?_,
    fun who entries hwho => ?_⟩
  · simpa using BoundedLog.foldl_rtake State.dlInfo appendDlInfo id (BoundedLog.push 2000)
      (fun _ => 2001) appendDlInfo_dlInfo (fun xs x => BoundedLog.push_rtake xs x) hdl dls
  · simpa using BoundedLog.foldl_rtake State.targetInfo appendTargetInfo id (BoundedLog.push 50)
      (fun _ => 51) appendTargetInfo_targetInfo (fun xs x => BoundedLog.push_rtake xs x) hd ds
  · have hempty : p.historyOf miner = [] := by simp [State.historyOf, hmin]
    exact BoundedLog.foldl_rtake (fun p => State.historyOf p miner)
      (fun p r => recordHistory p miner r.1 r.2.1 r.2.2) Prod.snd (BoundedLog.pushDropFirst 300)
      (fun _ => 299) (fun p r => recordHistory_historyOf p miner r.1 r.2.1 r.2.2)
      (fun xs x => BoundedLog.pushDropFirst_rtake 299 xs x) hempty rewards
  · simpa using BoundedLog.foldl_rtake (fun p => State.userRewardHistory p who)
      (fun p e => updateRewordHistory p who e.2 e.1) id (BoundedLog.pushDropFirst 300)
      (fun _ => 299) (fun p e => updateRewordHistory_userRewardHistory p who e.2 e.1)
      (fun xs x => BoundedLog.pushDropFirst_rtake 299 xs x) hwho entries

/-- From genesis, 2001 appended deadlines are all kept, and so are 51 difficulties, while 300
rewards of miner 1 and 300 rewards recorded for account 1 leave 299 entries each. -/
theorem bounded_histories_windows_when_full :
    let dls := List.replicate 2001 (⟨none, 0, 0⟩ : MiningInfo ℕ)
    let ds := List.replicate 51 (⟨1, 1, 0⟩ : Difficulty)
    let rewards := List.replicate 300 ((1, 0, 0) : ℕ × ℕ × ℕ)
    let entries := List.replicate 300 ((0, 0) : ℕ × ℕ)
    (dls.foldl appendDlInfo State.genesis).dlInfo.length = 2001 ∧
      (ds.foldl appendTargetInfo (State.genesis : State ℕ)).targetInfo.length = 51 ∧
      ((rewards.foldl (fun p r => recordHistory p 1 r.1 r.2.1 r.2.2) State.genesis).historyOf 1).length =
        299 ∧
      ((entries.foldl (fun p e => updateRewordHistory p 1 e.2 e.1) State.genesis).userRewardHistory
        1).length = 299 := by
  obtain ⟨hdl, hd, hhis, hreward⟩ := bounded_histories_windows (State.genesis : State ℕ)
  refine ⟨?_, ?_, ?_, ?_⟩
  · rw [hdl _ rfl, BoundedLog.length_rtake, List.length_replicate, Nat.min_self]
  · rw [hd _ rfl, BoundedLog.length_rtake, List.length_replicate, Nat.min_self]
  · rw [hhis 1 _ rfl, BoundedLog.length_rtake, List.length_map, List.length_replicate]
    rfl
  · rw [hreward 1 _ rfl, BoundedLog.length_rtake, List.length_replicate]
    rfl

end IpseCore.Poc
