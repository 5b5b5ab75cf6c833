import IpseCore.PocStaking.Books

/-!
# The registry of miners

`register` writes a miner into six places at once: its disk in `DiskOf`, empty books in
`StakingInfoOf`, its numeric id in `AccountIdOfPid`, `Miners`, `MiningMiners`, and its plot
into `DeclaredCapacity`. `update_numeric_id`, `update_plot_size`, `stop_mining` and
`restart_mining` each move some of them, and no call removes a miner. `Registry` is this part
of the storage and `Registry.Inv` says that the six agree: a miner has a disk exactly when it
has staking info and is in `Miners`; `MiningMiners` holds the miners whose disk runs;
`AccountIdOfPid` is the inverse of the disks' numeric ids; and `DeclaredCapacity` is the sum
of the running plots, as a `u64`. The last is exact only modulo `2 ^ 64`: the `+=` of
`register` and `restart_mining` wraps, and two plots of `2 ^ 33` GiB bring the capacity of
two running miners to `0`.

Every other call leaves the registry alone, whether it succeeds or not, and the calls that
move it keep the invariant under the guards they check; so it holds in every reachable state.
A staker's `update_staking`, finally, checks only that the miner is registered: unlike
`staking`, it raises the stake on a stopped miner and in chill time alike.
-/

namespace IpseCore.PocStaking

open Unsigned

variable {A H : Type} [DecidableEq A]

/-- The registry of miners. -/
@[ext] structure Registry (A : Type) where
  /-- `DiskOf`. -/
  diskOf : A → Option (MachineInfo A)
  /-- Whether `StakingInfoOf` has an entry. -/
  hasInfo : A → Bool
  /-- `AccountIdOfPid`. -/
  accountIdOfPid : ℕ → Option A
  /-- `Miners`. -/
  miners : Finset A
  /-- `MiningMiners`. -/
  miningMiners : Finset A
  /-- `DeclaredCapacity`. -/
  declaredCapacity : ℕ

namespace Registry

variable (r : Registry A) (m : A)

/-- The plot size of `m`'s stored disk, `0` without one. -/
def plotOf : ℕ := ((r.diskOf m).map MachineInfo.plotSize).getD 0

/-- Register `m` with disk `d` and empty staking info: `register`. -/
def register (d : MachineInfo A) : Registry A where
  diskOf := Function.update r.diskOf m (some d)
  hasInfo := Function.update r.hasInfo m true
  accountIdOfPid := Function.update r.accountIdOfPid d.numericId (some m)
  miners := insert m r.miners
  miningMiners := insert m r.miningMiners
  declaredCapacity := wrappingAdd gibBits r.declaredCapacity d.plotSize

/-- Change `m`'s stored disk by `f`: `DiskOf::mutate`. -/
def mutate (f : MachineInfo A → MachineInfo A) : Registry A :=
  { r with diskOf := Function.update r.diskOf m ((r.diskOf m).map f) }

/-- Move `m` from numeric id `old` to `p`: `update_numeric_id`. -/
def renumber (old p : ℕ) : Registry A :=
  let r := { r with accountIdOfPid := Function.update r.accountIdOfPid old none }
  let r := r.mutate m fun i => { i with numericId := p }
  { r with accountIdOfPid := Function.update r.accountIdOfPid p (some m) }

/-- Give `m`'s disk `d` a plot of `disk` bytes: `update_plot_size`. A running disk moves the
capacity from its old size to the new one. -/
def resize (d : MachineInfo A) (disk now : ℕ) : Registry A :=
  let capacity := if d.isStop then r.declaredCapacity
    else wrappingAdd gibBits (wrappingSub gibBits r.declaredCapacity d.plotSize) disk
  { r.mutate m (fun i => { i with plotSize := disk, updateTime := now }) with
    declaredCapacity := capacity }

/-- Stop `m`'s disk `d`: `stop_mining`. -/
def stop (d : MachineInfo A) : Registry A :=
  { r.mutate m (fun i => { i with isStop := true }) with
    declaredCapacity := wrappingSub gibBits r.declaredCapacity d.plotSize
    miningMiners := r.miningMiners.erase m }

/-- Restart `m`'s disk `d`: `restart_mining`. -/
def restart (d : MachineInfo A) (now : ℕ) : Registry A :=
  { r.mutate m (fun i => { i with updateTime := now, isStop := false }) with
    declaredCapacity := wrappingAdd gibBits r.declaredCapacity d.plotSize
    miningMiners := insert m r.miningMiners }

/-- The registry agrees with itself. -/
structure Inv (r : Registry A) : Prop where
  /-- A miner has staking info exactly when it has a disk. -/
  hasInfo_eq : ∀ m, r.hasInfo m = (r.diskOf m).isSome
  /-- `Miners` holds exactly the miners with a disk. -/
  mem_miners : ∀ m, m ∈ r.miners ↔ (r.diskOf m).isSome
  /-- `MiningMiners` holds exactly the miners whose disk runs. -/
  mem_miningMiners : ∀ m, m ∈ r.miningMiners ↔ ∃ d, r.diskOf m = some d ∧ d.isStop = false
  /-- `AccountIdOfPid` names for each id the miner whose disk carries it. -/
  pid_iff : ∀ p m, r.accountIdOfPid p = some m ↔ ∃ d, r.diskOf m = some d ∧ d.numericId = p
  /-- `DeclaredCapacity` is the sum of the running plots, as a `u64`. -/
  capacity_eq : r.declaredCapacity = (∑ m ∈ r.miningMiners, r.plotOf m) % 2 ^ gibBits

variable {r m}

omit [DecidableEq A] in
theorem plotOf_of_eq_some {d : MachineInfo A} (h : r.diskOf m = some d) :
    r.plotOf m = d.plotSize := by
  simp [plotOf, h]

@[simp] theorem mutate_diskOf_self (f : MachineInfo A → MachineInfo A) :
    (r.mutate m f).diskOf m = (r.diskOf m).map f := by
  simp [mutate]

theorem mutate_diskOf_ne {m' : A} (h : m' ≠ m) (f : MachineInfo A → MachineInfo A) :
    (r.mutate m f).diskOf m' = r.diskOf m' := by
  simp [mutate, h]

theorem mutate_diskOf_of_eq_some {d : MachineInfo A} (hd : r.diskOf m = some d)
    (f : MachineInfo A → MachineInfo A) :
    (r.mutate m f).diskOf = Function.update r.diskOf m (some (f d)) := by
  unfold Registry.mutate
  rw [hd]
  rfl

omit [DecidableEq A] in
/-- The running plots outside `m` are the same in two registries that differ at `m` only. -/
theorem sum_plotOf_congr {r' : Registry A} {S : Finset A} (hS : m ∉ S)
    (h : ∀ m', m' ≠ m → r'.diskOf m' = r.diskOf m') :
    ∑ m' ∈ S, r'.plotOf m' = ∑ m' ∈ S, r.plotOf m' :=
  Finset.sum_congr rfl fun m' hm' => by
    rw [plotOf, plotOf, h m' (fun he => hS (he ▸ hm'))]

/-- Changing a disk in what the invariant does not read keeps the invariant: the numeric
id, the stop flag and the plot size stay. -/
theorem Inv.mutate (h : r.Inv) {f : MachineInfo A → MachineInfo A}
    (hf : ∀ i, (f i).numericId = i.numericId ∧ (f i).isStop = i.isStop ∧
      (f i).plotSize = i.plotSize) :
    (r.mutate m f).Inv := by
  have hdisk : ∀ m', ((r.mutate m f).diskOf m').isSome = (r.diskOf m').isSome := by
    intro m'
    by_cases hm : m' = m
    · subst hm
      simp
    · rw [mutate_diskOf_ne hm]
  refine ⟨fun m' => ?_, fun m' => ?_, fun m' => ?_, fun p m' => ?_, ?_⟩
  · rw [hdisk]
    exact h.hasInfo_eq m'
  · rw [hdisk]
    exact h.mem_miners m'
  · by_cases hm : m' = m
    · subst hm
      change m' ∈ r.miningMiners ↔ _
      rw [h.mem_miningMiners]
      cases hd : r.diskOf m' <;> simp [mutate, hd, (hf _).2.1]
    · rw [mutate_diskOf_ne hm]
      exact h.mem_miningMiners m'
  · by_cases hm : m' = m
    · subst hm
      change r.accountIdOfPid p = some m' ↔ _
      rw [h.pid_iff]
      cases hd : r.diskOf m' <;> simp [mutate, hd, (hf _).1]
    · rw [mutate_diskOf_ne hm]
      exact h.pid_iff p m'
  · have hsum : ∑ m' ∈ r.miningMiners, (r.mutate m f).plotOf m' =
        ∑ m' ∈ r.miningMiners, r.plotOf m' := by
      refine Finset.sum_congr rfl fun m' _ => ?_
      by_cases hm : m' = m
      · subst hm
        cases hd : r.diskOf m' <;> simp [plotOf, hd, (hf _).2.2]
      · rw [plotOf, plotOf, mutate_diskOf_ne hm]
    exact h.capacity_eq.trans (congrArg (· % 2 ^ gibBits) hsum.symm)

/-- A change of `m`'s disk `d` into `d'` under the same numeric id, with the other maps
kept, keeps the invariant once `MiningMiners` and the capacity are shown to agree. -/
theorem Inv.keepId (h : r.Inv) {d d' : MachineInfo A} (hd : r.diskOf m = some d)
    {r' : Registry A} (hdisk : r'.diskOf = Function.update r.diskOf m (some d'))
    (hid : d'.numericId = d.numericId) (hinfo : r'.hasInfo = r.hasInfo)
    (hminers : r'.miners = r.miners) (hpid : r'.accountIdOfPid = r.accountIdOfPid)
    (hmining : ∀ m', m' ∈ r'.miningMiners ↔ ∃ d, r'.diskOf m' = some d ∧ d.isStop = false)
    (hcap : r'.declaredCapacity = (∑ m' ∈ r'.miningMiners, r'.plotOf m') % 2 ^ gibBits) :
    r'.Inv := by
  have hsome : ∀ m', (r'.diskOf m').isSome = (r.diskOf m').isSome := by
    intro m'
    by_cases hm : m' = m
    · subst hm
      simp [hdisk, hd]
    · simp [hdisk, hm]
  refine ⟨fun m' => ?_, fun m' => ?_, hmining, fun p m' => ?_, hcap⟩
  · rw [hinfo, hsome]
    exact h.hasInfo_eq m'
  · rw [hminers, hsome]
    exact h.mem_miners m'
  · rw [hpid, h.pid_iff]
    by_cases hm : m' = m
    · subst hm
      simp [hdisk, hd, hid]
    · simp [hdisk, hm]

/-- Registering a miner without a disk, under a free numeric id, keeps the invariant. -/
theorem Inv.register (h : r.Inv) {d : MachineInfo A} (hfree : r.diskOf m = none)
    (hpid : r.accountIdOfPid d.numericId = none) (hrun : d.isStop = false) :
    (r.register m d).Inv := by
  have hout : m ∉ r.miningMiners := by
    rw [h.mem_miningMiners]
    simp [hfree]
  refine ⟨fun m' => ?_, fun m' => ?_, fun m' => ?_, fun p m' => ?_, ?_⟩
  · by_cases hm : m' = m
    · subst hm
      simp [Registry.register]
    · simp [Registry.register, hm, h.hasInfo_eq]
  · by_cases hm : m' = m
    · subst hm
      simp [Registry.register]
    · simp [Registry.register, hm, h.mem_miners]
  · by_cases hm : m' = m
    · subst hm
      simp [Registry.register, hrun]
    · simp [Registry.register, hm, h.mem_miningMiners]
  · by_cases hp : p = d.numericId
    · -- the new id names the new miner, and no disk carried it before
      subst hp
      by_cases hm : m' = m
      · subst hm
        simp [Registry.register]
      · simp only [Registry.register, Function.update_self, Option.some.injEq,
          Function.update_of_ne hm, Ne.symm hm, false_iff, not_exists, not_and]
        intro d' hd' hid
        have := (h.pid_iff _ m').mpr ⟨d', hd', hid⟩
        rw [hpid] at this
        exact absurd this (by simp)
    · rw [show (r.register m d).accountIdOfPid p = r.accountIdOfPid p from
        Function.update_of_ne hp _ _]
      by_cases hm : m' = m
      · -- the new miner carries only its new id, and had no old one
        subst hm
        simp only [Registry.register, Function.update_self, Option.some.injEq, exists_eq_left']
        constructor
        · intro hq
          obtain ⟨d', hd', -⟩ := (h.pid_iff p m').mp hq
          rw [hfree] at hd'
          exact absurd hd' (by simp)
        · intro hid
          exact absurd hid.symm hp
      · simp only [Registry.register, Function.update_of_ne hm]
        exact h.pid_iff p m'
  · have hne : ∀ m', m' ≠ m → (r.register m d).diskOf m' = r.diskOf m' := by
      intro m' hm
      simp [Registry.register, hm]
    have hsum : ∑ m' ∈ insert m r.miningMiners, (r.register m d).plotOf m' =
        d.plotSize + ∑ m' ∈ r.miningMiners, r.plotOf m' := by
      rw [Finset.sum_insert hout, plotOf_of_eq_some (d := d) (by simp [Registry.register]),
        sum_plotOf_congr hout hne]
    show wrappingAdd gibBits r.declaredCapacity d.plotSize =
      (∑ m' ∈ insert m r.miningMiners, (r.register m d).plotOf m') % 2 ^ gibBits
    rw [hsum, h.capacity_eq, wrappingAdd_mod, Nat.add_comm]

/-- Splitting the running plots at a running miner. -/
theorem sum_plotOf_erase {S : Finset A} (hm : m ∈ S) :
    ∑ m' ∈ S, r.plotOf m' = r.plotOf m + ∑ m' ∈ S.erase m, r.plotOf m' :=
  (Finset.add_sum_erase S r.plotOf hm).symm

/-- Resizing a stored disk keeps the invariant: a running plot moves the capacity by the
change of size, a stopped one leaves it. -/
theorem Inv.resize (h : r.Inv) {d : MachineInfo A} (hd : r.diskOf m = some d) (disk now : ℕ) :
    (r.resize m d disk now).Inv := by
  have hdisk : (r.resize m d disk now).diskOf =
      Function.update r.diskOf m (some { d with plotSize := disk, updateTime := now }) :=
    mutate_diskOf_of_eq_some hd fun i => { i with plotSize := disk, updateTime := now }
  have hne : ∀ m', m' ≠ m → (r.resize m d disk now).diskOf m' = r.diskOf m' := by
    intro m' hm
    rw [hdisk, Function.update_of_ne hm]
  refine h.keepId hd hdisk rfl rfl rfl rfl (fun m' => ?_) ?_
  · change m' ∈ r.miningMiners ↔ _
    rw [h.mem_miningMiners]
    by_cases hm : m' = m
    · subst hm
      simp [hdisk, hd]
    · rw [hne m' hm]
  · have hcap : (r.resize m d disk now).declaredCapacity = if d.isStop then r.declaredCapacity
        else wrappingAdd gibBits (wrappingSub gibBits r.declaredCapacity d.plotSize) disk := rfl
    change (r.resize m d disk now).declaredCapacity =
      (∑ m' ∈ r.miningMiners, (r.resize m d disk now).plotOf m') % 2 ^ gibBits
    rw [hcap]
    by_cases hstop : d.isStop
    · -- a stopped disk is not counted, before or after
      have hout : m ∉ r.miningMiners := by
        rw [h.mem_miningMiners]
        simp [hd, hstop]
      rw [if_pos hstop, h.capacity_eq, sum_plotOf_congr hout hne]
    · -- a running one is counted at its old size before and at its new size after
      have hin : m ∈ r.miningMiners := by
        rw [h.mem_miningMiners]
        simp [hd, hstop]
      have hrest := sum_plotOf_congr (Finset.notMem_erase m r.miningMiners) hne
      have hnew : (r.resize m d disk now).plotOf m = disk :=
        plotOf_of_eq_some (by rw [hdisk, Function.update_self])
      rw [if_neg hstop, h.capacity_eq, sum_plotOf_erase (r := r) hin,
        sum_plotOf_erase (r := r.resize m d disk now) hin, plotOf_of_eq_some hd, hnew, hrest,
        wrappingSub_mod_of_le (Nat.le_add_right _ _), Nat.add_sub_cancel_left, wrappingAdd_mod,
        Nat.add_comm]

/-- Stopping a running disk keeps the invariant: it leaves `MiningMiners` and its plot the
capacity. -/
theorem Inv.stop (h : r.Inv) {d : MachineInfo A} (hd : r.diskOf m = some d)
    (hrun : d.isStop = false) : (r.stop m d).Inv := by
  have hdisk : (r.stop m d).diskOf = Function.update r.diskOf m (some { d with isStop := true }) :=
    mutate_diskOf_of_eq_some hd fun i => { i with isStop := true }
  have hne : ∀ m', m' ≠ m → (r.stop m d).diskOf m' = r.diskOf m' := by
    intro m' hm
    rw [hdisk, Function.update_of_ne hm]
  have hin : m ∈ r.miningMiners := by
    rw [h.mem_miningMiners]
    exact ⟨d, hd, hrun⟩
  refine h.keepId hd hdisk rfl rfl rfl rfl (fun m' => ?_) ?_
  · change m' ∈ r.miningMiners.erase m ↔ _
    rw [Finset.mem_erase, h.mem_miningMiners]
    by_cases hm : m' = m
    · subst hm
      simp [hdisk]
    · rw [hne m' hm]
      simp [hm]
  · have hrest := sum_plotOf_congr (Finset.notMem_erase m r.miningMiners) hne
    change wrappingSub gibBits r.declaredCapacity d.plotSize =
      (∑ m' ∈ r.miningMiners.erase m, (r.stop m d).plotOf m') % 2 ^ gibBits
    rw [hrest, h.capacity_eq, sum_plotOf_erase (r := r) hin, plotOf_of_eq_some hd,
      wrappingSub_mod_of_le (Nat.le_add_right _ _), Nat.add_sub_cancel_left]

/-- Restarting a stopped disk keeps the invariant: it joins `MiningMiners` and its plot the
capacity. -/
theorem Inv.restart (h : r.Inv) {d : MachineInfo A} (hd : r.diskOf m = some d)
    (hstop : d.isStop = true) (now : ℕ) : (r.restart m d now).Inv := by
  have hdisk : (r.restart m d now).diskOf =
      Function.update r.diskOf m (some { d with updateTime := now, isStop := false }) :=
    mutate_diskOf_of_eq_some hd fun i => { i with updateTime := now, isStop := false }
  have hne : ∀ m', m' ≠ m → (r.restart m d now).diskOf m' = r.diskOf m' := by
    intro m' hm
    rw [hdisk, Function.update_of_ne hm]
  have hout : m ∉ r.miningMiners := by
    rw [h.mem_miningMiners]
    simp [hd, hstop]
  refine h.keepId hd hdisk rfl rfl rfl rfl (fun m' => ?_) ?_
  · change m' ∈ insert m r.miningMiners ↔ _
    rw [Finset.mem_insert, h.mem_miningMiners]
    by_cases hm : m' = m
    · subst hm
      simp [hdisk]
    · rw [hne m' hm]
      simp [hm]
  · change wrappingAdd gibBits r.declaredCapacity d.plotSize =
      (∑ m' ∈ insert m r.miningMiners, (r.restart m d now).plotOf m') % 2 ^ gibBits
    rw [Finset.sum_insert hout, sum_plotOf_congr hout hne, plotOf_of_eq_some (by rw [hdisk, Function.update_self]),
      h.capacity_eq, wrappingAdd_mod, Nat.add_comm]

/-- Moving a miner to a numeric id that is free, or already its own, keeps the invariant. -/
theorem Inv.renumber (h : r.Inv) {d : MachineInfo A} (hd : r.diskOf m = some d) {p : ℕ}
    (hp : r.accountIdOfPid p = none ∨ r.accountIdOfPid p = some m) :
    (r.renumber m d.numericId p).Inv := by
  have hdisk : (r.renumber m d.numericId p).diskOf =
      Function.update r.diskOf m (some { d with numericId := p }) :=
    mutate_diskOf_of_eq_some (r := { r with accountIdOfPid := _ }) hd
      fun i => { i with numericId := p }
  have hne : ∀ m', m' ≠ m → (r.renumber m d.numericId p).diskOf m' = r.diskOf m' := by
    intro m' hm
    rw [hdisk, Function.update_of_ne hm]
  have hpid : (r.renumber m d.numericId p).accountIdOfPid =
      Function.update (Function.update r.accountIdOfPid d.numericId none) p (some m) := rfl
  have hsome : ∀ m', ((r.renumber m d.numericId p).diskOf m').isSome = (r.diskOf m').isSome := by
    intro m'
    by_cases hm : m' = m
    · subst hm
      simp [hdisk, hd]
    · rw [hne m' hm]
  -- the old id named `m` alone
  have hold : r.accountIdOfPid d.numericId = some m := (h.pid_iff _ m).mpr ⟨d, hd, rfl⟩
  refine ⟨fun m' => ?_, fun m' => ?_, fun m' => ?_, fun q m' => ?_, ?_⟩
  · rw [hsome]
    exact h.hasInfo_eq m'
  · rw [hsome]
    exact h.mem_miners m'
  · change m' ∈ r.miningMiners ↔ _
    rw [h.mem_miningMiners]
    by_cases hm : m' = m
    · subst hm
      simp [hdisk, hd]
    · rw [hne m' hm]
  · rw [hpid]
    by_cases hm : m' = m
    · subst hm
      by_cases hq : q = p
      · subst hq
        simp [hdisk]
      · rw [Function.update_of_ne hq, hdisk, Function.update_self]
        simp only [Option.some.injEq, exists_eq_left', Ne.symm hq, iff_false]
        by_cases hqold : q = d.numericId
        · subst hqold
          simp
        · rw [Function.update_of_ne hqold]
          intro hq'
          obtain ⟨d', hd', hid⟩ := (h.pid_iff q m').mp hq'
          rw [hd, Option.some.injEq] at hd'
          subst hd'
          exact hqold hid.symm
    · rw [hne m' hm]
      by_cases hq : q = p
      · -- `p` was free or `m`'s, so no other disk carried it
        subst hq
        simp only [Function.update_self, Option.some.injEq, Ne.symm hm, false_iff, not_exists,
          not_and]
        intro d' hd' hid
        have hq' := (h.pid_iff q m').mpr ⟨d', hd', hid⟩
        rcases hp with hp | hp <;> rw [hp] at hq' <;> simp at hq'
        exact hm hq'.symm
      · rw [Function.update_of_ne hq]
        by_cases hqold : q = d.numericId
        · subst hqold
          simp only [Function.update_self, reduceCtorEq, false_iff, not_exists, not_and]
          intro d' hd' hid
          have hq' := (h.pid_iff _ m').mpr ⟨d', hd', hid⟩
          rw [hold, Option.some.injEq] at hq'
          exact hm hq'.symm
        · rw [Function.update_of_ne hqold]
          exact h.pid_iff q m'
  · have hsum : ∑ m' ∈ r.miningMiners, (r.renumber m d.numericId p).plotOf m' =
        ∑ m' ∈ r.miningMiners, r.plotOf m' := by
      refine Finset.sum_congr rfl fun m' _ => ?_
      by_cases hm : m' = m
      · subst hm
        rw [plotOf_of_eq_some hd, plotOf_of_eq_some (by rw [hdisk, Function.update_self])]
      · rw [plotOf, plotOf, hne m' hm]
    exact h.capacity_eq.trans (congrArg (· % 2 ^ gibBits) hsum.symm)

@[simp] theorem register_miningMiners (d : MachineInfo A) :
    (r.register m d).miningMiners = insert m r.miningMiners := rfl

@[simp] theorem plotOf_register_self (d : MachineInfo A) : (r.register m d).plotOf m = d.plotSize :=
  plotOf_of_eq_some (Function.update_self _ _ _)

theorem plotOf_register_of_ne {m' : A} (h : m' ≠ m) (d : MachineInfo A) :
    (r.register m d).plotOf m' = r.plotOf m' := by
  simp [plotOf, Registry.register, h]

omit [DecidableEq A] in
/-- No two miners carry the same numeric id. -/
theorem Inv.eq_of_numericId (h : r.Inv) {m₁ m₂ : A} {d₁ d₂ : MachineInfo A}
    (hd₁ : r.diskOf m₁ = some d₁) (hd₂ : r.diskOf m₂ = some d₂)
    (hid : d₁.numericId = d₂.numericId) : m₁ = m₂ := by
  have h₁ : r.accountIdOfPid d₁.numericId = some m₁ := (h.pid_iff _ _).mpr ⟨d₁, hd₁, rfl⟩
  have h₂ : r.accountIdOfPid d₁.numericId = some m₂ := (h.pid_iff _ _).mpr ⟨d₂, hd₂, hid.symm⟩
  rw [h₁, Option.some.injEq] at h₂
  exact h₂

omit [DecidableEq A] in
/-- Every id in `AccountIdOfPid` names a registered miner. -/
theorem Inv.mem_miners_of_pid (h : r.Inv) {p : ℕ} (hp : r.accountIdOfPid p = some m) :
    m ∈ r.miners := by
  obtain ⟨d, hd, -⟩ := (h.pid_iff p m).mp hp
  rw [h.mem_miners, hd]
  rfl

/-- What one call can do to the registry, under the guards the calls check: nothing, or one
of the six moves of a miner. -/
inductive Moves : Registry A → Registry A → Prop
  | stay (r : Registry A) : Moves r r
  | register {r : Registry A} {m : A} {d : MachineInfo A} (hfree : r.diskOf m = none)
      (hpid : r.accountIdOfPid d.numericId = none) (hrun : d.isStop = false) :
      Moves r (r.register m d)
  | mutate {r : Registry A} {m : A} {f : MachineInfo A → MachineInfo A}
      (hf : ∀ i, (f i).numericId = i.numericId ∧ (f i).isStop = i.isStop ∧
        (f i).plotSize = i.plotSize) :
      Moves r (r.mutate m f)
  | renumber {r : Registry A} {m : A} {d : MachineInfo A} {p : ℕ} (hd : r.diskOf m = some d)
      (hp : r.accountIdOfPid p = none ∨ r.accountIdOfPid p = some m) :
      Moves r (r.renumber m d.numericId p)
  | resize {r : Registry A} {m : A} {d : MachineInfo A} (hd : r.diskOf m = some d)
      (disk now : ℕ) : Moves r (r.resize m d disk now)
  | stop {r : Registry A} {m : A} {d : MachineInfo A} (hd : r.diskOf m = some d)
      (hrun : d.isStop = false) : Moves r (r.stop m d)
  | restart {r : Registry A} {m : A} {d : MachineInfo A} (hd : r.diskOf m = some d)
      (hstop : d.isStop = true) (now : ℕ) : Moves r (r.restart m d now)

/-- Every move keeps the registry consistent. -/
theorem Inv.moves (h : r.Inv) {r' : Registry A} (hmv : Moves r r') : r'.Inv := by
  cases hmv with
  | stay => exact h
  | register hfree hpid hrun => exact h.register hfree hpid hrun
  | mutate hf => exact h.mutate hf
  | renumber hd hp => exact h.renumber hd hp
  | resize hd disk now => exact h.resize hd disk now
  | stop hd hrun => exact h.stop hd hrun
  | restart hd hstop now => exact h.restart hd hstop now

/-- `is_register`: `m` has a disk and staking info. -/
def registered (r : Registry A) (m : A) : Bool := (r.diskOf m).isSome && r.hasInfo m

@[simp] theorem mutate_hasInfo (f : MachineInfo A → MachineInfo A) :
    (r.mutate m f).hasInfo = r.hasInfo := rfl

@[simp] theorem mutate_registered (f : MachineInfo A → MachineInfo A) (m' : A) :
    (r.mutate m f).registered m' = r.registered m' := by
  by_cases hm : m' = m
  · subst hm
    simp [registered]
  · simp [registered, mutate_diskOf_ne hm]

/-- No move unregisters a miner. -/
theorem Moves.registered_of {r' : Registry A} (hmv : Moves r r') {m' : A}
    (hm : r.registered m' = true) : r'.registered m' = true := by
  cases hmv with
  | stay => exact hm
  | @register m d _ _ _ =>
    by_cases hm' : m' = m
    · subst hm'
      simp [registered, Registry.register]
    · simpa [registered, Registry.register, Function.update_apply, hm'] using hm
  | mutate => rwa [mutate_registered]
  | renumber =>
    -- `renumber` is a `mutate` between two writes of `AccountIdOfPid`
    unfold Registry.renumber
    exact (mutate_registered _ _).trans hm
  | resize => exact (mutate_registered _ _).trans hm
  | stop => exact (mutate_registered _ _).trans hm
  | restart => exact (mutate_registered _ _).trans hm

end Registry

/-! ### The registry in the storage -/

/-- The registry in the pallet's storage. -/
def State.registry (s : State A) : Registry A where
  diskOf := s.diskOf
  hasInfo m := (s.stakingInfoOf m).isSome
  accountIdOfPid := s.accountIdOfPid
  miners := s.miners
  miningMiners := s.miningMiners
  declaredCapacity := s.declaredCapacity

section Fields

omit [DecidableEq A]

variable (s : State A)

/-- The registry lives in the core of the storage. -/
theorem State.registry_eq_of_core {s' : State A} (h : s'.core = s.core) :
    s'.registry = s.registry := by
  have hcore := congrArg State.registry h
  exact hcore

@[simp] theorem State.registry_with_minersOf (f : A → List A) :
    { s with minersOf := f }.registry = s.registry := rfl

@[simp] theorem State.registry_with_isChillTime (b : Bool) :
    { s with isChillTime := b }.registry = s.registry := rfl

@[simp] theorem State.registry_with_miningNum (n : ℕ) :
    { s with miningNum := n }.registry = s.registry := rfl

@[simp] theorem State.registry_with_recommendList (l : List (A × ℕ)) :
    { s with recommendList := l }.registry = s.registry := rfl

@[simp] theorem State.registry_with_locks (l : A → Option (List (ℕ × ℕ))) :
    { s with locks := l }.registry = s.registry := rfl

variable [DecidableEq A]

/-- Storing the staking info of a miner that has some leaves the registry alone. -/
theorem State.registry_update_stakingInfoOf {m : A} (h : (s.stakingInfoOf m).isSome)
    (info : StakingInfo A) :
    { s with stakingInfoOf := Function.update s.stakingInfoOf m (some info) }.registry =
      s.registry := by
  refine Registry.ext rfl ?_ rfl rfl rfl rfl
  funext m'
  by_cases hm : m' = m
  · subst hm
    simp [State.registry, h]
  · simp [State.registry, hm]

/-- The same, with `MinersOf` written alongside, as `staking` does. -/
theorem State.registry_update_stakingInfoOf_minersOf {m : A} (h : (s.stakingInfoOf m).isSome)
    (info : StakingInfo A) (f : A → List A) :
    { s with stakingInfoOf := Function.update s.stakingInfoOf m (some info), minersOf := f }.registry =
      s.registry :=
  State.registry_update_stakingInfoOf s h info

@[simp] theorem mutateDisk_registry (miner : A) (f : MachineInfo A → MachineInfo A) :
    (mutateDisk s miner f).registry = s.registry.mutate miner f := rfl

theorem resizeDisk_registry {miner : A} {i : MachineInfo A} (hi : s.diskOf miner = some i)
    (disk now : ℕ) : (resizeDisk s miner disk now).registry = s.registry.resize miner i disk now := by
  unfold resizeDisk
  simp only [hi]
  rfl

@[simp] theorem stakerRemoveMiner_registry (staker miner : A) :
    (stakerRemoveMiner s staker miner).registry = s.registry := rfl

end Fields

/-! ### What the calls do to the registry -/

section Helpers

variable (c : Config) (w : World A H)

@[simp] theorem storeStakerInfo_registry {miner : A} (h : (w.staking.stakingInfoOf miner).isSome)
    (info : StakingInfo A) (stakerInfo : A × ℕ × ℕ) (others : List (A × ℕ × ℕ))
    (nowBond nowStaking : ℕ) (isSlash : Bool) :
    (storeStakerInfo c w miner info stakerInfo others nowBond nowStaking isSlash).staking.registry =
      w.staking.registry := by
  unfold storeStakerInfo
  dsimp only
  -- the deposit moves balances and `MinersOf` only; then the info is stored over the old one
  split_ifs <;>
    rw [World.setStaking_staking, State.registry_update_stakingInfoOf _ (by simpa using h)] <;>
    simp

/-- `update_staking_info` stores the staking info only of a registered miner, over the old. -/
@[simp] theorem updateStakingInfo_registry (miner staker : A) (operate : Operate)
    (amountOpt : Option ℕ) (isSlash : Bool) :
    (updateStakingInfo c w miner staker operate amountOpt isSlash).state.staking.registry =
      w.staking.registry := by
  unfold updateStakingInfo
  split_ifs
  · rfl
  cases hinfo : w.staking.stakingInfoOf miner with
  | none => rfl
  | some info =>
    have hsome : (w.staking.stakingInfoOf miner).isSome := by simp [hinfo]
    dsimp only
    split
    · rfl
    cases operate with
    | Add =>
      dsimp only
      split
      · split
        · simp
        · rw [Machine.Outcome.ok_state, storeStakerInfo_registry _ _ (by simpa using hsome),
            reserve_staking]
      · rfl
    | Sub =>
      dsimp only
      split
      · -- the amount is locked, and written into `Locks`, before the info is stored
        rw [Machine.Outcome.ok_state, storeStakerInfo_registry]
        · exact State.registry_eq_of_core _ (by simp)
        · simp [lockAddAmount, hinfo]
      · rfl

/-- `remove_staker` and `exit_Staking` leave the registry alone. -/
theorem leaveStaking_registry (miner staker : A) (isSlash : Bool) :
    ((updateStakingInfo c w miner staker .Sub none isSlash).andThen fun w =>
      .ok (w.setStaking (stakerRemoveMiner w.staking staker miner))).state.staking.registry =
      w.staking.registry :=
  Machine.Outcome.andThen_state_of (P := fun w' : World A H => w'.staking.registry = w.staking.registry)
    (updateStakingInfo_registry c w miner staker .Sub none isSlash)
    (by simp)

end Helpers

/-! The calls that leave the registry alone. -/

section Unchanged

variable (c : Config) (w : World A H)

theorem requestUpToList_registry (miner : A) (amount : ℕ) :
    (requestUpToList c w miner amount).state.staking.registry = w.staking.registry := by
  unfold requestUpToList
  split
  · rfl
  · rfl
  · exact State.registry_eq_of_core _ (sortAccountByAmount_core c w miner amount)

theorem requestDownFromList_registry (miner : A) :
    (requestDownFromList c w miner).state.staking.registry = w.staking.registry := by
  unfold requestDownFromList
  split
  · rfl
  · simp only [Machine.Outcome.ok_state, World.setStaking_staking,
      State.registry_with_recommendList]
    exact State.registry_eq_of_core _ (by simp)

theorem staking_registry (who miner : A) (amount : ℕ) :
    (staking c w who miner amount).state.staking.registry = w.staking.registry := by
  unfold staking
  split
  · rfl
  dsimp only
  split_ifs
  · rfl
  · rfl
  · rfl
  split
  · rfl
  · rfl
  · rename_i info hinfo
    split_ifs
    · rfl
    split
    · rfl
    · split
      · simp
      · -- the staker is added to the miner's info, which was there
        rw [Machine.Outcome.ok_state, World.setStaking_staking,
          State.registry_update_stakingInfoOf_minersOf _ (by simp [hinfo]), reserve_staking]

theorem updateProportion_registry (miner : A) (proportion : Percent) :
    (updateProportion w miner proportion).state.staking.registry = w.staking.registry := by
  unfold updateProportion
  split_ifs
  · rfl
  split
  · rfl
  · rfl
  · rename_i info hinfo
    exact State.registry_update_stakingInfoOf _ (by simp [hinfo]) _

end Unchanged


/-! The calls that move the registry keep it consistent. -/

section Moves

variable {w : World A H}

omit [DecidableEq A] in
/-- With a consistent registry, `is_register` asks only whether the disk is stored. -/
theorem isRegister_of_inv {s : State A} (h : s.registry.Inv) (m : A) :
    isRegister s m = (s.diskOf m).isSome := by
  have hinfo : (s.stakingInfoOf m).isSome = (s.diskOf m).isSome := h.hasInfo_eq m
  simp [isRegister, hinfo]

omit [DecidableEq A] in
/-- `is_can_mining` passes only a miner whose stored disk runs. -/
theorem exists_running_of_isCanMining {s : State A} {m : A} {b : Bool}
    (h : isCanMining s m = .ok b) : ∃ d, s.diskOf m = some d ∧ d.isStop = false := by
  unfold isCanMining at h
  split at h
  · rename_i d _ hd _
    split_ifs at h with hstop
    exact ⟨d, hd, by simpa using hstop⟩
  · simp at h

/-- A `register` that passes its guards writes the miner into the registry, with a running
disk of the plot in bytes. -/
theorem register_registry (miner : A) (plotSize numericId minerProportion : ℕ)
    (rewardDest : Option A) {disk : ℕ} (hzero : plotSize ≠ 0)
    (hdisk : checkedMul gibBits plotSize GiB = some disk)
    (hnew : isRegister w.staking miner = false)
    (hfree : w.staking.accountIdOfPid numericId = none) :
    (register w miner plotSize numericId minerProportion rewardDest).result = .ok () ∧
      (register w miner plotSize numericId minerProportion rewardDest).state.staking.registry =
        w.staking.registry.register miner
          ⟨disk, numericId, w.blockNumber, false, rewardDest.getD miner⟩ := by
  simp only [register, hzero, hdisk, hnew, hfree, Option.isSome_none, Bool.false_eq_true,
    if_false, Machine.Outcome.ok_result, Machine.Outcome.ok_state, World.setStaking_staking,
    true_and]
  refine Registry.ext rfl ?_ rfl rfl rfl rfl
  funext m
  by_cases hm : m = miner
  · subst hm
    simp [State.registry, Registry.register]
  · simp [State.registry, Registry.register, hm]

theorem register_registry_moves (h : w.staking.registry.Inv) (miner : A)
    (plotSize numericId minerProportion : ℕ) (rewardDest : Option A) :
    Registry.Moves w.staking.registry
      (register w miner plotSize numericId minerProportion rewardDest).state.staking.registry := by
  by_cases hzero : plotSize = 0
  · simp only [register, hzero, if_true]
    exact .stay _
  cases hdisk : checkedMul gibBits plotSize GiB with
  | none =>
    simp only [register, hzero, hdisk, if_false]
    exact .stay _
  | some disk =>
    by_cases hreg : isRegister w.staking miner = true
    · simp only [register, hzero, hdisk, hreg, if_false, if_true]
      exact .stay _
    cases hpid : w.staking.accountIdOfPid numericId with
    | some m =>
      simp only [register, hzero, hdisk, hreg, hpid, if_false, if_true, Option.isSome_some,
        Bool.false_eq_true]
      exact .stay _
    | none =>
      -- a consistent registry has no disk for a miner that is not registered
      have hfree : w.staking.diskOf miner = none := by
        rw [isRegister_of_inv h] at hreg
        simpa using hreg
      rw [(register_registry miner plotSize numericId minerProportion rewardDest hzero hdisk
        (by simpa using hreg) hpid).2]
      exact .register hfree hpid rfl

theorem register_registry_inv (h : w.staking.registry.Inv) (miner : A)
    (plotSize numericId minerProportion : ℕ) (rewardDest : Option A) :
    (register w miner plotSize numericId minerProportion rewardDest).state.staking.registry.Inv :=
  h.moves (register_registry_moves h miner plotSize numericId minerProportion rewardDest)

theorem updateRewardDest_registry_moves (miner dest : A) :
    Registry.Moves w.staking.registry (updateRewardDest w miner dest).state.staking.registry := by
  unfold updateRewardDest
  split_ifs
  · exact .stay _
  · rw [Machine.Outcome.ok_state, World.setStaking_staking, mutateDisk_registry]
    exact .mutate fun i => ⟨rfl, rfl, rfl⟩

theorem updateNumericId_registry_moves (miner : A) (numericId : ℕ) :
    Registry.Moves w.staking.registry (updateNumericId w miner numericId).state.staking.registry := by
  simp only [updateNumericId]
  split_ifs with hreg hused
  · exact .stay _
  · exact .stay _
  split
  · exact .stay _
  · rename_i disk hd
    -- the new id is free or already the miner's own
    have hp : w.staking.accountIdOfPid numericId = none ∨
        w.staking.accountIdOfPid numericId = some miner := by
      cases hq : w.staking.accountIdOfPid numericId with
      | none => exact .inl rfl
      | some q =>
        rw [hq] at hused
        simpa using hused
    exact .renumber (m := miner) hd hp

theorem setPlotSize_registry_moves (removeHistory : A → H → H) (miner : A) (disk : ℕ) :
    Registry.Moves w.staking.registry
      (setPlotSize removeHistory w miner disk).state.staking.registry := by
  unfold setPlotSize
  dsimp only
  split_ifs
  · exact .stay _
  · exact .stay _
  · exact .stay _
  · rw [Machine.Outcome.ok_state, World.setStaking_staking]
    cases hi : w.staking.diskOf miner with
    | none =>
      unfold resizeDisk
      simp only [hi]
      exact .stay _
    | some i =>
      rw [resizeDisk_registry _ hi]
      exact .resize hi disk _

theorem updatePlotSize_registry_moves (removeHistory : A → H → H) (miner : A) (plotSize : ℕ) :
    Registry.Moves w.staking.registry
      (updatePlotSize removeHistory w miner plotSize).state.staking.registry := by
  unfold updatePlotSize
  cases checkedMul gibBits plotSize GiB with
  | none => exact .stay _
  | some disk => exact setPlotSize_registry_moves removeHistory miner disk

theorem stopMining_registry_moves (miner : A) :
    Registry.Moves w.staking.registry (stopMining w miner).state.staking.registry := by
  simp only [stopMining]
  split
  · exact .stay _
  · rename_i b hcan
    obtain ⟨d, hd, hrun⟩ := exists_running_of_isCanMining hcan
    simp only [hd]
    exact .stop (m := miner) hd hrun

theorem restartMining_registry_moves (removeHistory : A → H → H) (miner : A) :
    Registry.Moves w.staking.registry (restartMining removeHistory w miner).state.staking.registry := by
  simp only [restartMining]
  split_ifs
  · exact .stay _
  split
  · exact .stay _
  · rename_i x hx
    split_ifs with hstop
    · exact .stay _
    · exact .restart (m := miner) hx (by simpa using hstop) w.blockNumber

end Moves


/-! ### Over whole runs -/

section Runs

omit [DecidableEq A] in
@[simp] theorem updateChill_registry (c : Config) (s : State A) (now : ℕ) :
    (updateChill c s now).registry = s.registry := by
  unfold updateChill
  dsimp only
  split_ifs <;> rfl

/-- Every call moves the registry by one of its moves, or not at all. -/
theorem dispatch_registry_moves (c : Config) (removeHistory : A → H → H) {w : World A H}
    (h : w.staking.registry.Inv) (origin : Origin A) (call : Call A) :
    Registry.Moves w.staking.registry
      (dispatch c removeHistory w origin call).state.staking.registry := by
  cases origin with
  | root => exact .stay _
  | none => exact .stay _
  | signed who =>
    cases call with
    | register plotSize numericId minerProportion rewardDest =>
      exact register_registry_moves h who plotSize numericId minerProportion rewardDest
    | requestUpToList amount => rw [dispatch, requestUpToList_registry]; exact .stay _
    | requestDownFromList => rw [dispatch, requestDownFromList_registry]; exact .stay _
    | updateRewardDest dest => exact updateRewardDest_registry_moves who dest
    | updateNumericId numericId => exact updateNumericId_registry_moves who numericId
    | updatePlotSize plotSize => exact updatePlotSize_registry_moves removeHistory who plotSize
    | stopMining => exact stopMining_registry_moves who
    | restartMining => exact restartMining_registry_moves removeHistory who
    | removeStaker staker => rw [dispatch, removeStaker, leaveStaking_registry]; exact .stay _
    | staking miner amount => rw [dispatch, staking_registry]; exact .stay _
    | updateStaking miner operate amount =>
      rw [dispatch, updateStaking, updateStakingInfo_registry]; exact .stay _
    | unlock =>
      rw [dispatch, unlock, Machine.Outcome.ok_state,
        State.registry_eq_of_core _ (lockSubAmount_core c w who)]
      exact .stay _
    | exitStaking miner => rw [dispatch, exitStaking, leaveStaking_registry]; exact .stay _
    | updateProportion proportion => rw [dispatch, updateProportion_registry]; exact .stay _

omit [DecidableEq A] in
theorem State.empty_registry_inv : (State.empty : State A).registry.Inv where
  hasInfo_eq _ := rfl
  mem_miners _ := by simp [State.empty, State.registry]
  mem_miningMiners _ := by simp [State.empty, State.registry]
  pid_iff _ _ := by simp [State.empty, State.registry]
  capacity_eq := by simp [State.empty, State.registry]

theorem step_registry_moves (c : Config) (removeHistory : A → H → H) {w : World A H}
    (h : w.staking.registry.Inv) (e : Event A H) :
    Registry.Moves w.staking.registry (step c removeHistory w e).staking.registry := by
  cases e with
  | call origin call => exact dispatch_registry_moves c removeHistory h origin call
  | nextBlock =>
    -- the hooks write `IsChillTime` and `MiningNum` only
    have hhooks : (step c removeHistory w .nextBlock).staking.registry = w.staking.registry := by
      simp [step, onInitialize, onFinalize]
    rw [hhooks]
    exact .stay _
  | external balances handler => exact .stay _

theorem step_registry_inv (c : Config) (removeHistory : A → H → H) {w : World A H}
    (h : w.staking.registry.Inv) (e : Event A H) :
    (step c removeHistory w e).staking.registry.Inv :=
  h.moves (step_registry_moves c removeHistory h e)

/-- The registry is consistent in every state the pallet reaches. -/
theorem reachable_registry_inv {c : Config} (removeHistory : A → H → H)
    (balances : Balances.State A) (handler : H) {w : World A H}
    (hw : (machine c removeHistory balances handler).Reachable w) : w.staking.registry.Inv := by
  induction hw with
  | init => exact State.empty_registry_inv
  | step e _ ih => exact step_registry_inv c removeHistory ih e

/-- In every reachable state a miner has a disk exactly when it has staking info and is in
`Miners`, `MiningMiners` holds the registered miners whose disk runs, and `AccountIdOfPid` and
the disks' numeric ids are inverse to each other. -/
theorem registry_consistent {c : Config} (removeHistory : A → H → H)
    (balances : Balances.State A) (handler : H) {w : World A H}
    (hw : (machine c removeHistory balances handler).Reachable w) :
    (∀ m, ((w.staking.diskOf m).isSome ↔ (w.staking.stakingInfoOf m).isSome) ∧
      ((w.staking.stakingInfoOf m).isSome ↔ m ∈ w.staking.miners)) ∧
    (∀ m, m ∈ w.staking.miningMiners ↔
      m ∈ w.staking.miners ∧ ∃ d, w.staking.diskOf m = some d ∧ d.isStop = false) ∧
    (∀ p m, w.staking.accountIdOfPid p = some m ↔
      ∃ d, w.staking.diskOf m = some d ∧ d.numericId = p) ∧
    (∀ m₁ m₂ d₁ d₂, w.staking.diskOf m₁ = some d₁ → w.staking.diskOf m₂ = some d₂ →
      d₁.numericId = d₂.numericId → m₁ = m₂) ∧
    (∀ p m, w.staking.accountIdOfPid p = some m → isRegister w.staking m = true) := by
  have h := reachable_registry_inv removeHistory balances handler hw
  -- the fields of the invariant, read on the storage
  have hminers : ∀ m, m ∈ w.staking.miners ↔ (w.staking.diskOf m).isSome := h.mem_miners
  have hmining : ∀ m, m ∈ w.staking.miningMiners ↔
      ∃ d, w.staking.diskOf m = some d ∧ d.isStop = false := h.mem_miningMiners
  refine ⟨fun m => ?_, fun m => ?_, h.pid_iff, fun m₁ m₂ d₁ d₂ => h.eq_of_numericId, ?_⟩
  · have hinfo : (w.staking.stakingInfoOf m).isSome = (w.staking.diskOf m).isSome :=
      h.hasInfo_eq m
    rw [hinfo]
    exact ⟨Iff.rfl, (hminers m).symm⟩
  · -- a running disk is a stored one, so its miner is in `Miners`
    rw [hmining]
    constructor
    · rintro ⟨d, hd, hrun⟩
      exact ⟨(hminers m).mpr (by simp [hd]), d, hd, hrun⟩
    · exact fun hm => hm.2
  · intro p m hp
    rw [isRegister_of_inv h, ← hminers]
    exact h.mem_miners_of_pid hp

/-- Miner 1 registers at genesis under id 0: the registry agrees with itself. -/
theorem registry_consistent_after_register :
    let w := (machine runtimeConfig (fun _ h => h) ⟨fun _ => none, fun _ => [], 0⟩ ()).run
      [(.call (.signed 1) (.register 1 0 50 none) : Event ℕ Unit)]
    (∀ m, ((w.staking.diskOf m).isSome ↔ (w.staking.stakingInfoOf m).isSome) ∧
      ((w.staking.stakingInfoOf m).isSome ↔ m ∈ w.staking.miners)) ∧
    (∀ m, m ∈ w.staking.miningMiners ↔
      m ∈ w.staking.miners ∧ ∃ d, w.staking.diskOf m = some d ∧ d.isStop = false) ∧
    (∀ p m, w.staking.accountIdOfPid p = some m ↔
      ∃ d, w.staking.diskOf m = some d ∧ d.numericId = p) ∧
    (∀ m₁ m₂ d₁ d₂, w.staking.diskOf m₁ = some d₁ → w.staking.diskOf m₂ = some d₂ →
      d₁.numericId = d₂.numericId → m₁ = m₂) ∧
    (∀ p m, w.staking.accountIdOfPid p = some m → isRegister w.staking m = true) :=
  registry_consistent _ _ _ (Machine.reachable_run _ _)

/-- Two registrations at genesis whose plots together reach `2 ^ 64` bytes: the running plots
sum to the two sizes, but `DeclaredCapacity`, kept modulo `2 ^ 64` in every reachable state,
is short of that sum by exactly `2 ^ 64`. -/
theorem declaredCapacity_wraps (c : Config) (removeHistory : A → H → H)
    (balances : Balances.State A) (handler : H) {a b : A} (hab : a ≠ b) {p q : ℕ} (hpq : p ≠ q)
    {x y : ℕ} (hx : x ≠ 0) (hy : y ≠ 0) (hxfit : x * GiB < 2 ^ gibBits)
    (hyfit : y * GiB < 2 ^ gibBits) (hwrap : 2 ^ gibBits ≤ x * GiB + y * GiB) (ra rb : ℕ) :
    let w := (machine c removeHistory balances handler).run
      [.call (.signed a) (.register x p ra none), .call (.signed b) (.register y q rb none)]
    ∑ m ∈ w.staking.miningMiners, w.staking.registry.plotOf m = x * GiB + y * GiB ∧
      w.staking.declaredCapacity = x * GiB + y * GiB - 2 ^ gibBits := by
  intro w
  let w₀ : World A H := ⟨State.empty, balances, handler, 0⟩
  let w₁ := (register w₀ a x p ra none).state
  have hrun : w = (register w₁ b y q rb none).state := rfl
  have hfit : ∀ z, z * GiB < 2 ^ gibBits → checkedMul gibBits z GiB = some (z * GiB) :=
    fun z hz => checkedMul_eq_some_iff.mpr ⟨by unfold maxOf; omega, rfl⟩
  -- the first registration passes at genesis, the second finds neither `b` nor `q` taken
  have h₁ := (register_registry a x p ra none hx (hfit x hxfit) rfl rfl (w := w₀)).2
  have hinv₁ : w₁.staking.registry.Inv := register_registry_inv State.empty_registry_inv a x p ra none
  have hnew : isRegister w₁.staking b = false := by
    rw [isRegister_of_inv hinv₁]
    change (w₁.staking.registry.diskOf b).isSome = false
    rw [h₁]
    simp [Registry.register, Ne.symm hab, w₀, State.registry, State.empty]
  have hfree : w₁.staking.accountIdOfPid q = none := by
    change w₁.staking.registry.accountIdOfPid q = none
    rw [h₁]
    simp [Registry.register, Ne.symm hpq, w₀, State.registry, State.empty]
  have h₂ := (register_registry b y q rb none hy (hfit y hyfit) hnew hfree).2
  have hsum : ∑ m ∈ w.staking.miningMiners, w.staking.registry.plotOf m = x * GiB + y * GiB := by
    change ∑ m ∈ w.staking.registry.miningMiners, w.staking.registry.plotOf m = _
    have hout : b ∉ w₁.staking.registry.miningMiners := by
      rw [h₁]
      simp [Ne.symm hab, w₀, State.registry, State.empty]
    rw [hrun, h₂, Registry.register_miningMiners, Finset.sum_insert hout,
      Registry.plotOf_register_self, h₁]
    simp [Registry.plotOf_register_of_ne hab, w₀, State.registry, State.empty, Nat.add_comm]
  -- the capacity is the sum modulo `2 ^ 64`, and the sum lies below `2 ^ 65`
  have hcap : w.staking.declaredCapacity = (x * GiB + y * GiB) % 2 ^ gibBits := by
    rw [← hsum]
    exact (reachable_registry_inv removeHistory balances handler
      (Machine.reachable_run _ _)).capacity_eq
  refine ⟨hsum, ?_⟩
  rw [hcap, Nat.mod_eq_sub_mod hwrap, Nat.mod_eq_of_lt (by omega)]

/-- Miners 1 and 2 each register a plot of `2 ^ 33` GiB, `2 ^ 63` bytes, in the runtime's
configuration: the running plots sum to `2 ^ 64` and `DeclaredCapacity` is `0`. -/
theorem declaredCapacity_wraps_at_two_plots :
    let w := (machine runtimeConfig (fun _ h => h) ⟨fun _ => none, fun _ => [], 0⟩ ()).run
      [(.call (.signed 1) (.register (2 ^ 33) 0 0 none) : Event ℕ Unit),
        .call (.signed 2) (.register (2 ^ 33) 1 0 none)]
    ∑ m ∈ w.staking.miningMiners, w.staking.registry.plotOf m = 2 ^ 64 ∧
      w.staking.declaredCapacity = 0 :=
  declaredCapacity_wraps runtimeConfig (fun _ h => h) ⟨fun _ => none, fun _ => [], 0⟩ ()
    (by decide) (by decide) (by decide) (by decide) (by decide) (by decide) (by decide) 0 0

end Runs


/-! ### Staking on a registered miner -/

section Staking

variable (c : Config) (w : World A H)

/-- What the tail of `update_staking_info` stores for the miner. -/
@[simp] theorem storeStakerInfo_stakingInfoOf_self (miner : A) (info : StakingInfo A)
    (stakerInfo : A × ℕ × ℕ) (others : List (A × ℕ × ℕ)) (nowBond nowStaking : ℕ)
    (isSlash : Bool) :
    (storeStakerInfo c w miner info stakerInfo others nowBond nowStaking isSlash).staking.stakingInfoOf
        miner = some { info with
          totalStaking := nowStaking
          others := if nowBond = 0 then others else others ++ [(stakerInfo.1, nowBond, stakerInfo.2.2)] } := by
  unfold storeStakerInfo
  split_ifs <;> simp

/-- `update_staking` with `Add` asks only that the miner be registered and that the staker
have an entry: neither `IsChillTime` nor the miner's `is_stop` is read. Once the amount can be
reserved and the sums fit in a `u128`, the miner's `total_staking` rises by the amount. -/
theorem updateStaking_raises_total (removeHistory : A → H → H) (staker miner : A) (amount : ℕ)
    (info : StakingInfo A) (hinfo : w.staking.stakingInfoOf miner = some info)
    (hdisk : (w.staking.diskOf miner).isSome) (hstaker : staker ∈ info.others.map Prod.fst)
    (hbond : ∀ e ∈ info.others, e.2.1 + amount ≤ maxOf Balances.balanceBits)
    (htotal : info.totalStaking + amount ≤ maxOf Balances.balanceBits)
    (hres : (reserve c w staker amount).result = .ok ()) :
    ∃ info', (step c removeHistory w
        (.call (.signed staker) (.updateStaking miner .Add amount))).staking.stakingInfoOf miner =
          some info' ∧ info'.totalStaking = info.totalStaking + amount := by
  -- the staker's entry is found, and its bond and the total take the amount
  obtain ⟨⟨e, others⟩, hex⟩ : ∃ r, KeyedList.extract Prod.fst staker info.others = some r := by
    rw [← Option.ne_none_iff_exists', Ne, KeyedList.extract_eq_none_iff, not_not]
    exact hstaker
  have he : e ∈ info.others := (KeyedList.extract_spec hex).2.mem_iff.mpr List.mem_cons_self
  have hreg : isRegister w.staking miner = true := by simp [isRegister, hdisk, hinfo]
  have hnowBond : checkedAdd Balances.balanceBits e.2.1 amount = some (e.2.1 + amount) :=
    checkedAdd_eq_some_iff.mpr ⟨hbond e he, rfl⟩
  have hnowStaking : checkedAdd Balances.balanceBits info.totalStaking amount =
      some (info.totalStaking + amount) := checkedAdd_eq_some_iff.mpr ⟨htotal, rfl⟩
  refine ⟨{ info with
    totalStaking := info.totalStaking + amount
    others := if e.2.1 + amount = 0 then others else others ++ [(e.1, e.2.1 + amount, e.2.2)] },
    ?_, rfl⟩
  simp only [step, dispatch, updateStaking, updateStakingInfo, hreg, hinfo, hex, Option.getD_some,
    hnowBond, hnowStaking, hres, Bool.not_true, Bool.false_eq_true, if_false,
    Machine.Outcome.ok_state]
  rw [storeStakerInfo_stakingInfoOf_self]

/-- Miner 1 registers, user 2 stakes 100 DOLLARS on it in block 300, miner 1 stops mining,
and 1500 blocks later, in block 1800, it is chill time again: `update_staking` still raises the
stopped miner's total by 10 DOLLARS. -/
theorem updateStaking_raises_total_when_stopped_in_chill :
    let w := (machine runtimeConfig (fun _ h => h)
      ⟨fun a => if a = 2 then some ⟨10 ^ 17, 0, 0, 0⟩ else none, fun _ => [], 10 ^ 17⟩ ()).run
      ([(.call (.signed 1) (.register 1 0 50 none) : Event ℕ Unit)] ++
        List.replicate 300 .nextBlock ++
        [.call (.signed 2) (.staking 1 (100 * DOLLARS)), .call (.signed 1) .stopMining] ++
        List.replicate 1500 .nextBlock)
    w.staking.isChillTime = true ∧ (w.staking.diskOf 1).map MachineInfo.isStop = some true ∧
      ∃ info', (step runtimeConfig (fun _ h => h) w
        (.call (.signed 2) (.updateStaking 1 .Add (10 * DOLLARS)))).staking.stakingInfoOf 1 =
          some info' ∧ info'.totalStaking = 100 * DOLLARS + 10 * DOLLARS := by
  intro w
  refine ⟨by decide +kernel, by decide +kernel, updateStaking_raises_total runtimeConfig w
    (fun _ h => h) 2 1 (10 * DOLLARS)
    ⟨1, Percent.fromPercent 50, 100 * DOLLARS, [(2, 100 * DOLLARS, 1 * DOLLARS)]⟩
    (by decide +kernel) (by decide +kernel) (by decide) (by decide) (by decide)
    (by decide +kernel)⟩

end Staking

end IpseCore.PocStaking
