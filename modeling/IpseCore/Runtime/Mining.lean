import IpseCore.Poc.Reward
import IpseCore.PocStaking.Books

/-!
# The mining runtime

The runtime joins PocStaking and PoC. PoC's storage is the storage of PocStaking's
`PocHandler`, and both pallets act on the same balances. At each block boundary
`AllModules` runs the hooks in the reverse order of `construct_runtime!`, so PoC's run
before PocStaking's. The rest of the runtime (transfers, the other pallets) only changes
balances; an `external` event stands for any such change.

Seen from PocStaking, everything PoC does is an external change: its calls and hooks write
its own storage and the balances, never PocStaking's storage or the block number. The
runtime's runs are therefore runs of PocStaking's machine (`reachable_pocStaking`), and
PocStaking's invariants hold in the runtime.
-/

namespace IpseCore.Runtime

open Poc

/-- What can happen in the runtime: a call of either pallet, the end of a block and the
start of the next, or a change of the balances by the rest of the runtime. -/
inductive Event (A : Type) where
  | pocStaking (origin : Origin A) (call : PocStaking.Call A)
  | poc (origin : Origin A) (call : Poc.Call)
  | nextBlock
  | external (balances : Balances.State A)

variable {A : Type} [DecidableEq A]

/-- The end of a block and the start of the next, hooks in `AllModules` order. A panic in
`on_finalize` makes the block impossible to build, and the chain stays where it is. -/
def nextBlock (c : Poc.Config A) (w : Poc.World A) : Poc.World A :=
  match Poc.onFinalize c w with
  | none => w
  | some w =>
    let w := PocStaking.onFinalize w
    let w := { w with blockNumber := w.blockNumber + 1 }
    PocStaking.onInitialize c.staking (Poc.onInitialize c w)

/-- One event. -/
def step (c : Poc.Config A) (w : Poc.World A) : Event A → Poc.World A
  | .pocStaking origin call =>
    (PocStaking.dispatch c.staking Poc.removeHistory w origin call).state
  | .poc origin call => (Poc.dispatch c w origin call).state
  | .nextBlock => nextBlock c w
  | .external balances => w.setBalances balances

/-- Genesis: the empty storages of both pallets in block one, after its `on_initialize`. -/
def genesis (c : Poc.Config A) (balances : Balances.State A) : Poc.World A :=
  PocStaking.onInitialize c.staking
    (Poc.onInitialize c ⟨PocStaking.State.empty, balances, Poc.State.genesis, 1⟩)

/-- The runtime from genesis, over any initial balances. -/
def machine (c : Poc.Config A) (balances : Balances.State A) :
    Machine (Poc.World A) (Event A) where
  init := genesis c balances
  step := step c

/-! ### The runtime seen from PocStaking -/

/-- PocStaking's machine with PoC as its handler. -/
abbrev stakingMachine (c : Poc.Config A) (balances : Balances.State A) :
    Machine (Poc.World A) (PocStaking.Event A (Poc.State A)) :=
  PocStaking.machine c.staking Poc.removeHistory balances Poc.State.genesis

variable (c : Poc.Config A) (balances : Balances.State A)

/-- What changes only balances and PoC's storage is one external event of PocStaking. -/
theorem eq_external_of_frame {w w' : Poc.World A} (hstaking : w'.staking = w.staking)
    (hblock : w'.blockNumber = w.blockNumber) :
    w' = (stakingMachine c balances).step w (.external w'.balances w'.handler) := by
  obtain ⟨s, b, p, n⟩ := w'
  obtain ⟨s₀, b₀, p₀, n₀⟩ := w
  simp only at hstaking hblock
  subst hstaking hblock
  rfl

/-- Genesis is block zero's end, block one's start, and PoC's first difficulty. -/
theorem genesis_reachable : (stakingMachine c balances).Reachable (genesis c balances) := by
  have hgenesis : genesis c balances =
      (stakingMachine c balances).runFrom (stakingMachine c balances).init
        [.nextBlock, .external balances (Poc.onInitialize c
          ⟨PocStaking.State.empty, balances, Poc.State.genesis, 1⟩).handler] := by
    rw [genesis, onInitialize_eq_setPoc]
    rfl
  rw [hgenesis]
  exact Machine.Reachable.runFrom _ .init _

/-- Each event of the runtime is a run of PocStaking's machine from the same state. -/
theorem step_simulated (hmin : 0 < c.staking.pocStakingMinAmount) {w : Poc.World A}
    (hw : (stakingMachine c balances).Reachable w) (e : Event A) :
    ∃ fs, step c w e = (stakingMachine c balances).runFrom w fs := by
  cases e with
  | pocStaking origin call => exact ⟨[.call origin call], rfl⟩
  | poc origin call =>
    exact ⟨[.external w.balances (Poc.dispatch c w origin call).state.handler],
      dispatch_eq_setPoc c w origin call⟩
  | nextBlock =>
    cases hfin : Poc.onFinalize c w with
    | none => exact ⟨[], by simp only [step, nextBlock, hfin]; rfl⟩
    | some w₁ =>
      -- PoC's `on_finalize` pays from consistent books and touches no staking storage
      have hinv := PocStaking.reachable_inv hmin Poc.removeHistory balances Poc.State.genesis hw
      have hpays := onFinalize_pays c hfin fun m info hinfo =>
        (hinv.wellFormed m _ _ (PocStaking.State.ledger_books_of hinfo)).total_eq.ge
      let w₂ := PocStaking.onFinalize w₁
      let w₃ : Poc.World A := { w₂ with blockNumber := w₂.blockNumber + 1 }
      refine ⟨[.external w₁.balances w₁.handler, .nextBlock,
        .external w₁.balances (Poc.onInitialize c w₃).handler], ?_⟩
      have hw₁ := eq_external_of_frame c balances hpays.staking_eq hpays.blockNumber_eq
      simp only [step, nextBlock, hfin]
      rw [onInitialize_eq_setPoc c w₃]
      simp only [Machine.runFrom, List.foldl_cons, List.foldl_nil]
      rw [← hw₁]
      rfl
  | external b => exact ⟨[.external b w.handler], rfl⟩

/-- Every state the runtime reaches, PocStaking's machine reaches too. -/
theorem reachable_pocStaking (hmin : 0 < c.staking.pocStakingMinAmount) {w : Poc.World A}
    (hw : (machine c balances).Reachable w) : (stakingMachine c balances).Reachable w :=
  Machine.reachable_of_simulation (machine c balances) (stakingMachine c balances) id
    (genesis_reachable c balances) (fun _ e hw => step_simulated c balances hmin hw e) hw

/-- PocStaking's books are consistent in every state the runtime reaches. -/
theorem reachable_ledger_inv (hmin : 0 < c.staking.pocStakingMinAmount) {w : Poc.World A}
    (hw : (machine c balances).Reachable w) : PocStaking.LedgerView.Inv c.staking w.staking.ledger :=
  PocStaking.reachable_inv hmin Poc.removeHistory balances Poc.State.genesis
    (reachable_pocStaking c balances hmin hw)

/-! ### Rewards in the runtime -/

/-- In every reachable state, a reward for a registered miner goes through, `reward_staker`
never stops on `DivZero`, and what `deposit_creating` mints raises the total issuance by at most
the reward. -/
theorem reward_mints_at_most {c : Poc.Config A} (hmin : 0 < c.staking.pocStakingMinAmount)
    {balances : Balances.State A} {w : Poc.World A} (hw : (machine c balances).Reachable w)
    {miner : A} (hreg : PocStaking.isRegister w.staking miner = true) (r : ℕ) :
    (∀ w' : Poc.World A, w'.staking = w.staking → ∀ amount,
      ∃ w'', rewardStaker c w' miner amount = some (.ok w'')) ∧
    ∃ w', Poc.reward c w miner r = some (.ok w') ∧
      w'.balances.totalIssuance ≤ w.balances.totalIssuance + r := by
  have hi := reachable_ledger_inv c balances hmin hw
  simp only [PocStaking.isRegister, Bool.and_eq_true] at hreg
  obtain ⟨hdisk, hsome⟩ := hreg
  obtain ⟨info, hinfo⟩ := Option.isSome_iff_exists.mp hsome
  have hwf := hi.wellFormed miner _ _ (PocStaking.State.ledger_books_of hinfo)
  -- a miner with stakers has a positive total, the sum of positive bonds
  have htotal : info.others ≠ [] → 0 < info.totalStaking := fun hne => by
    rw [hwf.total_eq]
    refine List.sum_pos _ (fun b hb => ?_) (by simpa using hne)
    obtain ⟨e, he, rfl⟩ := List.mem_map.mp hb
    exact hwf.bond_pos e he
  refine ⟨fun w' hw' amount => ?_, ?_⟩
  · rw [← hw'] at hdisk hinfo
    exact rewardStaker_ok c w' hdisk hinfo htotal amount
  · obtain ⟨w', hw'⟩ := reward_ok c w hdisk r
    have hbooks : ∀ info', w.staking.stakingInfoOf miner = some info' →
        (info'.others.map PocStaking.bondOf).sum ≤ info'.totalStaking := fun _ h' =>
      (hi.wellFormed miner _ _ (PocStaking.State.ledger_books_of h')).total_eq.ge
    exact ⟨w', hw', (reward_pays c hw' hbooks).issuance_le⟩

/-- Miner 1 registers in block one of the runtime; its reward of a thousand goes through. -/
theorem reward_mints_at_most_after_register :
    let c := Poc.runtimeConfig 0 fun _ _ _ _ => 0
    let w := (machine c ⟨fun _ => none, fun _ => [], 0⟩).run
      [.pocStaking (.signed 1) (.register 1 0 50 none)]
    (∀ w' : Poc.World ℕ, w'.staking = w.staking → ∀ amount,
      ∃ w'', rewardStaker c w' 1 amount = some (.ok w'')) ∧
    ∃ w', Poc.reward c w 1 1000 = some (.ok w') ∧
      w'.balances.totalIssuance ≤ w.balances.totalIssuance + 1000 :=
  reward_mints_at_most (by decide) (Machine.reachable_run _ _) (by decide) 1000

end IpseCore.Runtime
