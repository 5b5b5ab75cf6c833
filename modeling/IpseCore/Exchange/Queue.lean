import Mathlib.Data.Finset.Card
import IpseCore.Exchange.Reports

/-!
# The exchange queue over whole runs

Three storage items hold the queue of EOS transactions: `TokenStatus` with the counter of
each queued transaction, `TokenStatusLen`, and `SucTxExchange`, which marks the passed
ones. Every event of the chain acts on them in one of two ways or not at all: an accepted
`exchange` queues a transaction, and an accepted report raises one digit of its counter and
lets `verify_handle` decide (`Queue.apply`). The first part states this view and its
invariants, with no reference to the rest of the pallet; the second proves that each event
of the machine performs on the view the action `action` reads off it, with the guards the
calls check (`step_queue`).

Over every run this gives: a marked transaction stays out of the queue and no call about it
is ever accepted again, so `verify_handle` passes a transaction at most once; the counter
of a queued transaction spells, digit by digit, the reports made since it was queued; and
`TokenStatusLen` counts the queued transactions, which `exchange` lets reach one more than
`TxsMaxCount`.
-/

namespace IpseCore.Exchange

open Unsigned


variable {A Tx Key Sig : Type} [DecidableEq Tx]

/-- The digit of the counter a report raises. -/
inductive Report where
  /-- `record_suc_verify` with status 0 adds a hundred. -/
  | success
  /-- `record_suc_verify` with a status other than 0 and 1 adds ten. -/
  | other
  /-- `record_suc_verify` with status 1, and `record_fail_verify`, add one. -/
  | query
  deriving DecidableEq, Repr

/-- What a report adds to the counter. -/
def Report.increment : Report → ℕ
  | .success => 100
  | .other => 10
  | .query => 1

theorem Report.increment_le (r : Report) : r.increment ≤ 100 := by
  cases r <;> decide

/-- The digit a `record_suc_verify` report of the given status raises. -/
def Report.ofStatus (status : ℕ) : Report :=
  if status = 0 then .success else if status = 1 then .query else .other

theorem statusIncrement_eq_increment (status : ℕ) :
    statusIncrement status = (Report.ofStatus status).increment := by
  unfold statusIncrement Report.ofStatus
  split_ifs <;> rfl

/-- `TokenStatus`, `TokenStatusLen` and `SucTxExchange`. -/
structure Queue (A Tx : Type) where
  /-- The counter and the account to pay of each queued transaction. -/
  tokenStatus : Tx → Option (ℕ × A)
  /-- The number of queued transactions the pallet keeps. -/
  tokenStatusLen : ℕ
  /-- The passed transactions. -/
  sucTxExchange : Tx → Option Bool

/-- What an accepted call does to the queue. -/
inductive Action (A Tx : Type) where
  /-- `exchange`: queue `tx` for `who`. -/
  | enqueue (tx : Tx) (who : A)
  /-- A report on `tx`: raise digit `r` and let `verify_handle` decide. -/
  | report (tx : Tx) (r : Report)
  deriving DecidableEq

/-- The transaction an action is about. -/
def Action.tx : Action A Tx → Tx
  | .enqueue tx _ => tx
  | .report tx _ => tx

namespace Queue

variable (q : Queue A Tx) (tx : Tx)

/-- The counter of `tx`, `0` when it is not queued. -/
def counter : ℕ := ((q.tokenStatus tx).map Prod.fst).getD 0

/-- Take `tx` out of the queue, lowering the length when it is positive. -/
def remove : Queue A Tx :=
  { q with tokenStatus := Function.update q.tokenStatus tx none,
           tokenStatusLen := if 0 < q.tokenStatusLen then q.tokenStatusLen - 1
             else q.tokenStatusLen }

/-- The decision of `verify_handle` on `tx`; `none` when the counter is below 1000 and the
call errs. -/
def verdict : Option VerifyStatus :=
  if q.counter tx < 1000 then none else some (verifyStatusOf (q.counter tx))

/-- `verify_handle` on the queue: a failed or erring transaction leaves the queue, a passed
one leaves it marked. -/
def settle : Queue A Tx :=
  match q.verdict tx with
  | some .Continue => q
  | some .Pass =>
    { q.remove tx with sucTxExchange := Function.update q.sucTxExchange tx (some true) }
  | some .Failed => q.remove tx
  | none => q.remove tx

/-- Raise digit `r` of the counter of `tx`, when it is queued. -/
def raise (r : Report) : Queue A Tx :=
  match q.tokenStatus tx with
  | some (n, acc) =>
    { q with tokenStatus := Function.update q.tokenStatus tx (some (n + r.increment, acc)) }
  | none => q

/-- Queue `tx` for `who` with counter 1000. -/
def enqueue (who : A) : Queue A Tx :=
  { q with tokenStatus := Function.update q.tokenStatus tx (some (1000, who)),
           tokenStatusLen := wrappingAdd 32 q.tokenStatusLen 1 }

/-- The effect of an action. -/
def apply : Action A Tx → Queue A Tx
  | .enqueue tx who => q.enqueue tx who
  | .report tx r => (q.raise tx r).settle tx

/-- The decision `verify_handle` takes during an action, with the transaction. -/
def decision : Action A Tx → Option (Tx × VerifyStatus)
  | .enqueue _ _ => none
  | .report tx r => ((q.raise tx r).verdict tx).map fun v => (tx, v)

/-- The guards under which the calls act: `exchange` wants an unmarked transaction with
counter `0` and a length of at most `TxsMaxCount`, a report a queued transaction. -/
def Enabled (txsMaxCount : ℕ) : Action A Tx → Prop
  | .enqueue tx _ =>
    q.sucTxExchange tx = none ∧ q.counter tx = 0 ∧ q.tokenStatusLen ≤ txsMaxCount
  | .report tx _ => q.tokenStatus tx ≠ none

variable {q tx}

omit [DecidableEq Tx] in
theorem counter_of_eq_some {n : ℕ} {acc : A} (h : q.tokenStatus tx = some (n, acc)) :
    q.counter tx = n := by
  simp [counter, h]

/-! ### What an action changes -/

variable {tx' : Tx}

@[simp] theorem remove_sucTxExchange : (q.remove tx).sucTxExchange = q.sucTxExchange := rfl

@[simp] theorem raise_sucTxExchange (r : Report) :
    (q.raise tx r).sucTxExchange = q.sucTxExchange := by
  unfold raise
  split <;> rfl

theorem raise_tokenStatus_ne (h : tx' ≠ tx) (r : Report) :
    (q.raise tx r).tokenStatus tx' = q.tokenStatus tx' := by
  unfold raise
  split
  · exact Function.update_of_ne h _ _
  · rfl

theorem raise_isSome (r : Report) :
    ((q.raise tx r).tokenStatus tx).isSome = (q.tokenStatus tx).isSome := by
  unfold raise
  split <;> simp_all

theorem raise_tokenStatus_self {n : ℕ} {acc : A} (h : q.tokenStatus tx = some (n, acc))
    (r : Report) : (q.raise tx r).tokenStatus tx = some (n + r.increment, acc) := by
  simp [raise, h]

theorem raise_verdict {n : ℕ} {acc : A} (h : q.tokenStatus tx = some (n, acc)) (r : Report)
    (h1000 : 1000 ≤ n + r.increment) :
    (q.raise tx r).verdict tx = some (verifyStatusOf (n + r.increment)) := by
  rw [verdict, counter_of_eq_some (raise_tokenStatus_self h r), if_neg (by omega)]

theorem settle_tokenStatus_ne (h : tx' ≠ tx) : (q.settle tx).tokenStatus tx' = q.tokenStatus tx' := by
  unfold settle
  split <;> simp [remove, Function.update_of_ne h]

theorem settle_sucTxExchange_ne (h : tx' ≠ tx) :
    (q.settle tx).sucTxExchange tx' = q.sucTxExchange tx' := by
  unfold settle
  split <;> simp [Function.update_of_ne h]

/-- `verify_handle` keeps a transaction queued exactly when it decides to go on. -/
theorem settle_tokenStatus :
    (q.settle tx).tokenStatus tx = if q.verdict tx = some .Continue then q.tokenStatus tx
      else none := by
  unfold settle
  split <;> rename_i hv <;> simp [remove, hv]

/-- `verify_handle` marks a transaction exactly when it passes it. -/
theorem settle_sucTxExchange :
    (q.settle tx).sucTxExchange tx = if q.verdict tx = some .Pass then some true
      else q.sucTxExchange tx := by
  unfold settle
  split <;> rename_i hv <;> simp [hv]

theorem apply_tokenStatus_ne {a : Action A Tx} (h : tx' ≠ a.tx) :
    (q.apply a).tokenStatus tx' = q.tokenStatus tx' := by
  cases a with
  | enqueue tx who => exact Function.update_of_ne h _ _
  | report tx r =>
    have h : tx' ≠ tx := h
    rw [apply, settle_tokenStatus_ne h, raise_tokenStatus_ne h]

/-- Only a pass marks, and only its own transaction. -/
theorem apply_sucTxExchange (a : Action A Tx) (tx : Tx) :
    (q.apply a).sucTxExchange tx = if q.decision a = some (tx, .Pass) then some true
      else q.sucTxExchange tx := by
  cases a with
  | enqueue tx' who => simp [apply, enqueue, decision]
  | report tx' r =>
    by_cases htx : tx = tx'
    · subst htx
      rw [apply, settle_sucTxExchange, raise_sucTxExchange]
      cases hv : (q.raise tx r).verdict tx <;> simp [decision, hv]
    · rw [apply, settle_sucTxExchange_ne htx, raise_sucTxExchange]
      simp [decision, Ne.symm htx]

/-! ### A marked transaction is out of the queue -/

/-- Every marked transaction is out of the queue. -/
def MarkedOut (q : Queue A Tx) : Prop := ∀ tx, q.sucTxExchange tx ≠ none → q.tokenStatus tx = none

theorem MarkedOut.apply {txsMaxCount : ℕ} {a : Action A Tx} (h : q.MarkedOut)
    (hen : q.Enabled txsMaxCount a) : (q.apply a).MarkedOut := by
  intro tx hmarked
  by_cases htx : tx = a.tx
  · cases a with
    | enqueue tx₀ who =>
      have htx : tx = tx₀ := htx
      subst htx
      exact absurd hen.1 (by simpa [Queue.apply, enqueue] using hmarked)
    | report tx₀ r =>
      have htx : tx = tx₀ := htx
      subst htx
      -- a report on a queued transaction: unmarked before, so marked after only by a pass
      have hunmarked : q.sucTxExchange tx = none := by
        by_contra hne
        exact hen (h tx hne)
      rw [Queue.apply, settle_tokenStatus]
      rw [Queue.apply, settle_sucTxExchange, raise_sucTxExchange, hunmarked] at hmarked
      split_ifs at hmarked with hpass
      · rw [if_neg (by rw [hpass]; simp)]
      · exact absurd rfl hmarked
  · rw [apply_tokenStatus_ne htx]
    rw [apply_sucTxExchange, if_neg] at hmarked
    · exact h tx hmarked
    · cases a with
      | enqueue => simp [decision]
      | report tx₀ r =>
        simp only [decision, Option.map_eq_some_iff, Prod.mk.injEq]
        rintro ⟨v, -, rfl, -⟩
        exact htx rfl

/-! ### Queued counters start at 1000 -/

/-- Every queued counter is at least 1000: `verify_handle` never takes its error branch, and
counter `0` means "not queued". -/
def Started (q : Queue A Tx) : Prop := ∀ tx n acc, q.tokenStatus tx = some (n, acc) → 1000 ≤ n

omit [DecidableEq Tx] in
theorem Started.tokenStatus_eq_none (h : q.Started) (hzero : q.counter tx = 0) :
    q.tokenStatus tx = none := by
  cases hq : q.tokenStatus tx with
  | none => rfl
  | some p =>
    have h1000 := h tx p.1 p.2 hq
    rw [counter_of_eq_some hq] at hzero
    omega

theorem Started.apply {txsMaxCount : ℕ} {a : Action A Tx} (h : q.Started)
    (hen : q.Enabled txsMaxCount a) : (q.apply a).Started := by
  intro tx n acc hq
  by_cases htx : tx = a.tx
  · cases a with
    | enqueue tx₀ who =>
      have htx : tx = tx₀ := htx
      subst htx
      simp only [Queue.apply, enqueue, Function.update_self, Option.some.injEq,
        Prod.mk.injEq] at hq
      omega
    | report tx₀ r =>
      have htx : tx = tx₀ := htx
      subst htx
      -- a counter that stays queued was raised from one of at least 1000
      obtain ⟨⟨n₀, acc₀⟩, hq₀⟩ := Option.ne_none_iff_exists'.mp hen
      rw [Queue.apply, settle_tokenStatus] at hq
      split_ifs at hq
      rw [raise_tokenStatus_self hq₀, Option.some.injEq, Prod.mk.injEq] at hq
      have := h tx n₀ acc₀ hq₀
      omega
  · rw [apply_tokenStatus_ne htx] at hq
    exact h tx n acc hq

/-! ### The counter spells the reports -/

end Queue

/-- The reports counted on a transaction, by the digit they raise. -/
structure Tally where
  /-- Successes, status 0. -/
  success : ℕ
  /-- Statuses other than 0 and 1. -/
  other : ℕ
  /-- Query results, status 1, and failed lookups. -/
  query : ℕ
  deriving DecidableEq, Repr

namespace Tally

/-- No report yet. -/
def zero : Tally := ⟨0, 0, 0⟩

/-- Count one more report. -/
def add (t : Tally) : Report → Tally
  | .success => { t with success := t.success + 1 }
  | .other => { t with other := t.other + 1 }
  | .query => { t with query := t.query + 1 }

/-- The counter these reports leave on a transaction queued at 1000. -/
def value (t : Tally) : ℕ := 1000 + 100 * t.success + 10 * t.other + t.query

/-- Below every threshold of `verify_handle`: at most two successes, five other statuses and
seven queries. -/
def Open (t : Tally) : Prop := t.success ≤ 2 ∧ t.other ≤ 5 ∧ t.query ≤ 7

instance (t : Tally) : Decidable t.Open := inferInstanceAs (Decidable (_ ∧ _ ∧ _))

/-- The tally after one more event on the queue, for transaction `tx`: queuing `tx` starts
it afresh, a report on `tx` counts. -/
def record (tx : Tx) (t : Tally) : Action A Tx → Tally
  | .enqueue tx' _ => if tx' = tx then zero else t
  | .report tx' r => if tx' = tx then t.add r else t

variable {t : Tally}

/-- An open tally keeps the counter at most `1257`. -/
theorem value_le (ht : t.Open) : t.value ≤ 1257 := by
  obtain ⟨hs, ho, hq⟩ := ht
  unfold value
  omega

theorem value_add (r : Report) : (t.add r).value = t.value + r.increment := by
  cases r <;> simp only [Tally.add, value, Report.increment] <;> omega

/-- `verify_handle` reads the three counts as the digits of the counter. -/
theorem verifyStatusOf_value (hs : t.success < 10) (ho : t.other < 10) (hq : t.query < 10) :
    verifyStatusOf t.value =
      if 6 ≤ t.other then .Failed else if 3 ≤ t.success then .Pass
      else if 8 ≤ t.query then (if 2 ≤ t.success then .Pass else .Failed) else .Continue := by
  have hunits : t.value % 10 = t.query := by unfold value; omega
  have htens : t.value / 10 % 10 = t.other := by unfold value; omega
  have hhundreds : t.value / 100 % 10 = t.success := by unfold value; omega
  simp only [verifyStatusOf, hunits, htens, hhundreds]

/-- One more report on an open tally: `verify_handle` goes on while the tally stays open,
passes on a third success or on an eighth query after two successes, and fails otherwise. -/
theorem verifyStatusOf_add (ht : t.Open) (r : Report) :
    verifyStatusOf (t.add r).value =
      if (t.add r).Open then VerifyStatus.Continue
      else if (t.add r).success = 3 ∨ (t.add r).query = 8 ∧ 2 ≤ (t.add r).success then
        VerifyStatus.Pass
      else VerifyStatus.Failed := by
  obtain ⟨hs, ho, hq⟩ := ht
  have hdigits : (t.add r).success < 10 ∧ (t.add r).other < 10 ∧ (t.add r).query < 10 := by
    cases r <;> simp only [Tally.add] <;> omega
  rw [verifyStatusOf_value hdigits.1 hdigits.2.1 hdigits.2.2]
  -- one count moved by one: the thresholds are reached exactly, never passed
  split_ifs <;> first | rfl | (cases r <;> simp only [Tally.add, Open] at * <;> omega)

theorem continue_iff (ht : t.Open) (r : Report) :
    verifyStatusOf (t.add r).value = .Continue ↔ (t.add r).Open := by
  rw [verifyStatusOf_add ht]
  split_ifs <;> simp [*]

theorem pass_iff (ht : t.Open) (r : Report) :
    verifyStatusOf (t.add r).value = .Pass ↔
      (t.add r).success = 3 ∨ (t.add r).query = 8 ∧ 2 ≤ (t.add r).success := by
  obtain ⟨hs, ho, hq⟩ := ht
  rw [verifyStatusOf_add ⟨hs, ho, hq⟩]
  split_ifs with hopen hpassed
  · -- still open: below every threshold
    simp only [false_iff]
    cases r <;> simp only [Tally.add, Open] at hopen ⊢ <;> omega
  · simpa using hpassed
  · simpa using hpassed

/-- Leaving an open tally means reaching a threshold exactly. -/
theorem not_open_add (ht : t.Open) (r : Report) :
    ¬(t.add r).Open ↔ (t.add r).success = 3 ∨ (t.add r).other = 6 ∨ (t.add r).query = 8 := by
  obtain ⟨hs, ho, hq⟩ := ht
  cases r <;> simp only [Tally.add, Open] <;> omega

end Tally

/-- The reports on `tx` since it was last queued, over a list of actions. -/
def tally (tx : Tx) (l : List (Action A Tx)) : Tally := l.foldl (Tally.record tx) Tally.zero

theorem tally_append_singleton (tx : Tx) (l : List (Action A Tx)) (a : Action A Tx) :
    tally tx (l ++ [a]) = Tally.record tx (tally tx l) a := by
  simp [tally]

/-- Only a success on `tx` adds a success to its tally. -/
theorem Tally.record_success_le {tx : Tx} {t : Tally} {a : Action A Tx}
    (h : a ≠ .report tx .success) : (Tally.record tx t a).success ≤ t.success := by
  cases a with
  | enqueue tx' who =>
    simp only [Tally.record]
    split_ifs
    · exact Nat.zero_le _
    · exact le_refl _
  | report tx' r =>
    simp only [Tally.record]
    split_ifs with htx
    · subst htx
      cases r with
      | success => exact absurd rfl h
      | other => exact le_refl _
      | query => exact le_refl _
    · exact le_refl _

/-- A success counted on `tx` is a success report on `tx` among the actions. -/
theorem report_success_mem_of_tally {tx : Tx} {l : List (Action A Tx)}
    (h : 1 ≤ (tally tx l).success) : .report tx .success ∈ l := by
  induction l using List.reverseRecOn with
  | nil => simp [tally, Tally.zero] at h
  | append_singleton l a ih =>
    rw [tally_append_singleton] at h
    rw [List.mem_append, List.mem_singleton]
    by_cases ha : a = .report tx .success
    · exact .inr ha.symm
    · exact .inl (ih (h.trans (Tally.record_success_le ha)))

namespace Queue

variable {q : Queue A Tx} {tx : Tx}

/-- The counter of a queued `tx` is the value of its tally, and the tally is open. -/
def CounterInv (q : Queue A Tx) (tx : Tx) (t : Tally) : Prop :=
  ∀ n acc, q.tokenStatus tx = some (n, acc) → n = t.value ∧ t.Open

/-- A report on a queued transaction raises its counter to the value of the tally with one
more report, which `verify_handle` then reads. -/
theorem CounterInv.raise_verdict {t : Tally} {n : ℕ} {acc : A} (h : q.CounterInv tx t)
    (hq : q.tokenStatus tx = some (n, acc)) (r : Report) :
    (q.raise tx r).tokenStatus tx = some ((t.add r).value, acc) ∧
      (q.raise tx r).verdict tx = some (verifyStatusOf (t.add r).value) := by
  obtain ⟨hn, -⟩ := h n acc hq
  have hraised : n + r.increment = (t.add r).value := by rw [Tally.value_add, hn]
  have h1000 : 1000 ≤ n + r.increment := by
    rw [hraised]
    unfold Tally.value
    omega
  rw [raise_tokenStatus_self hq, Queue.raise_verdict hq r h1000, hraised]
  exact ⟨rfl, rfl⟩

theorem CounterInv.apply {txsMaxCount : ℕ} {t : Tally} {a : Action A Tx}
    (h : q.CounterInv tx t) (hen : q.Enabled txsMaxCount a) :
    (q.apply a).CounterInv tx (Tally.record tx t a) := by
  intro n acc hq
  cases a with
  | enqueue tx' who =>
    by_cases htx : tx' = tx
    · subst htx
      simp only [Queue.apply, enqueue, Function.update_self, Option.some.injEq,
        Prod.mk.injEq] at hq
      simp only [Tally.record, if_true, ← hq.1]
      exact ⟨rfl, by decide⟩
    · rw [Queue.apply_tokenStatus_ne (a := .enqueue tx' who) (Ne.symm htx)] at hq
      simpa only [Tally.record, if_neg htx] using h n acc hq
  | report tx' r =>
    by_cases htx : tx' = tx
    · subst htx
      -- the report raised the counter to the next tally's value; it stayed only by going on
      obtain ⟨⟨n₀, acc₀⟩, hq₀⟩ := Option.ne_none_iff_exists'.mp hen
      obtain ⟨hraised, hverdict⟩ := h.raise_verdict hq₀ r
      rw [Queue.apply, settle_tokenStatus] at hq
      split_ifs at hq with hcont
      · rw [hraised, Option.some.injEq, Prod.mk.injEq] at hq
        rw [hverdict, Option.some.injEq, Tally.continue_iff (h n₀ acc₀ hq₀).2] at hcont
        simp only [Tally.record, if_true]
        exact ⟨hq.1.symm, hcont⟩
    · rw [Queue.apply_tokenStatus_ne (a := .report tx' r) (Ne.symm htx)] at hq
      simpa only [Tally.record, if_neg htx] using h n acc hq

omit [DecidableEq Tx] in
/-- A queued transaction whose tally is open has reached no threshold: while nothing acts
on it, it neither leaves the queue nor passes. -/
theorem CounterInv.stays {t : Tally} (h : q.CounterInv tx t) (hm : q.MarkedOut)
    (hpresent : q.tokenStatus tx ≠ none) :
    (q.tokenStatus tx = none ↔ t.success = 3 ∨ t.other = 6 ∨ t.query = 8) ∧
    (q.sucTxExchange tx ≠ none ↔ t.success = 3 ∨ t.query = 8 ∧ 2 ≤ t.success) := by
  obtain ⟨⟨n₀, acc₀⟩, hq₀⟩ := Option.ne_none_iff_exists'.mp hpresent
  obtain ⟨-, hs, ho, hq⟩ := h n₀ acc₀ hq₀
  refine ⟨⟨fun habsent => absurd habsent hpresent, ?_⟩, ⟨fun hmarked => absurd (hm tx hmarked)
    hpresent, ?_⟩⟩ <;> omega

/-- What one more action does to a queued transaction: it leaves the queue exactly when one
count of its tally reaches its threshold, and leaves it passed exactly on a third success or
an eighth query after two successes. -/
theorem CounterInv.apply_outcome {txsMaxCount : ℕ} {t : Tally} {a : Action A Tx}
    (h : q.CounterInv tx t) (hm : q.MarkedOut) (hpresent : q.tokenStatus tx ≠ none)
    (hen : q.Enabled txsMaxCount a) :
    ((q.apply a).tokenStatus tx = none ↔ (Tally.record tx t a).success = 3 ∨
      (Tally.record tx t a).other = 6 ∨ (Tally.record tx t a).query = 8) ∧
    ((q.apply a).sucTxExchange tx ≠ none ↔ (Tally.record tx t a).success = 3 ∨
      (Tally.record tx t a).query = 8 ∧ 2 ≤ (Tally.record tx t a).success) := by
  obtain ⟨⟨n₀, acc₀⟩, hq₀⟩ := Option.ne_none_iff_exists'.mp hpresent
  obtain ⟨hn₀, ht⟩ := h n₀ acc₀ hq₀
  have hunmarked : q.sucTxExchange tx = none := by
    by_contra hne
    exact hpresent (hm tx hne)
  by_cases htx : tx = a.tx
  · cases a with
    | enqueue tx₀ who =>
      -- a queued counter is the value of its tally, never the `0` that `exchange` wants
      have htx : tx = tx₀ := htx
      subst htx
      have hzero := hen.2.1
      rw [counter_of_eq_some hq₀, hn₀] at hzero
      unfold Tally.value at hzero
      omega
    | report tx₀ r =>
      have htx : tx = tx₀ := htx
      subst htx
      obtain ⟨-, hverdict⟩ := h.raise_verdict hq₀ r
      simp only [Tally.record, if_true]
      rw [Queue.apply, settle_tokenStatus, settle_sucTxExchange, raise_sucTxExchange, hunmarked,
        hverdict]
      refine ⟨?_, ?_⟩
      · rw [← Tally.not_open_add ht, ← Tally.continue_iff ht]
        split_ifs with hcont
        · simp only [Option.some.injEq] at hcont
          simp [hcont, raise_tokenStatus_self hq₀]
        · simp only [Option.some.injEq] at hcont
          simp [hcont]
      · rw [← Tally.pass_iff ht]
        split_ifs with hpass
        · simp only [Option.some.injEq] at hpass
          simp [hpass]
        · simp only [Option.some.injEq] at hpass
          simp [hpass]
  · -- another transaction's action: nothing moves for `tx`, whose tally is still open
    have hrecord : Tally.record tx t a = t := by
      cases a with
      | enqueue tx₀ who => exact if_neg (Ne.symm htx)
      | report tx₀ r => exact if_neg (Ne.symm htx)
    have hdecision : q.decision a ≠ some (tx, .Pass) := by
      cases a with
      | enqueue tx₀ who => simp [decision]
      | report tx₀ r =>
        simp only [decision, ne_eq, Option.map_eq_some_iff, Prod.mk.injEq, not_exists, not_and]
        rintro v - rfl
        exact absurd rfl htx
    rw [hrecord, apply_tokenStatus_ne htx, apply_sucTxExchange, if_neg hdecision, hunmarked]
    obtain ⟨hs, ho, hq⟩ := ht
    refine ⟨⟨fun habsent => absurd habsent hpresent, ?_⟩, ⟨fun hne => absurd rfl hne, ?_⟩⟩ <;>
      omega

/-- A pass happens to an unmarked transaction, which it takes out of the queue and marks. -/
theorem MarkedOut.pass {txsMaxCount : ℕ} {a : Action A Tx} (hm : q.MarkedOut)
    (hen : q.Enabled txsMaxCount a) (hpass : q.decision a = some (tx, .Pass)) :
    q.sucTxExchange tx = none ∧ (q.apply a).sucTxExchange tx = some true ∧
      (q.apply a).tokenStatus tx = none := by
  cases a with
  | enqueue tx₀ who => simp [decision] at hpass
  | report tx₀ r =>
    simp only [decision, Option.map_eq_some_iff, Prod.mk.injEq] at hpass
    obtain ⟨v, hv, rfl, rfl⟩ := hpass
    refine ⟨?_, ?_, ?_⟩
    · by_contra hne
      exact hen (hm tx₀ hne)
    · rw [apply_sucTxExchange, if_pos (by simp [decision, hv])]
    · rw [Queue.apply, settle_tokenStatus, hv, if_neg (by simp)]

omit [DecidableEq Tx] in
/-- After a pass, no action is about the transaction: it is marked, so it cannot be queued
again, and out of the queue, so no report on it is taken. -/
theorem MarkedOut.not_enabled {txsMaxCount : ℕ} {a : Action A Tx} (hm : q.MarkedOut)
    (hmarked : q.sucTxExchange tx ≠ none) (hen : q.Enabled txsMaxCount a) : a.tx ≠ tx := by
  rintro rfl
  cases a with
  | enqueue tx₀ who => exact hmarked hen.1
  | report tx₀ r => exact hen (hm tx₀ hmarked)

/-! ### `TokenStatusLen` counts the queue -/

/-- `TokenStatusLen` is the number of the queued transactions, which form `S`. -/
def Counted (q : Queue A Tx) (S : Finset Tx) : Prop :=
  (∀ tx, tx ∈ S ↔ q.tokenStatus tx ≠ none) ∧ q.tokenStatusLen = S.card

/-- The queue is counted, by at most one more than `TxsMaxCount`. -/
def LenInv (txsMaxCount : ℕ) (q : Queue A Tx) : Prop :=
  ∃ S, q.Counted S ∧ S.card ≤ txsMaxCount + 1

variable {S : Finset Tx}

theorem Counted.remove (h : q.Counted S) (hmem : tx ∈ S) : (q.remove tx).Counted (S.erase tx) := by
  refine ⟨fun tx' => ?_, ?_⟩
  · by_cases htx : tx' = tx
    · subst htx
      simp [Queue.remove]
    · simp [Queue.remove, htx, h.1 tx']
  · have hpos : 0 < S.card := Finset.card_pos.mpr ⟨tx, hmem⟩
    simp only [Queue.remove, h.2, if_pos hpos, Finset.card_erase_of_mem hmem]

theorem Counted.raise (h : q.Counted S) (r : Report) : (q.raise tx r).Counted S := by
  refine ⟨fun tx' => ?_, ?_⟩
  · by_cases htx : tx' = tx
    · subst htx
      rw [h.1 tx', ← Option.isSome_iff_ne_none, ← Option.isSome_iff_ne_none, raise_isSome]
    · rw [raise_tokenStatus_ne htx, h.1 tx']
  · unfold Queue.raise
    split
    · exact h.2
    · exact h.2

theorem Counted.settle (h : q.Counted S) (hmem : tx ∈ S) :
    ∃ S', (q.settle tx).Counted S' ∧ S'.card ≤ S.card := by
  unfold Queue.settle
  split
  · exact ⟨S, h, le_rfl⟩
  · exact ⟨S.erase tx, h.remove hmem, Finset.card_erase_le⟩
  · exact ⟨S.erase tx, h.remove hmem, Finset.card_erase_le⟩
  · exact ⟨S.erase tx, h.remove hmem, Finset.card_erase_le⟩

/-- Without wrapping of the `u32` length, the count is kept; `exchange` lets it grow to one
more than `TxsMaxCount`. -/
theorem LenInv.apply {txsMaxCount : ℕ} {a : Action A Tx} (hwrap : txsMaxCount + 1 < 2 ^ 32)
    (h : q.LenInv txsMaxCount) (hstarted : q.Started) (hen : q.Enabled txsMaxCount a) :
    (q.apply a).LenInv txsMaxCount := by
  obtain ⟨S, hS, hcard⟩ := h
  cases a with
  | enqueue tx who =>
    obtain ⟨-, hzero, hlen⟩ := hen
    have habsent := hstarted.tokenStatus_eq_none hzero
    have hnot : tx ∉ S := fun hmem => (hS.1 tx).mp hmem habsent
    refine ⟨insert tx S, ⟨fun tx' => ?_, ?_⟩, ?_⟩
    · by_cases htx : tx' = tx
      · subst htx
        simp [Queue.apply, enqueue]
      · simp [Queue.apply, enqueue, htx, hS.1 tx']
    · simp only [Queue.apply, enqueue, Finset.card_insert_of_notMem hnot, ← hS.2]
      exact wrappingAdd_of_lt (by omega)
    · rw [Finset.card_insert_of_notMem hnot, ← hS.2]
      omega
  | report tx r =>
    have hmem : tx ∈ S := (hS.1 tx).mpr hen
    obtain ⟨S', hS', hle⟩ := (hS.raise r).settle hmem
    exact ⟨S', hS', le_trans hle hcard⟩

end Queue

/-- How the queue may move along an event: not at all, or by an action under its guards. -/
def Queue.Moves (txsMaxCount : ℕ) (q : Queue A Tx) : Option (Action A Tx) → Queue A Tx → Prop
  | none, q' => q' = q
  | some a, q' => q.Enabled txsMaxCount a ∧ q' = q.apply a

/-! ### Each call acts on the queue -/

/-- The queue in the pallet's storage. -/
def State.queue (s : State A Tx) : Queue A Tx := ⟨s.tokenStatus, s.tokenStatusLen, s.sucTxExchange⟩

section StateQueue

omit [DecidableEq Tx]

variable (s : State A Tx)

@[simp] theorem State.queue_tokenStatus : s.queue.tokenStatus = s.tokenStatus := rfl

@[simp] theorem State.queue_tokenStatusLen : s.queue.tokenStatusLen = s.tokenStatusLen := rfl

@[simp] theorem State.queue_sucTxExchange : s.queue.sucTxExchange = s.sucTxExchange := rfl

end StateQueue

omit [DecidableEq Tx] in
theorem tokenStatusGet_fst [Inhabited A] (s : State A Tx) (tx : Tx) :
    (tokenStatusGet s tx).1 = s.queue.counter tx := by
  simp only [tokenStatusGet, Queue.counter, State.queue_tokenStatus]
  cases s.tokenStatus tx <;> rfl

/-- The storage before `verify_handle` in a report that raised digit `r` of a queued
counter: on the queue, `raise`. -/
theorem raised_queue (s : State A Tx) {tx : Tx} {n : ℕ} {acc : A}
    (hq : s.tokenStatus tx = some (n, acc)) (r : Report) (s' : State A Tx)
    (hstatus : s'.tokenStatus = Function.update s.tokenStatus tx (some (n + r.increment, acc)))
    (hlen : s'.tokenStatusLen = s.tokenStatusLen) (hsuc : s'.sucTxExchange = s.sucTxExchange) :
    s'.queue = s.queue.raise tx r := by
  simp only [Queue.raise, State.queue_tokenStatus, hq]
  simp only [State.queue, hstatus, hlen, hsuc]

variable [DecidableEq A] [Inhabited A]

/-- `verify_handle` acts on the queue as `settle`. -/
theorem verifyHandle_queue (c : Config) (s : State A Tx) (tx : Tx) (quantity : ℕ) :
    (verifyHandle c s tx quantity).2.queue = s.queue.settle tx := by
  unfold verifyHandle Queue.settle Queue.verdict
  dsimp only
  rw [tokenStatusGet_fst]
  split_ifs
  · rfl
  · cases verifyStatusOf (s.queue.counter tx) <;>
      simp only [State.queue, Queue.remove, removeTx, createToken_tokenStatus,
        createToken_tokenStatusLen, createToken_sucTxExchange] <;> rfl

/-- What an accepted success report does: its transaction is queued, and the report hands
`verify_handle` a state whose queue has the report's digit raised, with the balances and the
account to pay as they were. -/
theorem recordSucVerify_of_accepted {c : Config} {s : State A Tx} {account : A} {tx : Tx}
    {status quantity : ℕ} (h : (recordSucVerify c s .none account tx status quantity).accepted) :
    s.tokenStatus tx ≠ none ∧ ∃ s' : State A Tx, s'.queue = s.queue.raise tx (.ofStatus status) ∧
      s'.balances = s.balances ∧ (tokenStatusGet s' tx).2 = (tokenStatusGet s tx).2 ∧
      (recordSucVerify c s .none account tx status quantity).state =
        (verifyHandle c s' tx quantity).2 := by
  unfold recordSucVerify at h ⊢
  cases hq : s.tokenStatus tx with
  | none => simp [hq] at h
  | some p =>
    obtain ⟨n, acc⟩ := p
    refine ⟨by simp, ?_⟩
    simp only [hq] at h ⊢
    by_cases hsuc : (s.sucTxExchange tx).isSome
    · simp [hsuc] at h
    simp only [hsuc, Bool.false_eq_true, if_false] at h ⊢
    cases hb : bumpFetchRecord status (s.fetchRecord (s.blockNumber / c.duration) account) with
    | none => simp [hb] at h
    | some record =>
      cases ha : checkedAdd 64 n (statusIncrement status) with
      | none => simp [hb, ha] at h
      | some n' =>
        have hn' : n' = n + (Report.ofStatus status).increment := by
          rw [(checkedAdd_eq_some_iff.mp ha).2, statusIncrement_eq_increment]
        simp only [Machine.Outcome.ok_state]
        refine ⟨_, ?_, ?_, ?_, rfl⟩
        · exact raised_queue s hq _ _ (by dsimp only; rw [hn']) rfl rfl
        · rfl
        · simp [tokenStatusGet, hq]

/-- What an accepted failure report does: its transaction is queued, and the report hands
`verify_handle` a state whose queue has a query raised, with the balances and the account to
pay as they were, and then files the failure. -/
theorem recordFailVerify_of_accepted {c : Config} {s : State A Tx} {block : ℕ} {account : A}
    {tx : Tx} {err : Bytes} (h : (recordFailVerify c s .none block account tx err).accepted) :
    s.tokenStatus tx ≠ none ∧ ∃ (s' : State A Tx) (failed : A → List (FetchFailed Tx)),
      s'.queue = s.queue.raise tx .query ∧ s'.balances = s.balances ∧
      (tokenStatusGet s' tx).2 = (tokenStatusGet s tx).2 ∧
      (recordFailVerify c s .none block account tx err).state =
        { (verifyHandle c s' tx 0).2 with fetchFailed := failed } := by
  unfold recordFailVerify at h ⊢
  cases hq : s.tokenStatus tx with
  | none => simp [tokenStatusGet, hq] at h
  | some p =>
    obtain ⟨n, acc⟩ := p
    refine ⟨by simp, ?_⟩
    have hget : tokenStatusGet s tx = (n, acc) := by simp [tokenStatusGet, hq]
    simp only [hget] at h ⊢
    by_cases hzero : n = 0
    · simp [hzero] at h
    simp only [hzero, if_false] at h ⊢
    cases ha : checkedAdd 64 n 1 with
    | none => simp [ha] at h
    | some n' =>
      have hn' : n' = n + Report.query.increment := (checkedAdd_eq_some_iff.mp ha).2
      simp only [Machine.Outcome.ok_state]
      refine ⟨_, _, ?_, ?_, ?_, rfl⟩
      · exact raised_queue s hq .query _ (by rw [hn']) rfl rfl
      · rfl
      · simp [tokenStatusGet]

/-- A success report on a queued, unmarked transaction is accepted as long as the reporter's
count and the raised counter fit: neither `checked_add(..).unwrap()` panics. -/
theorem recordSucVerify_accepted {c : Config} {s : State A Tx} {account : A} {tx : Tx}
    {status quantity n : ℕ} {acc : A} (hq : s.tokenStatus tx = some (n, acc))
    (hs : s.sucTxExchange tx = none)
    (hrec : (bumpFetchRecord status (s.fetchRecord (s.blockNumber / c.duration) account)).isSome)
    (hn : n + (Report.ofStatus status).increment ≤ maxOf 64) :
    (recordSucVerify c s .none account tx status quantity).accepted := by
  obtain ⟨record, hb⟩ := Option.isSome_iff_exists.mp hrec
  have ha : checkedAdd 64 n (statusIncrement status) =
      some (n + (Report.ofStatus status).increment) := by
    rw [statusIncrement_eq_increment]
    simp [checkedAdd, hn]
  simp [recordSucVerify, hq, hs, hb, ha]

/-- A failure report on a queued transaction is accepted as long as the raised counter fits. -/
theorem recordFailVerify_accepted {c : Config} {s : State A Tx} {block : ℕ} {account : A}
    {tx : Tx} {err : Bytes} {n : ℕ} {acc : A} (hq : s.tokenStatus tx = some (n, acc))
    (hzero : n ≠ 0) (hn : n + 1 ≤ maxOf 64) :
    (recordFailVerify c s .none block account tx err).accepted := by
  have hget : tokenStatusGet s tx = (n, acc) := by simp [tokenStatusGet, hq]
  simp [recordFailVerify, hget, hzero, checkedAdd, hn]

/-- A success report the pallet accepts is about a queued transaction and acts as a report
of the digit its status raises. -/
theorem recordSucVerify_queue {c : Config} {s : State A Tx} {account : A} {tx : Tx}
    {status quantity : ℕ} (h : (recordSucVerify c s .none account tx status quantity).accepted) :
    s.tokenStatus tx ≠ none ∧
      (recordSucVerify c s .none account tx status quantity).state.queue =
        s.queue.apply (.report tx (.ofStatus status)) := by
  obtain ⟨hpresent, s', hqueue, -, -, hstate⟩ := recordSucVerify_of_accepted h
  rw [hstate, verifyHandle_queue, hqueue]
  exact ⟨hpresent, rfl⟩

/-- A failure report the pallet accepts is about a queued transaction and acts as a report
of a query result. -/
theorem recordFailVerify_queue {c : Config} {s : State A Tx} {block : ℕ} {account : A} {tx : Tx}
    {err : Bytes} (h : (recordFailVerify c s .none block account tx err).accepted) :
    s.tokenStatus tx ≠ none ∧
      (recordFailVerify c s .none block account tx err).state.queue =
        s.queue.apply (.report tx .query) := by
  obtain ⟨hpresent, s', failed, hqueue, -, -, hstate⟩ := recordFailVerify_of_accepted h
  -- the failure is filed after `verify_handle`, away from the queue
  have hfiled : ({ (verifyHandle c s' tx 0).2 with fetchFailed := failed } : State A Tx).queue =
      (verifyHandle c s' tx 0).2.queue := rfl
  rw [hstate, hfiled, verifyHandle_queue, hqueue]
  exact ⟨hpresent, rfl⟩

omit [DecidableEq A] in
/-- An `exchange` the pallet accepts met the guards of `enqueue` and queued the
transaction for its signer. -/
theorem exchange_queue {c : Config} {s : State A Tx} {who : A} {tx : Tx}
    (h : (exchange c s (.signed who) tx).accepted) :
    s.queue.Enabled c.txsMaxCount (.enqueue tx who) ∧
      (exchange c s (.signed who) tx).state.queue = s.queue.apply (.enqueue tx who) := by
  unfold exchange at h ⊢
  split_ifs at h ⊢ with hdead hsuc hzero hmax
  · simp at h
  · simp at h
  · simp at h
  · simp at h
  · rw [tokenStatusGet_fst, not_not] at hzero
    exact ⟨⟨Option.not_isSome_iff_eq_none.mp hsuc, hzero, Nat.le_of_not_lt hmax⟩, rfl⟩

/-- Every call the pallet rejects leaves the storage as it was. -/
theorem dispatch_state_of_rejected (c : Config) (s : State A Tx) (origin : Origin A)
    (call : Call A Tx Key Sig) (h : (dispatch c s origin call).accepted = false) :
    (dispatch c s origin call).state = s := by
  cases call with
  | setExchangeDealine d => cases origin <;> simp_all [dispatch, setExchangeDealine]
  | setNotaryKeys node =>
    cases origin
    case root =>
      simp only [dispatch, setNotaryKeys] at h ⊢
      split_ifs at h ⊢ <;> simp_all
    all_goals rfl
  | delNotaryKeys node =>
    cases origin
    case root =>
      simp only [dispatch, delNotaryKeys] at h ⊢
      split_ifs at h ⊢ <;> simp_all
    all_goals rfl
  | exchange tx =>
    cases origin <;> simp only [dispatch, exchange] at h ⊢ <;> split_ifs at h ⊢ <;> simp_all
  | recordSucVerify b account k tx status quantity σ =>
    revert h
    simp only [dispatch, recordSucVerify]
    repeat' split
    all_goals simp
  | recordFailVerify block account k tx err σ =>
    revert h
    simp only [dispatch, recordFailVerify]
    repeat' split
    all_goals simp

/-- From an origin other than unsigned, every call but `exchange` leaves the queue alone:
the reports are refused, the root calls write other storage. -/
theorem dispatch_queue_of_ne_exchange (c : Config) (s : State A Tx) {origin : Origin A}
    (horigin : origin ≠ .none) (call : Call A Tx Key Sig) (hcall : ∀ tx, call ≠ .exchange tx) :
    (dispatch c s origin call).state.queue = s.queue := by
  cases call with
  | setExchangeDealine d => cases origin <;> rfl
  | setNotaryKeys node =>
    cases origin <;> simp only [dispatch, setNotaryKeys] <;> (try split_ifs) <;> rfl
  | delNotaryKeys node =>
    cases origin <;> simp only [dispatch, delNotaryKeys] <;> (try split_ifs) <;> rfl
  | exchange tx => exact absurd rfl (hcall tx)
  | recordSucVerify b account k tx status quantity σ =>
    cases origin with
    | none => exact absurd rfl horigin
    | root => rfl
    | signed who => rfl
  | recordFailVerify block account k tx err σ =>
    cases origin with
    | none => exact absurd rfl horigin
    | root => rfl
    | signed who => rfl

/-! ### Each event acts on the queue -/

/-- The report a call makes, as an action on the queue. -/
def Call.report? : Call A Tx Key Sig → Option (Action A Tx)
  | .recordSucVerify _ _ _ tx status _ _ => some (.report tx (.ofStatus status))
  | .recordFailVerify _ _ _ tx _ _ => some (.report tx .query)
  | _ => none

/-- Tags compare by their decidable equality; membership in `provided` decides through this
instance. -/
instance Tag.instLawfulBEq : LawfulBEq (Tag A Tx) := inferInstance

/-- The action an event performs on the queue: an `exchange` signed by `who` that the pallet
accepts queues for `who`, and an unsigned report that `validate_unsigned` lets in under a
fresh tag and that the pallet accepts raises its digit. Nothing else acts on the queue. -/
def action (c : Config) (verify : Key → ℕ × A × Tx → Sig → Bool) (w : World A Tx) :
    Event A Tx Key Sig → Option (Action A Tx)
  | .signed who (.exchange tx) =>
    if (exchange c w.state (.signed who) tx).accepted then some (.enqueue tx who) else none
  | .unsigned call =>
    match validateUnsigned verify call with
    | .ok tag =>
      if tag ∉ w.provided ∧ (dispatch c w.state .none call).accepted then call.report? else none
    | .error _ => none
  | _ => none

/-- An accepted unsigned call is one of the two reports, and acts as its report. -/
theorem dispatch_none_queue (c : Config) (s : State A Tx) {call : Call A Tx Key Sig}
    {tag : Tag A Tx} {verify : Key → ℕ × A × Tx → Sig → Bool}
    (hvalid : validateUnsigned verify call = .ok tag) (h : (dispatch c s .none call).accepted) :
    s.queue.Moves c.txsMaxCount call.report? (dispatch c s .none call).state.queue := by
  cases call with
  | recordSucVerify b account k tx status quantity σ =>
    obtain ⟨hpresent, hq⟩ := recordSucVerify_queue h
    exact ⟨hpresent, hq⟩
  | recordFailVerify block account k tx err σ =>
    obtain ⟨hpresent, hq⟩ := recordFailVerify_queue h
    exact ⟨hpresent, hq⟩
  | _ => simp [validateUnsigned] at hvalid

/-- Every event moves the queue by the action it performs, under that action's guards. -/
theorem step_queue (c : Config) (verify : Key → ℕ × A × Tx → Sig → Bool) (w : World A Tx)
    (e : Event A Tx Key Sig) :
    w.state.queue.Moves c.txsMaxCount (action c verify w e) (step c verify w e).state.queue := by
  cases e with
  | signed who call =>
    by_cases hex : ∃ tx, call = .exchange tx
    · obtain ⟨tx, rfl⟩ := hex
      simp only [action]
      split_ifs with hacc
      · exact exchange_queue hacc
      · exact congrArg State.queue
          (dispatch_state_of_rejected c w.state _ (.exchange tx) (by simpa [dispatch] using hacc))
    · simp only [not_exists] at hex
      have hnone : action c verify w (.signed who call) = none := by
        cases call <;> first | rfl | exact absurd rfl (hex _)
      rw [hnone]
      exact dispatch_queue_of_ne_exchange c w.state (by simp) call hex
  | root call =>
    -- root's `exchange` is refused, its other calls write other storage
    by_cases hex : ∃ tx, call = .exchange tx
    · obtain ⟨tx, rfl⟩ := hex
      exact congrArg State.queue (exchange_state_of_not_signed c w.state (by simp) tx)
    · simp only [not_exists] at hex
      exact dispatch_queue_of_ne_exchange c w.state (by simp) call hex
  | unsigned call =>
    cases hvalid : validateUnsigned verify call with
    | error err =>
      simp only [action, step, hvalid]
      rfl
    | ok tag =>
      simp only [action, step, hvalid]
      by_cases hprovided : tag ∈ w.provided
      · -- the pool drops a report whose tag was provided before
        simp only [hprovided, not_true_eq_false, false_and, if_false, if_true]
        rfl
      · by_cases hacc : (dispatch c w.state .none call).accepted
        · simp only [hprovided, not_false_eq_true, hacc, and_self, if_true, if_false]
          exact dispatch_none_queue c w.state hvalid hacc
        · simp only [hprovided, hacc, Bool.false_eq_true, and_false, if_false]
          exact congrArg State.queue
            (dispatch_state_of_rejected c w.state _ call (by simpa using hacc))
  | nextBlock =>
    show (step c verify w .nextBlock).state.queue = w.state.queue
    simp only [step, onInitialize]
    split_ifs <;> rfl

/-- The decision `verify_handle` takes on a transaction during an event, if the event reaches
it. -/
def decisionAt (c : Config) (verify : Key → ℕ × A × Tx → Sig → Bool)
    (p : World A Tx × Event A Tx Key Sig) : Option (Tx × VerifyStatus) :=
  (action c verify p.1 p.2).bind p.1.state.queue.decision

/-! ### What an event does to the balances -/

/-- The quantity a call hands to `verify_handle`: the one a success report carries, zero for a
failure report. -/
def Call.quantity : Call A Tx Key Sig → ℕ
  | .recordSucVerify _ _ _ _ _ quantity _ => quantity
  | _ => 0

/-- `verify_handle` mints exactly when it passes: `create_token` of the quantity, into the
account to pay. -/
theorem verifyHandle_balances (c : Config) (s : State A Tx) (tx : Tx) (quantity : ℕ) :
    (verifyHandle c s tx quantity).2.balances =
      if s.queue.verdict tx = some .Pass then
        (createToken c s (tokenStatusGet s tx).2 quantity).balances
      else s.balances := by
  unfold verifyHandle Queue.verdict
  dsimp only
  rw [tokenStatusGet_fst]
  by_cases h1000 : s.queue.counter tx < 1000
  · simp only [if_pos h1000, reduceCtorEq, if_false]
    rfl
  · simp only [if_neg h1000, Option.some.injEq]
    cases verifyStatusOf (s.queue.counter tx) <;> simp only [reduceCtorEq, if_true, if_false] <;> rfl

/-- An accepted report moves the balances by `create_token` of the quantity it hands to
`verify_handle` when the raised counter passes, and not at all otherwise. -/
theorem dispatch_none_balances (c : Config) (s : State A Tx) {call : Call A Tx Key Sig}
    (h : (dispatch c s .none call).accepted) {tx : Tx} {r : Report}
    (hr : call.report? = some (.report tx r)) :
    (dispatch c s .none call).state.balances =
      if (s.queue.raise tx r).verdict tx = some .Pass then
        (createToken c s (tokenStatusGet s tx).2 call.quantity).balances
      else s.balances := by
  cases call with
  | recordSucVerify b account k tx' status quantity σ =>
    simp only [Call.report?, Option.some.injEq, Action.report.injEq] at hr
    obtain ⟨rfl, rfl⟩ := hr
    obtain ⟨-, s', hqueue, hbal, hacc, hstate⟩ := recordSucVerify_of_accepted h
    simp only [dispatch, Call.quantity]
    rw [hstate, verifyHandle_balances, hqueue, hacc, createToken_balances_congr c hbal, hbal]
  | recordFailVerify block account k tx' err σ =>
    simp only [Call.report?, Option.some.injEq, Action.report.injEq] at hr
    obtain ⟨rfl, rfl⟩ := hr
    obtain ⟨-, s', failed, hqueue, hbal, hacc, hstate⟩ := recordFailVerify_of_accepted h
    -- filing the failure leaves the balances `verify_handle` left
    have hfiled : ({ (verifyHandle c s' tx' 0).2 with fetchFailed := failed } : State A Tx).balances =
        (verifyHandle c s' tx' 0).2.balances := rfl
    simp only [dispatch, Call.quantity]
    rw [hstate, hfiled, verifyHandle_balances, hqueue, hacc, createToken_balances_congr c hbal, hbal]
  | _ => simp [Call.report?] at hr

/-- From an origin other than unsigned, no call writes the balances: the reports are refused,
`exchange` and the root calls write other storage. -/
theorem dispatch_balances_of_ne_none (c : Config) (s : State A Tx) {origin : Origin A}
    (horigin : origin ≠ .none) (call : Call A Tx Key Sig) :
    (dispatch c s origin call).state.balances = s.balances := by
  cases call with
  | setExchangeDealine d => cases origin <;> rfl
  | setNotaryKeys node =>
    cases origin <;> simp only [dispatch, setNotaryKeys] <;> (try split_ifs) <;> rfl
  | delNotaryKeys node =>
    cases origin <;> simp only [dispatch, delNotaryKeys] <;> (try split_ifs) <;> rfl
  | exchange tx => simp only [dispatch, exchange]; split_ifs <;> cases origin <;> rfl
  | recordSucVerify b account k tx status quantity σ =>
    cases origin with
    | none => exact absurd rfl horigin
    | root => rfl
    | signed who => rfl
  | recordFailVerify block account k tx err σ =>
    cases origin with
    | none => exact absurd rfl horigin
    | root => rfl
    | signed who => rfl

/-- An event that raises a digit is an unsigned report, validated under a fresh tag and
accepted, and the world after it holds the storage that report leaves. -/
theorem action_report {c : Config} {verify : Key → ℕ × A × Tx → Sig → Bool} {w : World A Tx}
    {e : Event A Tx Key Sig} {tx : Tx} {r : Report} (h : action c verify w e = some (.report tx r)) :
    ∃ call, e = .unsigned call ∧ call.report? = some (.report tx r) ∧
      (dispatch c w.state .none call).accepted ∧
      (step c verify w e).state = (dispatch c w.state .none call).state := by
  cases e with
  | signed who call =>
    cases call <;> simp only [action] at h <;> (try split_ifs at h) <;> simp at h
  | root call => simp [action] at h
  | nextBlock => simp [action] at h
  | unsigned call =>
    simp only [action] at h
    split at h
    · next tag hvalid =>
      split_ifs at h with hfresh
      refine ⟨call, rfl, h, hfresh.2, ?_⟩
      simp only [step, hvalid, if_neg hfresh.1]
    · simp at h

omit [DecidableEq A] [DecidableEq Tx] [Inhabited A] in
/-- `validate_unsigned` lets reports in only. -/
theorem report?_of_validateUnsigned {verify : Key → ℕ × A × Tx → Sig → Bool}
    {call : Call A Tx Key Sig} {tag : Tag A Tx} (h : validateUnsigned verify call = .ok tag) :
    ∃ tx r, call.report? = some (.report tx r) := by
  cases call with
  | recordSucVerify b account k tx status quantity σ => exact ⟨tx, _, rfl⟩
  | recordFailVerify block account k tx err σ => exact ⟨tx, _, rfl⟩
  | _ => simp [validateUnsigned] at h

section Balances

variable (c : Config) (verify : Key → ℕ × A × Tx → Sig → Bool)

/-- A decision is taken on a report: the event's action reports on the transaction, and the
verdict is that of the raised counter. -/
theorem decisionAt_eq_some {w : World A Tx} {e : Event A Tx Key Sig} {tx : Tx} {v : VerifyStatus}
    (h : decisionAt c verify (w, e) = some (tx, v)) :
    ∃ r, action c verify w e = some (.report tx r) ∧
      (w.state.queue.raise tx r).verdict tx = some v := by
  obtain ⟨a, ha, hdecision⟩ := Option.bind_eq_some_iff.mp h
  cases a with
  | enqueue tx' who => simp [Queue.decision] at hdecision
  | report tx' r =>
    obtain ⟨v', hv, hpair⟩ := Option.map_eq_some_iff.mp hdecision
    obtain ⟨rfl, rfl⟩ := Prod.mk.inj hpair
    exact ⟨r, ha, hv⟩

/-- A report moves the balances by `create_token` of the quantity it carries when its raised
counter passes, and not at all otherwise. -/
theorem step_balances_of_report (w : World A Tx) (e : Event A Tx Key Sig) {tx : Tx} {r : Report}
    (h : action c verify w e = some (.report tx r)) :
    ∃ call, e = .unsigned call ∧ (step c verify w e).state.balances =
      if (w.state.queue.raise tx r).verdict tx = some .Pass then
        (createToken c w.state (tokenStatusGet w.state tx).2 call.quantity).balances
      else w.state.balances := by
  obtain ⟨call, he, hr, hacc, hstate⟩ := action_report h
  refine ⟨call, he, ?_⟩
  rw [hstate]
  exact dispatch_none_balances c w.state hacc hr

/-- An event that raises no digit leaves the balances alone. -/
theorem step_balances_of_not_report (w : World A Tx) (e : Event A Tx Key Sig)
    (h : ∀ tx r, action c verify w e ≠ some (.report tx r)) :
    (step c verify w e).state.balances = w.state.balances := by
  cases e with
  | signed who call => exact dispatch_balances_of_ne_none c w.state (by simp) call
  | root call => exact dispatch_balances_of_ne_none c w.state (by simp) call
  | unsigned call =>
    simp only [step]
    cases hvalid : validateUnsigned verify call with
    | error err => rfl
    | ok tag =>
      dsimp only
      by_cases hfresh : tag ∈ w.provided
      · rw [if_pos hfresh]
      · rw [if_neg hfresh]
        by_cases hacc : (dispatch c w.state .none call).accepted
        · -- a fresh, validated and accepted report would raise a digit
          obtain ⟨tx, r, hr⟩ := report?_of_validateUnsigned hvalid
          exact absurd (by simp [action, hvalid, hfresh, hacc, hr]) (h tx r)
        · exact congrArg State.balances
            (dispatch_state_of_rejected c w.state _ call (by simpa using hacc))
  | nextBlock =>
    simp only [step, onInitialize]
    split_ifs <;> rfl

/-- At the event where `verify_handle` passes `tx`, the balances move by exactly `create_token` of
the quantity the report carries, into the account `tx` is queued for. -/
theorem step_balances_of_pass {w : World A Tx} {e : Event A Tx Key Sig} {tx : Tx}
    (hpass : decisionAt c verify (w, e) = some (tx, .Pass)) :
    ∃ call n acc, e = .unsigned call ∧ w.state.tokenStatus tx = some (n, acc) ∧
      (step c verify w e).state.balances = (createToken c w.state acc call.quantity).balances := by
  obtain ⟨r, ha, hv⟩ := decisionAt_eq_some c verify hpass
  -- the report is about a queued transaction, whose account it pays
  have hen := step_queue c verify w e
  rw [ha] at hen
  obtain ⟨⟨n, acc⟩, hq⟩ := Option.ne_none_iff_exists'.mp hen.1
  rw [State.queue_tokenStatus] at hq
  obtain ⟨call, he, hbal⟩ := step_balances_of_report c verify w e ha
  refine ⟨call, n, acc, he, hq, ?_⟩
  rw [hbal, if_pos hv]
  simp [tokenStatusGet, hq]

/-- An event at which `verify_handle` passes nothing leaves the balances alone. -/
theorem step_balances_of_not_pass {w : World A Tx} {e : Event A Tx Key Sig}
    (h : ∀ tx, decisionAt c verify (w, e) ≠ some (tx, .Pass)) :
    (step c verify w e).state.balances = w.state.balances := by
  cases ha : action c verify w e with
  | none => exact step_balances_of_not_report c verify w e (by simp [ha])
  | some a =>
    cases a with
    | enqueue tx who => exact step_balances_of_not_report c verify w e (by simp [ha])
    | report tx r =>
      obtain ⟨call, -, hbal⟩ := step_balances_of_report c verify w e ha
      rw [hbal, if_neg]
      intro hv
      exact h tx (by simp [decisionAt, ha, Queue.decision, hv])

end Balances

/-! ### Over whole runs -/

section Runs

variable (c : Config) (verify : Key → ℕ × A × Tx → Sig → Bool) (notaryKeys : List A)
  (balances : Balances.State A)

/-- The actions the events of a run perform on the queue, in order. -/
def actions (es : List (Event A Tx Key Sig)) : List (Action A Tx) :=
  ((machine c verify notaryKeys balances).trace es).filterMap fun p => action c verify p.1 p.2

theorem actions_append_singleton (es : List (Event A Tx Key Sig)) (e : Event A Tx Key Sig) :
    actions c verify notaryKeys balances (es ++ [e]) =
      actions c verify notaryKeys balances es ++
        (action c verify ((machine c verify notaryKeys balances).run es) e).toList := by
  unfold actions
  rw [Machine.trace_append_singleton, List.filterMap_append, List.filterMap_cons,
    List.filterMap_nil]
  cases action c verify ((machine c verify notaryKeys balances).run es) e <;> rfl

/-- A report the pool and the pallet take raises its digit in the tally of its transaction. -/
theorem tally_append_report (es : List (Event A Tx Key Sig)) {call : Call A Tx Key Sig}
    {tag : Tag A Tx} (hvalid : validateUnsigned verify call = .ok tag)
    (hfresh : tag ∉ ((machine c verify notaryKeys balances).run es).provided)
    (hacc : (dispatch c ((machine c verify notaryKeys balances).run es).state .none call).accepted)
    {tx : Tx} {r : Report} (hr : call.report? = some (.report tx r)) :
    tally tx (actions c verify notaryKeys balances (es ++ [.unsigned call])) =
      (tally tx (actions c verify notaryKeys balances es)).add r := by
  have haction : action c verify ((machine c verify notaryKeys balances).run es) (.unsigned call) =
      some (.report tx r) := by
    simp [action, hvalid, hfresh, hacc, hr]
  rw [actions_append_singleton, haction, Option.toList_some, tally_append_singleton]
  simp [Tally.record]

/-- Induction over runs, on the queue: a property of the actions so far and of the queue
that holds of the empty queue and that every enabled action keeps holds after every run. -/
theorem queue_run_induction {P : List (Action A Tx) → Queue A Tx → Prop}
    (hinit : P [] ⟨fun _ => none, 0, fun _ => none⟩)
    (hstep : ∀ l q a, P l q → q.Enabled c.txsMaxCount a → P (l ++ [a]) (q.apply a))
    (es : List (Event A Tx Key Sig)) :
    P (actions c verify notaryKeys balances es)
      ((machine c verify notaryKeys balances).run es).state.queue := by
  refine (machine c verify notaryKeys balances).run_induction
    (P := fun es w => P (actions c verify notaryKeys balances es) w.state.queue) hinit ?_ es
  intro es e ih
  rw [actions_append_singleton]
  have hmove := step_queue c verify ((machine c verify notaryKeys balances).run es) e
  cases ha : action c verify ((machine c verify notaryKeys balances).run es) e with
  | none =>
    rw [ha] at hmove
    change (step c verify _ e).state.queue = _ at hmove
    rw [Option.toList_none, List.append_nil]
    change P _ (step c verify _ e).state.queue
    rw [hmove]
    exact ih
  | some a =>
    rw [ha] at hmove
    obtain ⟨hen, hq⟩ := hmove
    change P _ (step c verify _ e).state.queue
    rw [hq]
    exact hstep _ _ a ih hen

/-- The invariants of the queue, at the end of every run: marked transactions are out of
the queue, queued counters start at 1000, and the counter of each queued transaction is the
value of its open tally. -/
theorem queue_inv_run (es : List (Event A Tx Key Sig)) :
    ((machine c verify notaryKeys balances).run es).state.queue.MarkedOut ∧
    ((machine c verify notaryKeys balances).run es).state.queue.Started ∧
    ∀ tx, ((machine c verify notaryKeys balances).run es).state.queue.CounterInv tx
      (tally tx (actions c verify notaryKeys balances es)) := by
  refine queue_run_induction c verify notaryKeys balances
    (P := fun l q => q.MarkedOut ∧ q.Started ∧ ∀ tx, q.CounterInv tx (tally tx l)) ?_ ?_ es
  · refine ⟨fun tx h => absurd rfl h, fun tx n acc h => ?_, fun tx n acc h => ?_⟩ <;>
      exact absurd h (by simp)
  · rintro l q a ⟨hm, hs, hc⟩ hen
    refine ⟨hm.apply hen, hs.apply hen, fun tx => ?_⟩
    rw [tally_append_singleton]
    exact (hc tx).apply hen

/-- The invariants hold of every world a run passes through. -/
theorem queue_inv_of_mem_trace {es : List (Event A Tx Key Sig)} {p : World A Tx × Event A Tx Key Sig}
    (hp : p ∈ (machine c verify notaryKeys balances).trace es) :
    p.1.state.queue.MarkedOut := by
  obtain ⟨es', hes'⟩ :=
    Machine.Reachable.exists_run _ (Machine.reachable_of_mem_trace _ hp)
  rw [← hes']
  exact (queue_inv_run c verify notaryKeys balances es').1

/-- Over every run, `verify_handle` passed `tx` once if `tx` is marked and never otherwise. -/
theorem passes_run (es : List (Event A Tx Key Sig)) (tx : Tx) :
    ((machine c verify notaryKeys balances).trace es).countP
        (fun p => decisionAt c verify p = some (tx, .Pass)) =
      if ((machine c verify notaryKeys balances).run es).state.sucTxExchange tx = none then 0
      else 1 := by
  induction es using List.reverseRecOn with
  | nil => rfl
  | append_singleton es e ih =>
    rw [Machine.trace_append_singleton, List.countP_append, ih, Machine.run_append_singleton]
    have hm := (queue_inv_run c verify notaryKeys balances es).1
    set w := (machine c verify notaryKeys balances).run es
    have hmove := step_queue c verify w e
    change _ = if (step c verify w e).state.sucTxExchange tx = none then 0 else 1
    cases ha : action c verify w e with
    | none =>
      rw [ha] at hmove
      change (step c verify w e).state.queue = w.state.queue at hmove
      have hdecision : decisionAt c verify (w, e) = none := by simp [decisionAt, ha]
      have hsuc : (step c verify w e).state.sucTxExchange tx = w.state.sucTxExchange tx :=
        congrArg (fun q => q.sucTxExchange tx) hmove
      rw [hsuc]
      simp [hdecision]
    | some a =>
      rw [ha] at hmove
      obtain ⟨hen, hq⟩ := hmove
      have hdecision : decisionAt c verify (w, e) = w.state.queue.decision a := by
        simp [decisionAt, ha]
      have hsuc : (step c verify w e).state.sucTxExchange tx =
          (w.state.queue.apply a).sucTxExchange tx :=
        congrArg (fun q => q.sucTxExchange tx) hq
      rw [hsuc]
      by_cases hpass : w.state.queue.decision a = some (tx, .Pass)
      · -- the pass marks an unmarked transaction: the count goes from 0 to 1
        obtain ⟨hbefore, hafter, -⟩ := hm.pass hen hpass
        rw [State.queue_sucTxExchange] at hbefore
        simp [hbefore, hafter, hdecision, hpass]
      · rw [Queue.apply_sucTxExchange, if_neg hpass]
        simp only [hdecision, hpass, decide_false, List.countP_singleton]
        rfl

/-- `TokenStatusLen` counts the queue at the end of every run, as long as one more than
`TxsMaxCount` fits in a `u32`. -/
theorem lenInv_run (hwrap : c.txsMaxCount + 1 < 2 ^ 32) (es : List (Event A Tx Key Sig)) :
    ((machine c verify notaryKeys balances).run es).state.queue.LenInv c.txsMaxCount := by
  refine (queue_run_induction c verify notaryKeys balances
    (P := fun _ q => q.Started ∧ q.LenInv c.txsMaxCount) ?_ ?_ es).2
  · refine ⟨fun tx n acc h => absurd h (by simp), ∅, ⟨fun tx => by simp, rfl⟩, by simp⟩
  · rintro l q a ⟨hs, hl⟩ hen
    exact ⟨hs.apply hen, hl.apply hwrap hs hen⟩

/-- What a run of `exchange` calls from genesis leaves: each of the distinct transactions
`txs` queued for their signer with counter 1000, and the length counting them. -/
theorem run_exchanges (who : A) (txs : List Tx) (hnodup : txs.Nodup)
    (hlen : txs.length ≤ c.txsMaxCount + 1) (hwrap : c.txsMaxCount + 1 < 2 ^ 32)
    (hdead : 1 ≤ c.deadline) :
    let w := (machine c verify notaryKeys balances).run
      (txs.map fun tx => (Event.signed who (.exchange tx) : Event A Tx Key Sig))
    w.state.rootDeadlineTime = c.deadline ∧ w.state.blockNumber = 1 ∧
      w.state.tokenStatusLen = txs.length ∧ (∀ tx, w.state.sucTxExchange tx = none) ∧
      ∀ tx, w.state.tokenStatus tx = if tx ∈ txs then some (1000, who) else none := by
  induction txs using List.reverseRecOn with
  | nil => exact ⟨rfl, rfl, rfl, fun _ => rfl, fun _ => rfl⟩
  | append_singleton l tx ih =>
    obtain ⟨hnodup, hfresh⟩ : l.Nodup ∧ tx ∉ l := by
      rw [List.nodup_append] at hnodup
      exact ⟨hnodup.1, fun hmem => hnodup.2.2 tx hmem tx (by simp) rfl⟩
    rw [List.length_append, List.length_singleton] at hlen
    obtain ⟨hdl, hbn, hlen', hsuc, hstatus⟩ := ih hnodup (by omega)
    rw [List.map_append, List.map_singleton, Machine.run_append_singleton]
    set w := (machine c verify notaryKeys balances).run
      (l.map fun tx => (Event.signed who (.exchange tx) : Event A Tx Key Sig))
    -- every guard of `exchange` holds: before the deadline, unmarked, unqueued, room left
    have hget : (tokenStatusGet w.state tx).1 = 0 := by
      simp [tokenStatusGet, hstatus tx, hfresh]
    have hok : exchange c w.state (.signed who) tx =
        .ok { w.state with tokenStatus := Function.update w.state.tokenStatus tx (some (1000, who)),
                           tokenStatusLen := wrappingAdd 32 w.state.tokenStatusLen 1 } := by
      unfold exchange
      rw [if_neg (by omega)]
      simp only [hsuc tx, Option.isSome_none, Bool.false_eq_true, if_false, hget, ne_eq,
        not_true_eq_false, if_false, if_neg (show ¬c.txsMaxCount < w.state.tokenStatusLen by
          omega)]
    have hstep : (machine c verify notaryKeys balances).step w (.signed who (.exchange tx)) =
        { w with state := (exchange c w.state (.signed who) tx).state } := rfl
    rw [hstep, hok, Machine.Outcome.ok_state]
    refine ⟨hdl, hbn, ?_, hsuc, fun tx' => ?_⟩
    · rw [wrappingAdd_of_lt (by omega), hlen', List.length_append, List.length_singleton]
    · by_cases htx : tx' = tx
      · subst htx
        simp
      · simp [hstatus tx', htx]

end Runs

/-- `create_token` mints for a transaction at most once in any run. `verify_handle` passes it at
most once, and that event mints the reported quantity into the queued account and marks the
transaction out of the queue for good; an event that passes nothing leaves the balances alone. -/
theorem verify_handle_passes_once (c : Config) (verify : Key → ℕ × A × Tx → Sig → Bool)
    (notaryKeys : List A) (balances : Balances.State A) (es : List (Event A Tx Key Sig))
    (tx : Tx) :
    ((machine c verify notaryKeys balances).trace es).countP
        (fun p => decisionAt c verify p = some (tx, .Pass)) ≤ 1 ∧
    (∀ p ∈ (machine c verify notaryKeys balances).trace es,
      decisionAt c verify p = some (tx, .Pass) →
        p.1.state.sucTxExchange tx = none ∧
        (step c verify p.1 p.2).state.sucTxExchange tx = some true ∧
        (step c verify p.1 p.2).state.tokenStatus tx = none ∧
        ∃ call n acc, p.2 = .unsigned call ∧ p.1.state.tokenStatus tx = some (n, acc) ∧
          (step c verify p.1 p.2).state.balances =
            (createToken c p.1.state acc call.quantity).balances) ∧
    (∀ p ∈ (machine c verify notaryKeys balances).trace es,
      (∀ tx', decisionAt c verify p ≠ some (tx', .Pass)) →
        (step c verify p.1 p.2).state.balances = p.1.state.balances) ∧
    (((machine c verify notaryKeys balances).run es).state.sucTxExchange tx ≠ none →
      ((machine c verify notaryKeys balances).run es).state.tokenStatus tx = none ∧
      ∀ e a, action c verify ((machine c verify notaryKeys balances).run es) e = some a →
        a.tx ≠ tx) := by
  refine ⟨?_, ?_, fun p _ hnone => step_balances_of_not_pass c verify hnone, ?_⟩
  · rw [passes_run]
    split <;> omega
  · intro p hp hpass
    have hm := queue_inv_of_mem_trace c verify notaryKeys balances hp
    obtain ⟨a, ha, hdecision⟩ := Option.bind_eq_some_iff.mp hpass
    have hmove := step_queue c verify p.1 p.2
    rw [ha] at hmove
    obtain ⟨hen, hq⟩ := hmove
    obtain ⟨hbefore, hafter, hout⟩ := hm.pass hen hdecision
    rw [← hq] at hafter hout
    exact ⟨hbefore, hafter, hout, step_balances_of_pass c verify hpass⟩
  · intro hmarked
    obtain ⟨hm, -, -⟩ := queue_inv_run c verify notaryKeys balances es
    refine ⟨hm tx hmarked, fun e a ha => ?_⟩
    have hmove := step_queue c verify ((machine c verify notaryKeys balances).run es) e
    rw [ha] at hmove
    exact hm.not_enabled hmarked hmove.1

/-- The counter of a queued transaction is `1000 + 100 s + 10 f + q` for the success, other and
query reports counted since it was queued, below 3, 6 and 8; the next event removes it exactly at
a threshold. Every valid report with a fresh tag is counted, unless its reporter's count overflows. -/
theorem counter_spells_reports (c : Config) (verify : Key → ℕ × A × Tx → Sig → Bool)
    (notaryKeys : List A) (balances : Balances.State A) (es : List (Event A Tx Key Sig))
    (tx : Tx) :
    let w := (machine c verify notaryKeys balances).run es
    let t := tally tx (actions c verify notaryKeys balances es)
    (∀ n acc, w.state.tokenStatus tx = some (n, acc) →
      n = 1000 + 100 * t.success + 10 * t.other + t.query ∧
        t.success ≤ 2 ∧ t.other ≤ 5 ∧ t.query ≤ 7) ∧
    (∀ e, w.state.tokenStatus tx ≠ none →
      let w' := (machine c verify notaryKeys balances).run (es ++ [e])
      let t' := tally tx (actions c verify notaryKeys balances (es ++ [e]))
      (w'.state.tokenStatus tx = none ↔ t'.success = 3 ∨ t'.other = 6 ∨ t'.query = 8) ∧
      (w'.state.sucTxExchange tx ≠ none ↔ t'.success = 3 ∨ t'.query = 8 ∧ 2 ≤ t'.success)) ∧
    (∀ (b : ℕ) (a : A) (k : Key) (status quantity : ℕ) (σ : Sig),
      w.state.tokenStatus tx ≠ none → verify k (b, a, tx) σ = true →
      Tag.suc b tx status a ∉ w.provided →
      (bumpFetchRecord status (w.state.fetchRecord (w.state.blockNumber / c.duration) a)).isSome →
      tally tx (actions c verify notaryKeys balances
        (es ++ [.unsigned (.recordSucVerify b a k tx status quantity σ)])) =
          t.add (.ofStatus status)) ∧
    (∀ (b : ℕ) (a : A) (k : Key) (err : Bytes) (σ : Sig),
      w.state.tokenStatus tx ≠ none → verify k (b, a, tx) σ = true →
      Tag.fail b tx err a ∉ w.provided →
      tally tx (actions c verify notaryKeys balances
        (es ++ [.unsigned (.recordFailVerify b a k tx err σ)])) = t.add .query) := by
  intro w t
  obtain ⟨hm, -, hc⟩ := queue_inv_run c verify notaryKeys balances es
  -- a queued counter is unmarked and small enough for any report to fit
  have hqueued : ∀ n acc, w.state.tokenStatus tx = some (n, acc) →
      w.state.sucTxExchange tx = none ∧ n + 100 ≤ maxOf 64 := by
    intro n acc hq
    refine ⟨?_, ?_⟩
    · by_contra hne
      have hout : w.state.tokenStatus tx = none := hm tx hne
      rw [hout] at hq
      cases hq
    · obtain ⟨hn, ht⟩ := hc tx n acc hq
      have hmax : 1357 ≤ maxOf 64 := by decide
      have hvalue := Tally.value_le ht
      omega
  refine ⟨fun n acc hq => hc tx n acc hq, fun e hpresent => ?_, ?_, ?_⟩
  · intro w' t'
    have hw' : w' = step c verify w e := Machine.run_append_singleton _ es e
    have ht' : t' = (action c verify w e).toList.foldl (Tally.record tx) t := by
      simp only [t', t, actions_append_singleton, tally, List.foldl_append]
      rfl
    rw [hw', ht']
    have hmove := step_queue c verify w e
    cases ha : action c verify w e with
    | none =>
      -- nothing acts on the queue: the transaction stays, with its open tally
      rw [ha] at hmove
      change (step c verify w e).state.queue = w.state.queue at hmove
      rw [Option.toList_none, List.foldl_nil]
      have hstays := (hc tx).stays hm hpresent
      rw [← hmove] at hstays
      exact hstays
    | some a =>
      rw [ha] at hmove
      obtain ⟨hen, hq⟩ := hmove
      rw [Option.toList_some, List.foldl_cons, List.foldl_nil]
      have houtcome := (hc tx).apply_outcome hm hpresent hen
      rw [← hq] at houtcome
      exact houtcome
  · intro b a k status quantity σ hpresent hv hfresh hrec
    obtain ⟨⟨n, acc⟩, hq⟩ := Option.ne_none_iff_exists'.mp hpresent
    obtain ⟨hs, hfit⟩ := hqueued n acc hq
    have hinc : (Report.ofStatus status).increment ≤ 100 := Report.increment_le _
    have hvalid : validateUnsigned verify (.recordSucVerify b a k tx status quantity σ) =
        .ok (.suc b tx status a) := by
      simp [validateUnsigned, hv]
    exact tally_append_report c verify notaryKeys balances es hvalid hfresh
      (recordSucVerify_accepted hq hs hrec (by omega)) rfl
  · intro b a k err σ hpresent hv hfresh
    obtain ⟨⟨n, acc⟩, hq⟩ := Option.ne_none_iff_exists'.mp hpresent
    obtain ⟨-, hfit⟩ := hqueued n acc hq
    have hstarted : 1000 ≤ n := by
      rw [(hc tx n acc hq).1]
      unfold Tally.value
      omega
    have hvalid : validateUnsigned verify (.recordFailVerify b a k tx err σ) =
        .ok (.fail b tx err a) := by
      simp [validateUnsigned, hv]
    exact tally_append_report c verify notaryKeys balances es hvalid hfresh
      (recordFailVerify_accepted hq (by omega) (by omega)) rfl

/-- Account 1 queues transaction 42; a success report that account 9 signs with its own key is
counted as a success. -/
theorem counter_spells_reports_first_report :
    let es : List (Event ℕ ℕ ℕ (ℕ × ℕ × ℕ × ℕ)) := [.signed 1 (.exchange 42)]
    tally 42 (actions runtimeConfig ownKeyVerify [7] emptyBalances
        (es ++ [.unsigned (.recordSucVerify 1 9 9 42 0 10 (9, 1, 9, 42))])) =
      (tally 42 (actions runtimeConfig ownKeyVerify [7] emptyBalances es)).add (.ofStatus 0) :=
  (counter_spells_reports runtimeConfig ownKeyVerify [7] emptyBalances _ 42).2.2.1 1 9 9 0 10
    (9, 1, 9, 42) (by decide) (by decide) (by decide) (by decide)

/-- The length of the queue is the number of queued transactions, at most `TxsMaxCount + 1`;
`TxsMaxCount + 1` distinct exchanges from genesis all queue, since `exchange` checks
`TokenStatusLen <= TxsMaxCount` before it queues. -/
theorem tokenStatusLen_exceeds_txsMaxCount (c : Config) (verify : Key → ℕ × A × Tx → Sig → Bool)
    (notaryKeys : List A) (balances : Balances.State A) (hwrap : c.txsMaxCount + 1 < 2 ^ 32) :
    (∀ es : List (Event A Tx Key Sig), ∃ S : Finset Tx,
      (∀ tx, tx ∈ S ↔ ((machine c verify notaryKeys balances).run es).state.tokenStatus tx ≠ none) ∧
      ((machine c verify notaryKeys balances).run es).state.tokenStatusLen = S.card ∧
      S.card ≤ c.txsMaxCount + 1) ∧
    (∀ (who : A) (txs : List Tx), txs.Nodup → txs.length = c.txsMaxCount + 1 → 1 ≤ c.deadline →
      c.txsMaxCount < ((machine c verify notaryKeys balances).run
        (txs.map fun tx => (Event.signed who (.exchange tx) : Event A Tx Key Sig))).state.tokenStatusLen ∧
      ∀ tx ∈ txs, ((machine c verify notaryKeys balances).run
        (txs.map fun tx => (Event.signed who (.exchange tx) : Event A Tx Key Sig))).state.tokenStatus tx ≠
          none) := by
  refine ⟨fun es => ?_, fun who txs hnodup hlen hdead => ?_⟩
  · obtain ⟨S, ⟨hS, hcard⟩, hle⟩ := lenInv_run c verify notaryKeys balances hwrap es
    exact ⟨S, hS, hcard, hle⟩
  · obtain ⟨-, -, hlen', -, hstatus⟩ :=
      run_exchanges c verify notaryKeys balances who txs hnodup hlen.le hwrap hdead
    refine ⟨by omega, fun tx htx => ?_⟩
    rw [hstatus tx, if_pos htx]
    simp

/-- At the runtime's `TxsMaxCount` of 1000, one account queues the transactions `0` to `1000`:
the length reaches 1001. -/
theorem tokenStatusLen_exceeds_at_runtime :
    runtimeConfig.txsMaxCount < ((machine runtimeConfig ownKeyVerify [7] emptyBalances).run
      ((List.range 1001).map fun tx =>
        (Event.signed 1 (.exchange tx) : Event ℕ ℕ ℕ (ℕ × ℕ × ℕ × ℕ)))).state.tokenStatusLen :=
  ((tokenStatusLen_exceeds_txsMaxCount runtimeConfig ownKeyVerify [7] emptyBalances
    (by decide)).2 1 (List.range 1001) List.nodup_range (by simp [runtimeConfig])
    (by decide)).1


end IpseCore.Exchange
