import IpseCore.Exchange.Queue

/-!
# The notaries' verdict

The offchain worker of a notary takes a queued EOS transaction, asks an EOS node for it, and
reports what `get_verify_status` makes of the answer: status 0 when the transfer is irreversible,
a `POST` transfer of the token contract to the destroy account, signed with the key of the
account the transaction is queued for; 2001, 2002 or 2003 when one of these fails; 1 when the
node answered 1; and the node's own code, with 0 read as 2100, when the key is not 32 bytes. A
failed lookup is reported with `record_fail_verify`.

The HTTP request and the JSON parsing are not modelled: the node's answer on a transaction is
`fetch tx`, the record of the transfer on EOS, which a lookup either returns or fails on. The
worker reads `TokenStatus` at its own block, and `validate_unsigned` keeps its report valid for
ever, so the report may be included long after, when the transaction has been queued again by
someone else. What honest reports still guarantee (`passes_only_burnt`) is that a pass needs a
state the workers read where the transaction was queued for an account its transfer was burnt
for: a pass needs two successes since the transaction was last queued, and an honest success is
a valid burn for the account the worker read.
-/

namespace IpseCore.Exchange

variable {A Tx Key Sig : Type} [DecidableEq A]

/-- `PostTxTransferData`: the fields of the node's answer that the worker reads. -/
structure PostTxTransferData where
  /-- The node's status code, rewritten by `get_verify_status`. -/
  code : ℕ
  /-- Whether the EOS transaction is irreversible. -/
  irreversible : Bool
  /-- Whether it is a transfer of `POST`. -/
  isPostTransfer : Bool
  /-- The contract that made the transfer. -/
  contractAccount : Bytes
  /-- `to`, the receiver of the transfer; `to` is a keyword of Lean. -/
  toAccount : Bytes
  /-- The amount, in tenths of a token. -/
  quantity : ℕ
  /-- The key the transfer names, decoded from hex. -/
  pk : Bytes
  deriving DecidableEq

/-- `CONTRACT_ACCOUNT`, the bytes of `ipsecontract`. -/
def CONTRACT_ACCOUNT : Bytes := [0x69, 0x70, 0x73, 0x65, 0x63, 0x6f, 0x6e, 0x74, 0x72, 0x61, 0x63, 0x74]

/-- `DESTROY_ACCOUNT`, the bytes of `eosio.saving`. -/
def DESTROY_ACCOUNT : Bytes := [0x65, 0x6f, 0x73, 0x69, 0x6f, 0x2e, 0x73, 0x61, 0x76, 0x69, 0x6e, 0x67]

/-- `vec_convert_account`: a key of 32 bytes names an account through `into_account32`. -/
def vecConvertAccount (intoAccount32 : Bytes → A) (acc : Bytes) : Option A :=
  if acc.length ≠ 32 then none else some (intoAccount32 acc)

/-- `get_verify_status`: the node's answer with the code the notary reports for account
`acc`. A code of 1 is left alone; otherwise 0 is first read as 2100, and the checks of the
transfer set the code, but for a key that names no account, which leaves it. -/
def getVerifyStatus (intoAccount32 : Bytes → A) (d : PostTxTransferData) (acc : A) :
    PostTxTransferData :=
  if d.code = 1 then d
  else
    let d := if d.code = 0 then { d with code := 2100 } else d
    if d.irreversible && d.isPostTransfer then
      if d.contractAccount = CONTRACT_ACCOUNT ∧ d.toAccount = DESTROY_ACCOUNT then
        match vecConvertAccount intoAccount32 d.pk with
        | some newAcc => if acc = newAcc then { d with code := 0 } else { d with code := 2003 }
        | none => d
      else { d with code := 2002 }
    else { d with code := 2001 }

/-- `fetch_http_result_status` on the node's answer, or on the error of the lookup:
`fetch_json` and `fetch_parse` are the lookup itself. -/
def fetchHttpResultStatus (intoAccount32 : Bytes → A) (fetched : Except String PostTxTransferData)
    (acceptAccount : A) : Except String PostTxTransferData :=
  fetched.map fun d => getVerifyStatus intoAccount32 d acceptAccount

/-- The report `offchain` submits on `tx`: `call_record_address` with the code and quantity of
a successful lookup, `call_record_fail_verify` with the error of a failed one. Both sign
`(block_num, account, tx)` first, and submit nothing when signing fails. -/
def offchainReport (intoAccount32 : Bytes → A) (sign : Key → ℕ × A × Tx → Option Sig)
    (blockNum : ℕ) (key : Key) (account : A) (tx : Tx) (acceptAccount : A)
    (fetched : Except String PostTxTransferData) : Option (Call A Tx Key Sig) :=
  match fetchHttpResultStatus intoAccount32 fetched acceptAccount with
  | .ok d => (sign key (blockNum, account, tx)).map fun σ =>
    .recordSucVerify blockNum account key tx d.code d.quantity σ
  | .error e => (sign key (blockNum, account, tx)).map fun σ =>
    .recordFailVerify blockNum account key tx e.toUTF8.toList σ

/-! ### A success is a valid burn -/

/-- What a notary's success stands for: an irreversible `POST` transfer by the token contract to
the destroy account, under the key of `acc`, in an answer whose code is not the query's 1. -/
def ValidBurn (intoAccount32 : Bytes → A) (d : PostTxTransferData) (acc : A) : Prop :=
  d.code ≠ 1 ∧ d.irreversible = true ∧ d.isPostTransfer = true ∧
    d.contractAccount = CONTRACT_ACCOUNT ∧ d.toAccount = DESTROY_ACCOUNT ∧
    vecConvertAccount intoAccount32 d.pk = some acc

variable {intoAccount32 : Bytes → A}

/-- Reading 0 as 2100 changes the code alone, to one other than 0. -/
theorem code_ne_zero_of_ne_one {d : PostTxTransferData} (h1 : d.code ≠ 1) :
    ∃ c, (if d.code = 0 then { d with code := 2100 } else d) = { d with code := c } ∧ c ≠ 0 ∧
      c ≠ 1 := by
  split_ifs with h0
  · exact ⟨2100, rfl, by decide, by decide⟩
  · exact ⟨d.code, rfl, h0, h1⟩

/-- `get_verify_status` writes the code alone. -/
theorem getVerifyStatus_eq (d : PostTxTransferData) (acc : A) :
    getVerifyStatus intoAccount32 d acc =
      { d with code := (getVerifyStatus intoAccount32 d acc).code } := by
  unfold getVerifyStatus
  by_cases h1 : d.code = 1
  · rw [if_pos h1]
  obtain ⟨c, hc, -, -⟩ := code_ne_zero_of_ne_one h1
  rw [if_neg h1]
  dsimp only
  rw [hc]
  dsimp only
  split_ifs
  · split
    · split_ifs <;> rfl
    · rfl
  · rfl
  · rfl

theorem getVerifyStatus_quantity (d : PostTxTransferData) (acc : A) :
    (getVerifyStatus intoAccount32 d acc).quantity = d.quantity := by
  rw [getVerifyStatus_eq]

/-- The worker reports 0 exactly on a valid burn for the account: a code of 0 from the node is
read as 2100 before the checks, so it never passes through. -/
theorem getVerifyStatus_code_eq_zero_iff (d : PostTxTransferData) (acc : A) :
    (getVerifyStatus intoAccount32 d acc).code = 0 ↔ ValidBurn intoAccount32 d acc := by
  unfold getVerifyStatus ValidBurn
  by_cases h1 : d.code = 1
  · rw [if_pos h1, h1]
    exact iff_of_false one_ne_zero fun h => h.1 rfl
  obtain ⟨c, hc, hc0, -⟩ := code_ne_zero_of_ne_one h1
  rw [if_neg h1]
  dsimp only
  rw [hc]
  dsimp only
  by_cases hpost : (d.irreversible && d.isPostTransfer) = true
  · obtain ⟨hirr, hpt⟩ := Bool.and_eq_true _ _ ▸ hpost
    rw [if_pos hpost]
    by_cases hdest : d.contractAccount = CONTRACT_ACCOUNT ∧ d.toAccount = DESTROY_ACCOUNT
    · rw [if_pos hdest]
      -- the key decides, and a key that names no account leaves a code other than 0
      cases hkey : vecConvertAccount intoAccount32 d.pk with
      | none => exact iff_of_false hc0 fun h => by simp at h
      | some newAcc =>
        dsimp only
        by_cases hacc : acc = newAcc
        · rw [if_pos hacc]
          exact iff_of_true rfl ⟨h1, hirr, hpt, hdest.1, hdest.2, by rw [hacc]⟩
        · rw [if_neg hacc]
          exact iff_of_false (by simp) fun h => hacc (Option.some.inj h.2.2.2.2.2).symm
    · rw [if_neg hdest]
      exact iff_of_false (by simp) fun h => hdest ⟨h.2.2.2.1, h.2.2.2.2.1⟩
  · rw [if_neg hpost]
    exact iff_of_false (by simp) fun h => hpost (by rw [h.2.1, h.2.2.1]; rfl)

/-! ### Honest notaries -/

theorem Report.ofStatus_eq_success_iff (status : ℕ) : Report.ofStatus status = .success ↔ status = 0 := by
  unfold Report.ofStatus
  split_ifs <;> simp_all

variable {sign : Key → ℕ × A × Tx → Option Sig}

/-- The worker's report on `tx` raises a digit of `tx`, and it is a success only after a lookup
that returned a valid burn for the account it was checked against. -/
theorem offchainReport_report? {blockNum : ℕ} {key : Key} {account : A} {tx : Tx}
    {acceptAccount : A} {fetched : Except String PostTxTransferData} {call : Call A Tx Key Sig}
    (h : offchainReport intoAccount32 sign blockNum key account tx acceptAccount fetched =
      some call) :
    ∃ r, call.report? = some (.report tx r) ∧
      (r = .success → ∃ d, fetched = .ok d ∧ ValidBurn intoAccount32 d acceptAccount) := by
  unfold offchainReport fetchHttpResultStatus at h
  cases fetched with
  | ok d =>
    obtain ⟨σ, -, rfl⟩ := Option.map_eq_some_iff.mp h
    refine ⟨_, rfl, fun hs => ⟨d, rfl, ?_⟩⟩
    exact (getVerifyStatus_code_eq_zero_iff d acceptAccount).mp
      ((Report.ofStatus_eq_success_iff _).mp hs)
  | error e =>
    obtain ⟨σ, -, rfl⟩ := Option.map_eq_some_iff.mp h
    exact ⟨.query, rfl, fun hs => absurd hs (by decide)⟩

/-- A report an honest notary's worker submits after reading `TokenStatus` at `w`: its report on
a transaction queued there, checked against the account it is queued for, after a lookup that
returned the node's record `fetch tx` or failed. -/
def Honest (intoAccount32 : Bytes → A) (sign : Key → ℕ × A × Tx → Option Sig)
    (fetch : Tx → PostTxTransferData) (w : World A Tx) (call : Call A Tx Key Sig) : Prop :=
  ∃ blockNum key account tx n acc fetched, w.state.tokenStatus tx = some (n, acc) ∧
    (fetched = .ok (fetch tx) ∨ ∃ e, fetched = .error e) ∧
    offchainReport intoAccount32 sign blockNum key account tx acc fetched = some call

/-- An event that is not an unsigned call, or an honest report read at one of the states `W`. -/
def HonestFrom (intoAccount32 : Bytes → A) (sign : Key → ℕ × A × Tx → Option Sig)
    (fetch : Tx → PostTxTransferData) (W : Set (World A Tx)) : Event A Tx Key Sig → Prop
  | .unsigned call => ∃ w ∈ W, Honest intoAccount32 sign fetch w call
  | _ => True

/-- One of the states `W` has `tx` queued for an account the node's record of `tx` is a burn
for. -/
def BurntIn (intoAccount32 : Bytes → A) (fetch : Tx → PostTxTransferData)
    (W : Set (World A Tx)) (tx : Tx) : Prop :=
  ∃ w ∈ W, ∃ n acc, w.state.tokenStatus tx = some (n, acc) ∧
    ValidBurn intoAccount32 (fetch tx) acc

variable {fetch : Tx → PostTxTransferData}

/-- An honest success on `tx` is a valid burn for the account the worker read `tx` queued for. -/
theorem Honest.success {w : World A Tx} {call : Call A Tx Key Sig}
    (hhonest : Honest intoAccount32 sign fetch w call) {tx : Tx}
    (hr : call.report? = some (.report tx .success)) :
    ∃ n acc, w.state.tokenStatus tx = some (n, acc) ∧ ValidBurn intoAccount32 (fetch tx) acc := by
  obtain ⟨blockNum, key, account, tx', n, acc, fetched, hq, hfetched, hreport⟩ := hhonest
  obtain ⟨r, hr', hvalid⟩ := offchainReport_report? hreport
  rw [hr, Option.some.injEq, Action.report.injEq] at hr'
  obtain ⟨rfl, rfl⟩ := hr'
  obtain ⟨d, rfl, hd⟩ := hvalid rfl
  rcases hfetched with hok | ⟨e, herr⟩
  · rw [Except.ok.injEq] at hok
    exact ⟨n, acc, hq, hok ▸ hd⟩
  · exact absurd herr (by simp)

/-! ### A pass needs a valid burn -/

section Runs

variable [DecidableEq Tx] [Inhabited A] (c : Config) (verify : Key → ℕ × A × Tx → Sig → Bool)
  (notaryKeys : List A) (balances : Balances.State A)

/-- A success counted on `tx` in a run of honest reports makes the burn found: it is the action
of a success report of the run. -/
theorem burntIn_of_tally (W : Set (World A Tx)) {es : List (Event A Tx Key Sig)}
    (hhonest : ∀ e ∈ es, HonestFrom intoAccount32 sign fetch W e) {tx : Tx}
    (hs : 1 ≤ (tally tx (actions c verify notaryKeys balances es)).success) :
    BurntIn intoAccount32 fetch W tx := by
  obtain ⟨p, hp, ha⟩ := List.mem_filterMap.mp (report_success_mem_of_tally hs)
  obtain ⟨call, he, hr, -, -⟩ := action_report ha
  have hmem : p.2 ∈ es := Machine.mem_of_mem_trace _ hp
  rw [he] at hmem
  obtain ⟨w, hw, hcall⟩ := hhonest _ hmem
  obtain ⟨n, acc, hq, hburn⟩ := hcall.success hr
  exact ⟨w, hw, n, acc, hq, hburn⟩

/-- With honest notaries reading the queue at states `W`, `verify_handle` passes a transaction
only if one of these states has it queued for an account whose burn the node's record is. -/
theorem passes_only_burnt (W : Set (World A Tx)) (es : List (Event A Tx Key Sig))
    (e : Event A Tx Key Sig) (hhonest : ∀ e' ∈ es, HonestFrom intoAccount32 sign fetch W e')
    {tx : Tx}
    (hpass : decisionAt c verify ((machine c verify notaryKeys balances).run es, e) =
      some (tx, .Pass)) :
    BurntIn intoAccount32 fetch W tx := by
  set w := (machine c verify notaryKeys balances).run es
  have hcounter := (queue_inv_run c verify notaryKeys balances es).2.2 tx
  -- the event's action is a report on `tx` whose raise passes it
  obtain ⟨r, ha, hv⟩ := decisionAt_eq_some c verify hpass
  have hen := step_queue c verify w e
  rw [ha] at hen
  obtain ⟨⟨n, acc⟩, hq⟩ := Option.ne_none_iff_exists'.mp hen.1
  obtain ⟨-, hverdict⟩ := hcounter.raise_verdict hq r
  rw [hverdict, Option.some.injEq, Tally.pass_iff (hcounter n acc hq).2] at hv
  -- a pass needs two successes, so one was counted before this report
  have hone : 1 ≤ (tally tx (actions c verify notaryKeys balances es)).success := by
    cases r <;> simp only [Tally.add] at hv <;> omega
  exact burntIn_of_tally c verify notaryKeys balances W hhonest hone

/-- The node's record of transaction 42 in `passes_only_burnt_requeued`: a burn of 10 under a
key of 32 zero bytes, which names account 1. -/
def burntRecord : PostTxTransferData :=
  ⟨0, true, true, CONTRACT_ACCOUNT, DESTROY_ACCOUNT, 10, List.replicate 32 0⟩

/-- Account 1 queues EOS transaction 42, a burn for account 1; notary 7 reads the queue there,
and its eight failed lookups fail the transaction. Account 2 queues it again, and three success
reports built from the first reading pass it, for account 2. -/
theorem passes_only_burnt_requeued :
    let es : List (Event ℕ ℕ ℕ (ℕ × ℕ × ℕ × ℕ)) := [.signed 1 (.exchange 42),
      .unsigned (.recordFailVerify 1 7 7 42 "".toUTF8.toList (7, 1, 7, 42)),
      .unsigned (.recordFailVerify 2 7 7 42 "".toUTF8.toList (7, 2, 7, 42)),
      .unsigned (.recordFailVerify 3 7 7 42 "".toUTF8.toList (7, 3, 7, 42)),
      .unsigned (.recordFailVerify 4 7 7 42 "".toUTF8.toList (7, 4, 7, 42)),
      .unsigned (.recordFailVerify 5 7 7 42 "".toUTF8.toList (7, 5, 7, 42)),
      .unsigned (.recordFailVerify 6 7 7 42 "".toUTF8.toList (7, 6, 7, 42)),
      .unsigned (.recordFailVerify 7 7 7 42 "".toUTF8.toList (7, 7, 7, 42)),
      .unsigned (.recordFailVerify 8 7 7 42 "".toUTF8.toList (7, 8, 7, 42)),
      .signed 2 (.exchange 42),
      .unsigned (.recordSucVerify 11 7 7 42 0 10 (7, 11, 7, 42)),
      .unsigned (.recordSucVerify 12 7 7 42 0 10 (7, 12, 7, 42))]
    let e : Event ℕ ℕ ℕ (ℕ × ℕ × ℕ × ℕ) := .unsigned (.recordSucVerify 13 7 7 42 0 10 (7, 13, 7, 42))
    (∀ e' ∈ es, HonestFrom (fun _ => 1) (fun k m => some (k, m)) (fun _ => burntRecord)
        {queuedWorld} e') ∧
      decisionAt runtimeConfig ownKeyVerify
        ((machine runtimeConfig ownKeyVerify [7] emptyBalances).run es, e) = some (42, .Pass) ∧
      ((machine runtimeConfig ownKeyVerify [7] emptyBalances).run es).state.tokenStatus 42 =
        some (1200, 2) ∧
      ¬ValidBurn (fun _ => 1) burntRecord 2 ∧
      BurntIn (fun _ => 1) (fun _ => burntRecord) {queuedWorld} 42 := by
  intro es e
  have hqueued : queuedWorld.state.tokenStatus 42 = some (1000, 1) := by decide
  -- every report is notary 7's, built after reading the queue at `queuedWorld`
  have hhonest : ∀ e' ∈ es, HonestFrom (fun _ => 1) (fun k m => some (k, m))
      (fun _ => burntRecord) {queuedWorld} e' := by
    intro e' he'
    simp only [es, List.mem_cons, List.not_mem_nil, or_false] at he'
    rcases he' with rfl | rfl | rfl | rfl | rfl | rfl | rfl | rfl | rfl | rfl | rfl | rfl
    all_goals first
      | trivial
      | exact ⟨queuedWorld, rfl, _, 7, 7, 42, 1000, 1, .error "", hqueued, .inr ⟨"", rfl⟩, rfl⟩
      | exact ⟨queuedWorld, rfl, _, 7, 7, 42, 1000, 1, .ok burntRecord, hqueued, .inl rfl, rfl⟩
  have hpass : decisionAt runtimeConfig ownKeyVerify
      ((machine runtimeConfig ownKeyVerify [7] emptyBalances).run es, e) = some (42, .Pass) := by
    decide
  refine ⟨hhonest, hpass, by decide, fun h => absurd h.2.2.2.2.2 (by decide), ?_⟩
  exact passes_only_burnt runtimeConfig ownKeyVerify [7] emptyBalances {queuedWorld} es e hhonest
    hpass

end Runs

end IpseCore.Exchange
