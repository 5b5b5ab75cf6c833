import IpseCore.Exchange.Model

/-!
# Reports on queued transactions over whole runs

The chain and its transaction pool form one machine. Signed and root calls are
dispatched as they come; an unsigned report enters only when `validate_unsigned`
accepts it and its `provides` tag was not already provided. The pool is taken to
remember every tag it ever saw, which only narrows what a submitter can do.

Three facts about every run follow. Only a signed `exchange` or a validated report
changes `TokenStatus`, and a validated report is one whose signature verifies under
the key it carries itself. `NotaryKeys` plays no part in this: two runs from genesis
that differ only in the list differ in nothing else (`run_withNotaryKeys`). And reports
are counted one by one: the same reporter, under new block numbers, is counted again,
so three success reports pass a queued transaction, whoever sent them.
-/

namespace IpseCore.Exchange

open Unsigned

variable {A Tx Key Sig : Type}

/-- The chain's Exchange state together with the tags the pool has seen provided. -/
structure World (A Tx : Type) where
  /-- The pallet's storage. -/
  state : State A Tx
  /-- Tags provided by the unsigned reports included so far. -/
  provided : List (Tag A Tx)

/-- What can happen next: a call by a signer or by root, an unsigned submission by anyone,
or the start of the next block. -/
inductive Event (A Tx Key Sig : Type) where
  | signed (who : A) (call : Call A Tx Key Sig)
  | root (call : Call A Tx Key Sig)
  | unsigned (call : Call A Tx Key Sig)
  | nextBlock

/-- The storage with `NotaryKeys` replaced. -/
def State.withNotaryKeys (s : State A Tx) (ks : List A) : State A Tx := { s with notaryKeys := ks }

/-- The world with `NotaryKeys` replaced. -/
def World.withNotaryKeys (w : World A Tx) (ks : List A) : World A Tx :=
  { w with state := w.state.withNotaryKeys ks }

section NotaryKeysFields

variable (s : State A Tx) (ks ks' : List A)

@[simp] theorem State.withNotaryKeys_withNotaryKeys :
    (s.withNotaryKeys ks).withNotaryKeys ks' = s.withNotaryKeys ks' := rfl

@[simp] theorem State.withNotaryKeys_tokenStatus : (s.withNotaryKeys ks).tokenStatus = s.tokenStatus :=
  rfl

@[simp] theorem State.withNotaryKeys_sucTxExchange :
    (s.withNotaryKeys ks).sucTxExchange = s.sucTxExchange := rfl

@[simp] theorem State.withNotaryKeys_fetchRecord : (s.withNotaryKeys ks).fetchRecord = s.fetchRecord :=
  rfl

@[simp] theorem State.withNotaryKeys_blockNumber : (s.withNotaryKeys ks).blockNumber = s.blockNumber :=
  rfl

@[simp] theorem State.withNotaryKeys_rootDeadlineTime :
    (s.withNotaryKeys ks).rootDeadlineTime = s.rootDeadlineTime := rfl

@[simp] theorem State.withNotaryKeys_tokenStatusLen :
    (s.withNotaryKeys ks).tokenStatusLen = s.tokenStatusLen := rfl

/-- Writing the counters commutes with overwriting `NotaryKeys`. -/
theorem State.withNotaryKeys_update_tokenStatus (f : Tx → Option (ℕ × A)) :
    ({ s.withNotaryKeys ks with tokenStatus := f } : State A Tx) =
      ({ s with tokenStatus := f } : State A Tx).withNotaryKeys ks := rfl

@[simp] theorem World.withNotaryKeys_state (w : World A Tx) :
    (w.withNotaryKeys ks).state = w.state.withNotaryKeys ks := rfl

@[simp] theorem World.withNotaryKeys_provided (w : World A Tx) :
    (w.withNotaryKeys ks).provided = w.provided := rfl

end NotaryKeysFields

variable [DecidableEq A] [DecidableEq Tx] [Inhabited A]

/-- One event. -/
def step (c : Config) (verify : Key → ℕ × A × Tx → Sig → Bool) (w : World A Tx) :
    Event A Tx Key Sig → World A Tx
  | .signed who call => { w with state := (dispatch c w.state (.signed who) call).state }
  | .root call => { w with state := (dispatch c w.state .root call).state }
  | .unsigned call =>
    match validateUnsigned verify call with
    | .ok tag =>
      if tag ∈ w.provided then w
      else { state := (dispatch c w.state .none call).state, provided := tag :: w.provided }
    | .error _ => w
  | .nextBlock =>
    let next := { w.state with blockNumber := w.state.blockNumber + 1 }
    { w with state := onInitialize c next next.blockNumber }

/-- The storage at block one, from the genesis configuration. -/
def genesis (c : Config) (notaryKeys : List A) (balances : Balances.State A) : State A Tx where
  rootDeadlineTime := c.deadline
  tokenStatus := fun _ => none
  tokenStatusLen := 0
  notaryKeys := notaryKeys
  sucTxExchange := fun _ => none
  eosExchangeInfo := fun _ _ => default
  fetchRecord := fun _ _ => (0, 0, 0)
  fetchFailed := fun _ => []
  balances := balances
  blockNumber := 1

/-- The Exchange chain as a machine. -/
def machine (c : Config) (verify : Key → ℕ × A × Tx → Sig → Bool) (notaryKeys : List A)
    (balances : Balances.State A) : Machine (World A Tx) (Event A Tx Key Sig) where
  init := ⟨genesis c notaryKeys balances, []⟩
  step := step c verify

/-- The transaction a call is about. -/
def Call.tx? : Call A Tx Key Sig → Option Tx
  | .exchange tx => some tx
  | .recordSucVerify _ _ _ tx _ _ _ => some tx
  | .recordFailVerify _ _ _ tx _ _ => some tx
  | _ => none

/-- A report whose signature verifies under the key it carries. -/
def SignedByOwnKey (verify : Key → ℕ × A × Tx → Sig → Bool) : Call A Tx Key Sig → Prop
  | .recordSucVerify blockNum account key tx _ _ signature =>
    verify key (blockNum, account, tx) signature = true
  | .recordFailVerify block account key tx _ signature =>
    verify key (block, account, tx) signature = true
  | _ => False

/-! ### Which calls touch `TokenStatus` -/

omit [DecidableEq A] [Inhabited A] in
theorem removeTx_tokenStatus_ne (s : State A Tx) {tx tx' : Tx} (h : tx' ≠ tx) :
    (removeTx s tx).tokenStatus tx' = s.tokenStatus tx' := by
  simp [removeTx, Function.update_of_ne h]

/-- `verify_handle` touches the counter of its own transaction only. -/
theorem verifyHandle_tokenStatus_ne (c : Config) (s : State A Tx) {tx tx' : Tx} (h : tx' ≠ tx)
    (quantity : ℕ) : (verifyHandle c s tx quantity).2.tokenStatus tx' = s.tokenStatus tx' := by
  unfold verifyHandle
  dsimp only
  split_ifs
  · exact removeTx_tokenStatus_ne s h
  · split <;> simp [Function.update_of_ne h]

/-- A report about another transaction leaves the counter of `tx'` alone. -/
theorem recordSucVerify_tokenStatus_ne (c : Config) (s : State A Tx) (origin : Origin A)
    (account : A) {tx tx' : Tx} (h : tx' ≠ tx) (status quantity : ℕ) :
    (recordSucVerify c s origin account tx status quantity).state.tokenStatus tx' =
      s.tokenStatus tx' := by
  unfold recordSucVerify
  split
  · dsimp only
    split
    · rfl
    · split_ifs
      · rfl
      · split
        · simp [verifyHandle_tokenStatus_ne _ _ h, Function.update_of_ne h]
        · rfl
  · rfl

theorem recordFailVerify_tokenStatus_ne (c : Config) (s : State A Tx) (origin : Origin A)
    (block : ℕ) (account : A) {tx tx' : Tx} (h : tx' ≠ tx) (err : Bytes) :
    (recordFailVerify c s origin block account tx err).state.tokenStatus tx' =
      s.tokenStatus tx' := by
  unfold recordFailVerify
  split
  · dsimp only
    split_ifs
    · rfl
    · split
      · rfl
      · simp [verifyHandle_tokenStatus_ne _ _ h, Function.update_of_ne h]
  · rfl

/-- Reports need the unsigned origin: from any other origin they change nothing. -/
theorem dispatch_report_signed (c : Config) (s : State A Tx) {origin : Origin A}
    (horigin : origin ≠ .none) (call : Call A Tx Key Sig) (hcall : ∀ tx, call ≠ .exchange tx)
    (tx : Tx) : (dispatch c s origin call).state.tokenStatus tx = s.tokenStatus tx := by
  cases call with
  | setExchangeDealine d => cases origin <;> rfl
  | setNotaryKeys node =>
    cases origin <;> simp only [dispatch, setNotaryKeys] <;> (try split_ifs) <;> rfl
  | delNotaryKeys node =>
    cases origin <;> simp only [dispatch, delNotaryKeys] <;> (try split_ifs) <;> rfl
  | exchange tx' => exact absurd rfl (hcall tx')
  | recordSucVerify b a k tx' st q sig =>
    cases origin with
    | none => exact absurd rfl horigin
    | root => rfl
    | signed who => rfl
  | recordFailVerify b a k tx' err sig =>
    cases origin with
    | none => exact absurd rfl horigin
    | root => rfl
    | signed who => rfl

/-- Unsigned, only the two reports do anything, and only to their own transaction. -/
theorem dispatch_none_tokenStatus (c : Config) (s : State A Tx) (call : Call A Tx Key Sig)
    (tx : Tx) (hne : call.tx? ≠ some tx) :
    (dispatch c s .none call).state.tokenStatus tx = s.tokenStatus tx := by
  cases call with
  | setExchangeDealine d => rfl
  | setNotaryKeys node => rfl
  | delNotaryKeys node => rfl
  | exchange tx' => simp [dispatch, exchange]; split_ifs <;> rfl
  | recordSucVerify b a k tx' st q sig =>
    have h : tx ≠ tx' := fun h => hne (by simp [Call.tx?, h])
    exact recordSucVerify_tokenStatus_ne c s .none a h st q
  | recordFailVerify b a k tx' err sig =>
    have h : tx ≠ tx' := fun h => hne (by simp [Call.tx?, h])
    exact recordFailVerify_tokenStatus_ne c s .none b a h err

omit [DecidableEq A] in
theorem exchange_tokenStatus_ne (c : Config) (s : State A Tx) (origin : Origin A) {tx tx' : Tx}
    (h : tx' ≠ tx) : (exchange c s origin tx).state.tokenStatus tx' = s.tokenStatus tx' := by
  cases origin <;> simp only [exchange] <;> split_ifs <;> simp [Function.update_of_ne h]

omit [DecidableEq A] in
/-- Outside the signed origin, `exchange` changes nothing. -/
theorem exchange_state_of_not_signed (c : Config) (s : State A Tx) {origin : Origin A}
    (horigin : ∀ who, origin ≠ .signed who) (tx : Tx) : (exchange c s origin tx).state = s := by
  cases origin with
  | signed who => exact absurd rfl (horigin who)
  | root => simp only [exchange]; split_ifs <;> rfl
  | none => simp only [exchange]; split_ifs <;> rfl

omit [DecidableEq A] [DecidableEq Tx] [Inhabited A] in
/-- `validate_unsigned` accepts reports only, and only with a signature under their own key. -/
theorem signedByOwnKey_of_validateUnsigned {verify : Key → ℕ × A × Tx → Sig → Bool}
    {call : Call A Tx Key Sig} {tag : Tag A Tx} (h : validateUnsigned verify call = .ok tag) :
    SignedByOwnKey verify call := by
  cases call with
  | recordSucVerify b a k tx st q sig =>
    simp only [validateUnsigned] at h
    split_ifs at h with hv
    · exact hv
  | recordFailVerify b a k tx err sig =>
    simp only [validateUnsigned] at h
    split_ifs at h with hv
    · exact hv
  | _ => simp [validateUnsigned] at h

/-- Every change of the counter of `tx`, in any state, comes from a signed `exchange` of
`tx`, or from an unsigned report about `tx` whose signature verifies under the key it
carries. Nothing here consults `NotaryKeys`. -/
theorem step_tokenStatus_change (c : Config) (verify : Key → ℕ × A × Tx → Sig → Bool)
    (w : World A Tx) (e : Event A Tx Key Sig) (tx : Tx)
    (h : (step c verify w e).state.tokenStatus tx ≠ w.state.tokenStatus tx) :
    (∃ who, e = .signed who (.exchange tx)) ∨
      (∃ call, e = .unsigned call ∧ call.tx? = some tx ∧ SignedByOwnKey verify call) := by
  cases e with
  | signed who call =>
    by_cases hex : ∃ tx', call = .exchange tx'
    · obtain ⟨tx', rfl⟩ := hex
      by_cases htx : tx' = tx
      · exact .inl ⟨who, by rw [htx]⟩
      · exact absurd (exchange_tokenStatus_ne c w.state (.signed who) (Ne.symm htx)) h
    · simp only [not_exists] at hex
      exact absurd (dispatch_report_signed c w.state (by simp) call hex tx) h
  | root call =>
    by_cases hex : ∃ tx', call = .exchange tx'
    · obtain ⟨tx', rfl⟩ := hex
      have hstate : (exchange c w.state .root tx').state = w.state :=
        exchange_state_of_not_signed c w.state (by simp) tx'
      exact absurd (by simp only [step, dispatch, hstate]) h
    · simp only [not_exists] at hex
      exact absurd (dispatch_report_signed c w.state (by simp) call hex tx) h
  | unsigned call =>
    simp only [step] at h
    split at h
    · rename_i tag hvalid
      split_ifs at h with hprovided
      · exact absurd rfl h
      · by_cases htx : call.tx? = some tx
        · exact .inr ⟨call, rfl, htx, signedByOwnKey_of_validateUnsigned hvalid⟩
        · exact absurd (dispatch_none_tokenStatus c w.state call tx htx) h
    · exact absurd rfl h
  | nextBlock =>
    exact absurd (by simp only [step, onInitialize]; split_ifs <;> rfl) h

/-! ### One report at a time -/

omit [DecidableEq Tx] [Inhabited A] in
theorem createToken_balances_congr (c : Config) {s s' : State A Tx} (h : s.balances = s'.balances)
    (who : A) (quantity : ℕ) :
    (createToken c s who quantity).balances = (createToken c s' who quantity).balances := by
  simp only [createToken, h]

/-- `verify_handle` on a counter that goes on changes nothing. -/
theorem verifyHandle_continue (c : Config) (s : State A Tx) (tx : Tx) (quantity : ℕ)
    (h1000 : 1000 ≤ (tokenStatusGet s tx).1)
    (hcont : verifyStatusOf (tokenStatusGet s tx).1 = .Continue) :
    verifyHandle c s tx quantity = (.ok .Continue, s) := by
  unfold verifyHandle
  dsimp only
  rw [if_neg (Nat.not_lt.mpr h1000), hcont]

/-- `verify_handle` on a passing counter mints into the account to pay and marks `tx`. -/
theorem verifyHandle_pass (c : Config) (s : State A Tx) (tx : Tx) (quantity : ℕ)
    (h1000 : 1000 ≤ (tokenStatusGet s tx).1)
    (hpass : verifyStatusOf (tokenStatusGet s tx).1 = .Pass) :
    (verifyHandle c s tx quantity).2.sucTxExchange tx = some true ∧
      (verifyHandle c s tx quantity).2.balances =
        (createToken c s (tokenStatusGet s tx).2 quantity).balances := by
  unfold verifyHandle
  dsimp only
  rw [if_neg (Nat.not_lt.mpr h1000), hpass]
  dsimp only
  simp only [removeTx_balances, Function.update_self, and_true]

/-- Whatever `verify_handle` decides, it never marks a transaction other than by passing it. -/
theorem verifyHandle_sucTxExchange (c : Config) (s : State A Tx) (tx : Tx) (quantity : ℕ)
    (h : (verifyHandle c s tx quantity).2.sucTxExchange tx ≠ s.sucTxExchange tx) :
    1000 ≤ (tokenStatusGet s tx).1 ∧ verifyStatusOf (tokenStatusGet s tx).1 = .Pass := by
  unfold verifyHandle at h
  dsimp only at h
  split_ifs at h with h1000
  · exact absurd rfl h
  · refine ⟨by omega, ?_⟩
    revert h
    cases verifyStatusOf (tokenStatusGet s tx).1
    · intro h; exact absurd rfl h
    · intro h; exact absurd rfl h
    · intro _; rfl

/-- The state a success report about a queued `tx` hands to `verify_handle`: the
reporter's success count and the counter of `tx` raised. -/
def reportedState (c : Config) (s : State A Tx) (a : A) (tx : Tx) (st : ℕ) (acc : A) :
    State A Tx :=
  let period := s.blockNumber / c.duration
  let record := s.fetchRecord period a
  { s with
    fetchRecord := Function.update s.fetchRecord period
      (Function.update (s.fetchRecord period) a (record.1 + 1, record.2)),
    tokenStatus := Function.update s.tokenStatus tx (some (st + 100, acc)) }

section ReportedState

variable (c : Config) (s : State A Tx) (a : A) (tx : Tx) (st : ℕ) (acc : A)

@[simp] theorem tokenStatusGet_reportedState :
    tokenStatusGet (reportedState c s a tx st acc) tx = (st + 100, acc) := by
  simp [reportedState, tokenStatusGet]

omit [Inhabited A] in
@[simp] theorem reportedState_tokenStatus :
    (reportedState c s a tx st acc).tokenStatus tx = some (st + 100, acc) := by
  simp [reportedState]

omit [Inhabited A] in
@[simp] theorem reportedState_sucTxExchange :
    (reportedState c s a tx st acc).sucTxExchange = s.sucTxExchange := rfl

omit [Inhabited A] in
@[simp] theorem reportedState_balances :
    (reportedState c s a tx st acc).balances = s.balances := rfl

omit [Inhabited A] in
@[simp] theorem reportedState_blockNumber :
    (reportedState c s a tx st acc).blockNumber = s.blockNumber := rfl

omit [Inhabited A] in
@[simp] theorem reportedState_fetchRecord :
    (reportedState c s a tx st acc).fetchRecord =
      Function.update s.fetchRecord (s.blockNumber / c.duration)
        (Function.update (s.fetchRecord (s.blockNumber / c.duration)) a
          ((s.fetchRecord (s.blockNumber / c.duration) a).1 + 1,
            (s.fetchRecord (s.blockNumber / c.duration) a).2)) := rfl

end ReportedState

/-- A success report on a queued transaction: validated, its tag consumed, then
`verify_handle` on the reported state. -/
theorem step_successReport (c : Config) (verify : Key → ℕ × A × Tx → Sig → Bool) (w : World A Tx)
    {b : ℕ} {a : A} {k : Key} {tx : Tx} {σ : Sig} (quantity st : ℕ) (acc : A)
    (hv : verify k (b, a, tx) σ = true) (hfresh : Tag.suc b tx 0 a ∉ w.provided)
    (hq : w.state.tokenStatus tx = some (st, acc)) (hs : w.state.sucTxExchange tx = none)
    (hrec : (w.state.fetchRecord (w.state.blockNumber / c.duration) a).1 < maxOf 32)
    (hst : st + 100 ≤ maxOf 64) :
    step c verify w (.unsigned (.recordSucVerify b a k tx 0 quantity σ)) =
      { state := (verifyHandle c (reportedState c w.state a tx st acc) tx quantity).2,
        provided := .suc b tx 0 a :: w.provided } := by
  have hbump : bumpFetchRecord 0 (w.state.fetchRecord (w.state.blockNumber / c.duration) a) =
      some ((w.state.fetchRecord (w.state.blockNumber / c.duration) a).1 + 1,
        (w.state.fetchRecord (w.state.blockNumber / c.duration) a).2) := by
    simp [bumpFetchRecord, checkedAdd, show _ + 1 ≤ maxOf 32 from hrec]
  have hadd : checkedAdd 64 st (statusIncrement 0) = some (st + 100) := by
    simp [checkedAdd, statusIncrement, hst]
  simp only [step, validateUnsigned, hv, if_neg hfresh, dispatch, recordSucVerify, hq,
    hs, Option.isSome_none, Bool.false_eq_true, ↓reduceIte, hbump, hadd, Machine.Outcome.ok_state]
  rfl

section SuccessReport

variable (c : Config) (verify : Key → ℕ × A × Tx → Sig → Bool) (w : World A Tx)
  {b : ℕ} {a : A} {k : Key} {tx : Tx} {σ : Sig} (quantity st : ℕ) (acc : A)

/-- A success report that does not yet decide raises the counter by a hundred, counts the
reporter once more and consumes its tag; the balances stay. -/
theorem step_successReport_continue (hv : verify k (b, a, tx) σ = true)
    (hfresh : Tag.suc b tx 0 a ∉ w.provided) (hq : w.state.tokenStatus tx = some (st, acc))
    (hs : w.state.sucTxExchange tx = none)
    (hrec : (w.state.fetchRecord (w.state.blockNumber / c.duration) a).1 < maxOf 32)
    (hst : st + 100 ≤ maxOf 64) (h1000 : 1000 ≤ st + 100)
    (hcont : verifyStatusOf (st + 100) = .Continue) :
    (step c verify w (.unsigned (.recordSucVerify b a k tx 0 quantity σ))).state =
      reportedState c w.state a tx st acc ∧
    (step c verify w (.unsigned (.recordSucVerify b a k tx 0 quantity σ))).provided =
      .suc b tx 0 a :: w.provided := by
  rw [step_successReport c verify w quantity st acc hv hfresh hq hs hrec hst,
    verifyHandle_continue _ _ _ _ (by simpa using h1000) (by simpa using hcont)]
  exact ⟨rfl, rfl⟩

/-- A success report that makes the counter pass marks the transaction and mints the
quantity this report carries into the account to pay. -/
theorem step_successReport_pass (hv : verify k (b, a, tx) σ = true)
    (hfresh : Tag.suc b tx 0 a ∉ w.provided) (hq : w.state.tokenStatus tx = some (st, acc))
    (hs : w.state.sucTxExchange tx = none)
    (hrec : (w.state.fetchRecord (w.state.blockNumber / c.duration) a).1 < maxOf 32)
    (hst : st + 100 ≤ maxOf 64) (h1000 : 1000 ≤ st + 100)
    (hpass : verifyStatusOf (st + 100) = .Pass) :
    (step c verify w (.unsigned (.recordSucVerify b a k tx 0 quantity σ))).state.sucTxExchange
        tx = some true ∧
      (step c verify w (.unsigned (.recordSucVerify b a k tx 0 quantity σ))).state.balances =
        (createToken c w.state acc quantity).balances := by
  rw [step_successReport c verify w quantity st acc hv hfresh hq hs hrec hst]
  obtain ⟨hsuc, hbal⟩ := verifyHandle_pass c (reportedState c w.state a tx st acc) tx quantity
    (by simpa using h1000) (by simpa using hpass)
  refine ⟨hsuc, ?_⟩
  rw [hbal, tokenStatusGet_reportedState]
  exact createToken_balances_congr c rfl acc quantity

/-- Reports are counted one by one: three success reports on a freshly queued transaction,
all from one reporter under three block numbers, pass it and mint the quantity carried by
the third. Nothing asks whether the reporter is a notary. -/
theorem three_success_reports_pass {q₁ q₂ q₃ b₁ b₂ b₃ : ℕ} {σ₁ σ₂ σ₃ : Sig}
    (hq : w.state.tokenStatus tx = some (1000, acc)) (hs : w.state.sucTxExchange tx = none)
    (hrec : (w.state.fetchRecord (w.state.blockNumber / c.duration) a).1 + 3 ≤ maxOf 32)
    (hv₁ : verify k (b₁, a, tx) σ₁ = true) (hv₂ : verify k (b₂, a, tx) σ₂ = true)
    (hv₃ : verify k (b₃, a, tx) σ₃ = true) (hfresh₁ : Tag.suc b₁ tx 0 a ∉ w.provided)
    (hfresh₂ : Tag.suc b₂ tx 0 a ∉ w.provided) (hfresh₃ : Tag.suc b₃ tx 0 a ∉ w.provided)
    (h₁₂ : b₁ ≠ b₂) (h₁₃ : b₁ ≠ b₃) (h₂₃ : b₂ ≠ b₃) :
    (step c verify (step c verify (step c verify w
        (.unsigned (.recordSucVerify b₁ a k tx 0 q₁ σ₁)))
        (.unsigned (.recordSucVerify b₂ a k tx 0 q₂ σ₂)))
        (.unsigned (.recordSucVerify b₃ a k tx 0 q₃ σ₃))).state.sucTxExchange tx = some true ∧
      (step c verify (step c verify (step c verify w
        (.unsigned (.recordSucVerify b₁ a k tx 0 q₁ σ₁)))
        (.unsigned (.recordSucVerify b₂ a k tx 0 q₂ σ₂)))
        (.unsigned (.recordSucVerify b₃ a k tx 0 q₃ σ₃))).state.balances =
        (createToken c w.state acc q₃).balances := by
  have h64 : 1300 ≤ maxOf 64 := by decide
  -- the first report: 1000 becomes 1100 and goes on
  obtain ⟨hw₁, hprov₁⟩ := step_successReport_continue c verify w q₁ 1000 acc hv₁ hfresh₁
    hq hs (by omega) (by omega) (by omega) (by decide)
  set w₁ := step c verify w (.unsigned (.recordSucVerify b₁ a k tx 0 q₁ σ₁))
  -- the second report, under a new tag: 1100 becomes 1200 and goes on
  have hfresh₂' : Tag.suc b₂ tx 0 a ∉ w₁.provided := by
    rw [hprov₁]
    simp [hfresh₂, Ne.symm h₁₂]
  obtain ⟨hw₂, hprov₂⟩ := step_successReport_continue c verify w₁ q₂ 1100 acc hv₂ hfresh₂' (by simp [hw₁]) (by simp [hw₁, hs]) (by simp [hw₁]; omega)
    (by omega) (by omega) (by decide)
  set w₂ := step c verify w₁ (.unsigned (.recordSucVerify b₂ a k tx 0 q₂ σ₂))
  -- the third report: 1200 becomes 1300 and passes
  have hfresh₃' : Tag.suc b₃ tx 0 a ∉ w₂.provided := by
    rw [hprov₂, hprov₁]
    simp [hfresh₃, Ne.symm h₁₃, Ne.symm h₂₃]
  obtain ⟨hsuc, hbal⟩ := step_successReport_pass c verify w₂ q₃ 1200 acc hv₃ hfresh₃' (by simp [hw₂, hw₁]) (by simp [hw₂, hw₁, hs])
    (by simp [hw₂, hw₁]; omega) (by omega) (by omega) (by decide)
  refine ⟨hsuc, ?_⟩
  rw [hbal]
  exact createToken_balances_congr c (by rw [hw₂, hw₁]; rfl) acc q₃

end SuccessReport

/-! ### `NotaryKeys` is never read

Only `set_notary_keys` and `del_notary_keys` read `NotaryKeys`, and they write nothing else. Every
other call, `validate_unsigned` and the block hooks act the same whatever the list holds. -/

section NotaryKeys

variable (c : Config) (s : State A Tx) (ks ks' : List A)

omit [DecidableEq A] [DecidableEq Tx] in
theorem tokenStatusGet_withNotaryKeys (tx : Tx) :
    tokenStatusGet (s.withNotaryKeys ks) tx = tokenStatusGet s tx := rfl

theorem verifyHandle_withNotaryKeys (tx : Tx) (quantity : ℕ) :
    (verifyHandle c (s.withNotaryKeys ks) tx quantity).2 =
      (verifyHandle c s tx quantity).2.withNotaryKeys ks := by
  unfold verifyHandle
  rw [tokenStatusGet_withNotaryKeys]
  by_cases h1000 : (tokenStatusGet s tx).1 < 1000
  · simp only [if_pos h1000]
    rfl
  · simp only [if_neg h1000]
    cases verifyStatusOf (tokenStatusGet s tx).1 <;> rfl

theorem recordSucVerify_withNotaryKeys (origin : Origin A) (account : A) (tx : Tx)
    (status quantity : ℕ) :
    (recordSucVerify c (s.withNotaryKeys ks) origin account tx status quantity).state =
      (recordSucVerify c s origin account tx status quantity).state.withNotaryKeys ks := by
  cases origin with
  | none =>
    unfold recordSucVerify
    simp only [State.withNotaryKeys_tokenStatus, State.withNotaryKeys_sucTxExchange,
      State.withNotaryKeys_fetchRecord, State.withNotaryKeys_blockNumber]
    cases s.tokenStatus tx with
    | none => rfl
    | some p =>
      obtain ⟨n, acc⟩ := p
      by_cases hs : (s.sucTxExchange tx).isSome = true
      · simp only [hs, if_true]
        rfl
      · simp only [hs, Bool.false_eq_true, if_false]
        cases bumpFetchRecord status (s.fetchRecord (s.blockNumber / c.duration) account) <;>
          cases checkedAdd 64 n (statusIncrement status)
        · rfl
        · rfl
        · rfl
        · -- the accepted report hands the raised counter to `verify_handle`
          dsimp only [Machine.Outcome.ok_state]
          rw [← verifyHandle_withNotaryKeys]
          rfl
  | root => rfl
  | signed who => rfl

theorem recordFailVerify_withNotaryKeys (origin : Origin A) (block : ℕ) (account : A) (tx : Tx)
    (err : Bytes) :
    (recordFailVerify c (s.withNotaryKeys ks) origin block account tx err).state =
      (recordFailVerify c s origin block account tx err).state.withNotaryKeys ks := by
  cases origin with
  | none =>
    unfold recordFailVerify
    rw [tokenStatusGet_withNotaryKeys]
    by_cases hzero : (tokenStatusGet s tx).1 = 0
    · simp only [hzero, if_true]
      rfl
    · simp only [hzero, if_false]
      cases checkedAdd 64 (tokenStatusGet s tx).1 1
      · rfl
      · -- `verify_handle` runs on the raised counter, then the failure is filed
        simp only [Machine.Outcome.ok_state]
        rw [State.withNotaryKeys_update_tokenStatus, verifyHandle_withNotaryKeys]
        rfl
  | root => rfl
  | signed who => rfl

omit [DecidableEq A] in
theorem exchange_withNotaryKeys (origin : Origin A) (tx : Tx) :
    (exchange c (s.withNotaryKeys ks) origin tx).state = (exchange c s origin tx).state.withNotaryKeys ks := by
  unfold exchange
  rw [tokenStatusGet_withNotaryKeys, State.withNotaryKeys_rootDeadlineTime,
    State.withNotaryKeys_blockNumber, State.withNotaryKeys_sucTxExchange,
    State.withNotaryKeys_tokenStatusLen]
  split_ifs <;> cases origin <;> rfl

/-- Whatever `NotaryKeys` holds before a call, the call leaves the rest of the storage the same:
the two calls that read the list write nothing but it. -/
theorem dispatch_withNotaryKeys {Key Sig : Type} (origin : Origin A) (call : Call A Tx Key Sig) :
    (dispatch c (s.withNotaryKeys ks) origin call).state.withNotaryKeys ks' =
      (dispatch c s origin call).state.withNotaryKeys ks' := by
  cases call with
  | setExchangeDealine d => cases origin <;> rfl
  | setNotaryKeys node =>
    cases origin
    case root => simp only [dispatch, setNotaryKeys]; split_ifs <;> rfl
    all_goals rfl
  | delNotaryKeys node =>
    cases origin
    case root => simp only [dispatch, delNotaryKeys]; split_ifs <;> rfl
    all_goals rfl
  | exchange tx =>
    simp only [dispatch, exchange_withNotaryKeys, State.withNotaryKeys_withNotaryKeys]
  | recordSucVerify b account k tx status quantity σ =>
    simp only [dispatch, recordSucVerify_withNotaryKeys, State.withNotaryKeys_withNotaryKeys]
  | recordFailVerify block account k tx err σ =>
    simp only [dispatch, recordFailVerify_withNotaryKeys, State.withNotaryKeys_withNotaryKeys]

/-- One event acts the same on two worlds that differ only in `NotaryKeys`. -/
theorem step_withNotaryKeys (verify : Key → ℕ × A × Tx → Sig → Bool) (w : World A Tx)
    (e : Event A Tx Key Sig) :
    (step c verify (w.withNotaryKeys ks) e).withNotaryKeys ks' = (step c verify w e).withNotaryKeys ks' := by
  cases e with
  | signed who call => simp only [step, World.withNotaryKeys, dispatch_withNotaryKeys]
  | root call => simp only [step, World.withNotaryKeys, dispatch_withNotaryKeys]
  | unsigned call =>
    simp only [step]
    -- the pool's check reads the call and the tags seen, never the storage
    cases validateUnsigned verify call with
    | error err => rfl
    | ok tag =>
      dsimp only
      rw [World.withNotaryKeys_provided]
      by_cases hprovided : tag ∈ w.provided
      · simp only [if_pos hprovided]
        rfl
      · simp only [if_neg hprovided, World.withNotaryKeys, dispatch_withNotaryKeys]
  | nextBlock =>
    simp only [step, onInitialize, World.withNotaryKeys, State.withNotaryKeys]
    by_cases hclean : (w.state.blockNumber + 1) % c.duration = 0
    · simp only [hclean, if_true]
    · simp only [hclean, if_false]

end NotaryKeys

/-- Two runs from genesis that differ only in the genesis `NotaryKeys` reach worlds that differ
only in `NotaryKeys`. -/
theorem run_withNotaryKeys (c : Config) (verify : Key → ℕ × A × Tx → Sig → Bool)
    (balances : Balances.State A) (ks₁ ks₂ : List A) (es : List (Event A Tx Key Sig)) :
    ((machine c verify ks₁ balances).run es).withNotaryKeys [] =
      ((machine c verify ks₂ balances).run es).withNotaryKeys [] := by
  induction es using List.reverseRecOn with
  | nil => rfl
  | append_singleton es e ih =>
    simp only [Machine.run_append_singleton]
    -- each step depends on its world up to `NotaryKeys` only
    calc (step c verify ((machine c verify ks₁ balances).run es) e).withNotaryKeys []
        = (step c verify (((machine c verify ks₁ balances).run es).withNotaryKeys []) e).withNotaryKeys [] :=
          (step_withNotaryKeys c [] [] verify _ e).symm
      _ = (step c verify (((machine c verify ks₂ balances).run es).withNotaryKeys []) e).withNotaryKeys [] := by
          rw [ih]
      _ = (step c verify ((machine c verify ks₂ balances).run es) e).withNotaryKeys [] :=
          step_withNotaryKeys c [] [] verify _ e

/-! ### The reporting guard over whole runs -/

/-- The guard on reports, as the code has it: a report changes a counter when its signature
verifies under the key it carries, `NotaryKeys` is never consulted, and one reporter's reports
under three block numbers count three times and pass a freshly queued transaction. -/
theorem notaryKeys_never_consulted (c : Config) (verify : Key → ℕ × A × Tx → Sig → Bool)
    (balances : Balances.State A) :
    (∀ (w : World A Tx) (e : Event A Tx Key Sig) (tx : Tx),
      (step c verify w e).state.tokenStatus tx ≠ w.state.tokenStatus tx →
        (∃ who, e = .signed who (.exchange tx)) ∨
          ∃ call, e = .unsigned call ∧ call.tx? = some tx ∧ SignedByOwnKey verify call) ∧
    (∀ (ks₁ ks₂ : List A) (es : List (Event A Tx Key Sig)),
      ((machine c verify ks₁ balances).run es).withNotaryKeys [] =
        ((machine c verify ks₂ balances).run es).withNotaryKeys []) ∧
    (∀ (w : World A Tx) (tx : Tx) (acc a : A) (k : Key) (b₁ b₂ b₃ q₁ q₂ q₃ : ℕ)
        (σ₁ σ₂ σ₃ : Sig),
      w.state.tokenStatus tx = some (1000, acc) → w.state.sucTxExchange tx = none →
      (w.state.fetchRecord (w.state.blockNumber / c.duration) a).1 + 3 ≤ maxOf 32 →
      verify k (b₁, a, tx) σ₁ = true → verify k (b₂, a, tx) σ₂ = true →
      verify k (b₃, a, tx) σ₃ = true → Tag.suc b₁ tx 0 a ∉ w.provided →
      Tag.suc b₂ tx 0 a ∉ w.provided → Tag.suc b₃ tx 0 a ∉ w.provided →
      b₁ ≠ b₂ → b₁ ≠ b₃ → b₂ ≠ b₃ →
      let w₃ := step c verify (step c verify (step c verify w
        (.unsigned (.recordSucVerify b₁ a k tx 0 q₁ σ₁)))
        (.unsigned (.recordSucVerify b₂ a k tx 0 q₂ σ₂)))
        (.unsigned (.recordSucVerify b₃ a k tx 0 q₃ σ₃))
      w₃.state.sucTxExchange tx = some true ∧
        w₃.state.balances = (createToken c w.state acc q₃).balances) := by
  refine ⟨fun w e tx h => step_tokenStatus_change c verify w e tx h,
    fun ks₁ ks₂ es => run_withNotaryKeys c verify balances ks₁ ks₂ es, ?_⟩
  intro w tx acc a k b₁ b₂ b₃ q₁ q₂ q₃ σ₁ σ₂ σ₃ hq hs hrec hv₁ hv₂ hv₃ hf₁ hf₂ hf₃ h₁₂ h₁₃ h₂₃
  exact three_success_reports_pass c verify w acc hq hs hrec hv₁ hv₂ hv₃ hf₁ hf₂ hf₃ h₁₂ h₁₃ h₂₃

/-- Signatures that name their signer and message, so that exactly a key's own
signatures verify under it. -/
def ownKeyVerify (k : ℕ) (m : ℕ × ℕ × ℕ) (σ : ℕ × ℕ × ℕ × ℕ) : Bool := σ = (k, m)

/-- No account exists yet. -/
def emptyBalances : Balances.State ℕ := ⟨fun _ => none, fun _ => [], 0⟩

/-- Account 1 queues transaction 42 at block one. -/
def queuedWorld : World ℕ ℕ :=
  step runtimeConfig ownKeyVerify ⟨genesis runtimeConfig [7] emptyBalances, []⟩
    (.signed 1 (.exchange 42) : Event ℕ ℕ ℕ (ℕ × ℕ × ℕ × ℕ))

/-- Account 9, which is not in `NotaryKeys`, signs three success reports on transaction 42 with
its own key: the third passes the transaction and mints into account 1, which queued it. -/
theorem notaryKeys_never_consulted_outsider :
    9 ∉ queuedWorld.state.notaryKeys ∧
      let w₃ := step runtimeConfig ownKeyVerify (step runtimeConfig ownKeyVerify
        (step runtimeConfig ownKeyVerify queuedWorld
          (.unsigned (.recordSucVerify 1 9 9 42 0 10 (9, 1, 9, 42))))
          (.unsigned (.recordSucVerify 2 9 9 42 0 10 (9, 2, 9, 42))))
          (.unsigned (.recordSucVerify 3 9 9 42 0 10 (9, 3, 9, 42)))
      w₃.state.sucTxExchange 42 = some true ∧
        w₃.state.balances = (createToken runtimeConfig queuedWorld.state 1 10).balances :=
  ⟨by decide, (notaryKeys_never_consulted runtimeConfig ownKeyVerify emptyBalances).2.2
    queuedWorld 42 1 9 9 1 2 3 10 10 10 (9, 1, 9, 42) (9, 2, 9, 42) (9, 3, 9, 42) (by decide)
    (by decide) (by decide) (by decide) (by decide) (by decide) (by decide) (by decide)
    (by decide) (by decide) (by decide) (by decide)⟩

/-! ### What a passing report mints -/

/-- Whenever a `record_suc_verify` report makes `verify_handle` pass `tx`, the balances
change exactly as `create_token` of the quantity carried by that report, into the account
queued with `tx`. -/
theorem recordSucVerify_pass_balances (c : Config) (s : State A Tx) (account : A) (tx : Tx)
    (status quantity : ℕ) {st : ℕ} {acc : A} (hq : s.tokenStatus tx = some (st, acc))
    (hpass : (recordSucVerify c s .none account tx status quantity).state.sucTxExchange tx ≠
      s.sucTxExchange tx) :
    (recordSucVerify c s .none account tx status quantity).state.balances =
      (createToken c s acc quantity).balances := by
  unfold recordSucVerify at hpass ⊢
  simp only [hq] at hpass ⊢
  by_cases hsuc : (s.sucTxExchange tx).isSome
  · simp only [hsuc, ↓reduceIte, Machine.Outcome.error_state] at hpass
    exact absurd rfl hpass
  simp only [hsuc, Bool.false_eq_true, ↓reduceIte] at hpass ⊢
  -- the two arithmetic steps before `verify_handle` either panic or go through
  cases hb : bumpFetchRecord status (s.fetchRecord (s.blockNumber / c.duration) account) with
  | none => simp only [hb, Machine.Outcome.error_state] at hpass; exact absurd rfl hpass
  | some record =>
    cases ha : checkedAdd 64 st (statusIncrement status) with
    | none => simp only [hb, ha, Machine.Outcome.error_state] at hpass; exact absurd rfl hpass
    | some st' =>
      simp only [hb, ha, Machine.Outcome.ok_state] at hpass ⊢
      set s' := { s with
        fetchRecord := Function.update s.fetchRecord (s.blockNumber / c.duration)
          (Function.update (s.fetchRecord (s.blockNumber / c.duration)) account record),
        tokenStatus := Function.update s.tokenStatus tx (some (st', acc)) }
      obtain ⟨h1000, hpassed⟩ := verifyHandle_sucTxExchange c s' tx quantity hpass
      obtain ⟨-, hbal⟩ := verifyHandle_pass c s' tx quantity h1000 hpassed
      have hacc : (tokenStatusGet s' tx).2 = acc := by simp [s', tokenStatusGet]
      rw [hbal, hacc]
      exact createToken_balances_congr c rfl acc quantity

theorem recordSucVerify_pass_balances_queued :
    (recordSucVerify runtimeConfig (reportedState runtimeConfig
        (reportedState runtimeConfig queuedWorld.state 7 42 1000 1) 7 42 1100 1)
        .none 7 42 0 10).state.balances =
      (createToken runtimeConfig (reportedState runtimeConfig
        (reportedState runtimeConfig queuedWorld.state 7 42 1000 1) 7 42 1100 1) 1 10).balances :=
  recordSucVerify_pass_balances runtimeConfig _ 7 42 0 10
    (show (reportedState runtimeConfig (reportedState runtimeConfig queuedWorld.state 7 42 1000 1)
      7 42 1100 1).tokenStatus 42 = some (1200, 1) by decide) (by decide)

/-- Three success reports for transaction 42 carrying 10, 10 and 999: the third one,
which crosses the threshold, alone decides what account 1 receives. -/
theorem last_report_decides_amount :
    ((machine runtimeConfig ownKeyVerify [7] emptyBalances).run
      [.signed 1 (.exchange 42), .unsigned (.recordSucVerify 1 7 7 42 0 10 (7, 1, 7, 42)),
        .unsigned (.recordSucVerify 2 7 7 42 0 10 (7, 2, 7, 42)),
        .unsigned (.recordSucVerify 3 7 7 42 0 999 (7, 3, 7, 42))]).state.balances.account 1 =
      some ⟨999 * DOLLARS / 10, 0, 0, 0⟩ := by
  decide

end IpseCore.Exchange
