import IpseCore.Runtime.Primitives
import IpseCore.Balances

/-!
# The Exchange pallet

`exchange.rs` bridges tokens burnt on EOS. A user queues an EOS transaction with
`exchange`; notary nodes look it up off chain and report the outcome through the
unsigned calls `record_suc_verify` and `record_fail_verify`. Each report adds to a
decimal counter kept in `TokenStatus[tx]`, starting from 1000: a hundred for a
success (status 0), one for a query result (status 1) or a failed fetch, ten for any
other status. After each report `verify_handle` reads the digits back and either
continues, fails the transaction, or passes it and mints the exchanged amount with
`create_token`.

Unsigned calls reach the chain only through `validate_unsigned`, which checks the
signature against the key carried in the call and names the transaction's
`provides` tag. The HTTP lookups of the offchain worker are not part of the chain's
state and are not modelled; its reports enter as unsigned calls with any content.
-/

namespace IpseCore.Exchange

open Unsigned

/-- `AddressStatus`; the default is `InActive`. -/
inductive AddressStatus where
  | Active
  | InActive
  deriving DecidableEq, Repr

instance : Inhabited AddressStatus := ⟨.InActive⟩

/-- `VerifyStatus`, the decision of `verify_handle`. -/
inductive VerifyStatus where
  | Continue
  | Failed
  | Pass
  deriving DecidableEq, Repr

/-- Bytes of an error message. -/
abbrev Bytes := List UInt8

/-- `FetchFailed`, a failed lookup recorded by `record_fail_verify`. -/
structure FetchFailed (Tx : Type) where
  /-- The block the reporter named. -/
  blockNum : ℕ
  /-- The EOS transaction. -/
  tx : Tx
  /-- The error text. -/
  err : Bytes
  deriving DecidableEq

/-- The errors the modelled calls return. `Panic` stands for a panicking call, which
aborts the extrinsic and keeps none of its writes. -/
inductive Error where
  | TxInUsing
  | OverMaximum
  | Empty
  | Exist
  | Exchanged
  | DeadExchange
  | BadOrigin
  | Other (msg : String)
  | Panic
  deriving DecidableEq, Repr

/-- The runtime parameters of the pallet. -/
structure Config where
  /-- `TxsMaxCount`. -/
  txsMaxCount : ℕ
  /-- `Deadline`, the genesis value of `RootDeadlineTime`. -/
  deadline : ℕ
  /-- `Duration`: the period of `FetchRecord` and of the `FetchFailed` clean-up. -/
  duration : ℕ
  /-- The existential deposit of Balances. -/
  existentialDeposit : ℕ

/-- `impl exchange::Trait for Runtime`. -/
def runtimeConfig : Config where
  txsMaxCount := 1000
  deadline := 2 ^ 32 - 1
  duration := 300
  existentialDeposit := DOLLARS

/-- The storage of the pallet, with the balances it mints into and the block number. -/
structure State (A Tx : Type) where
  /-- `RootDeadlineTime`. -/
  rootDeadlineTime : ℕ
  /-- `TokenStatus`: the counter and the account to pay, `none` when absent. -/
  tokenStatus : Tx → Option (ℕ × A)
  /-- `TokenStatusLen`. -/
  tokenStatusLen : ℕ
  /-- `NotaryKeys`. -/
  notaryKeys : List A
  /-- `SucTxExchange`. -/
  sucTxExchange : Tx → Option Bool
  /-- `EosExchangeInfo`. -/
  eosExchangeInfo : A → Tx → AddressStatus × ℕ
  /-- `FetchRecord`: per period and reporter, the counts of successes, failures and queries. -/
  fetchRecord : ℕ → A → ℕ × ℕ × ℕ
  /-- `FetchFailed`. -/
  fetchFailed : A → List (FetchFailed Tx)
  /-- The Balances pallet. -/
  balances : Balances.State A
  /-- The current block number. -/
  blockNumber : ℕ

variable {A Tx : Type} [DecidableEq A] [DecidableEq Tx] [Inhabited A]

/-- `TokenStatus::get`: an absent transaction reads as `(0, default)`. -/
def tokenStatusGet (s : State A Tx) (tx : Tx) : ℕ × A := (s.tokenStatus tx).getD (0, default)

/-- The decision of `verify_handle` on a counter: six failures fail, three successes pass,
and eight query results pass with two successes and fail otherwise. -/
def verifyStatusOf (status : ℕ) : VerifyStatus :=
  let unitsDigit := status % 10
  let tensDigit := status / 10 % 10
  let hundredsDigit := status / 100 % 10
  if 6 ≤ tensDigit then .Failed
  else if 3 ≤ hundredsDigit then .Pass
  else if 8 ≤ unitsDigit then (if 2 ≤ hundredsDigit then .Pass else .Failed)
  else .Continue

/-- `create_token`: mint `quantity` tenths of a dollar into `who`; the imbalance is dropped. -/
def createToken (c : Config) (s : State A Tx) (who : A) (quantity : ℕ) : State A Tx :=
  let decimal := quantity * DOLLARS / 10
  let minted := Balances.depositCreating c.existentialDeposit s.balances who decimal
  { s with balances := Balances.dropPositive minted.2 minted.1 }

section CreateToken

omit [DecidableEq Tx] [Inhabited A]

variable (c : Config) (s : State A Tx) (who : A) (quantity : ℕ)

@[simp] theorem createToken_tokenStatus : (createToken c s who quantity).tokenStatus = s.tokenStatus := by
  unfold createToken; rfl

@[simp] theorem createToken_tokenStatusLen :
    (createToken c s who quantity).tokenStatusLen = s.tokenStatusLen := by
  unfold createToken; rfl

@[simp] theorem createToken_sucTxExchange :
    (createToken c s who quantity).sucTxExchange = s.sucTxExchange := by
  unfold createToken; rfl

@[simp] theorem createToken_eosExchangeInfo :
    (createToken c s who quantity).eosExchangeInfo = s.eosExchangeInfo := by
  unfold createToken; rfl

@[simp] theorem createToken_blockNumber :
    (createToken c s who quantity).blockNumber = s.blockNumber := by
  unfold createToken; rfl

@[simp] theorem createToken_fetchRecord :
    (createToken c s who quantity).fetchRecord = s.fetchRecord := by
  unfold createToken; rfl

@[simp] theorem createToken_fetchFailed :
    (createToken c s who quantity).fetchFailed = s.fetchFailed := by
  unfold createToken; rfl

@[simp] theorem createToken_notaryKeys :
    (createToken c s who quantity).notaryKeys = s.notaryKeys := by
  unfold createToken; rfl

end CreateToken

/-- Remove `tx` from the queue, lowering `TokenStatusLen` when it is positive. -/
def removeTx (s : State A Tx) (tx : Tx) : State A Tx :=
  { s with tokenStatus := Function.update s.tokenStatus tx none,
           tokenStatusLen := if 0 < s.tokenStatusLen then s.tokenStatusLen - 1
             else s.tokenStatusLen }

section RemoveTx

omit [DecidableEq A] [Inhabited A]

@[simp] theorem removeTx_sucTxExchange (s : State A Tx) (tx : Tx) :
    (removeTx s tx).sucTxExchange = s.sucTxExchange := rfl

@[simp] theorem removeTx_balances (s : State A Tx) (tx : Tx) :
    (removeTx s tx).balances = s.balances := rfl

@[simp] theorem removeTx_tokenStatus (s : State A Tx) (tx : Tx) :
    (removeTx s tx).tokenStatus = Function.update s.tokenStatus tx none := rfl

end RemoveTx

/-- `verify_handle`: decide on the counter of `tx` and act on the decision. -/
def verifyHandle (c : Config) (s : State A Tx) (tx : Tx) (quantity : ℕ) :
    Except String VerifyStatus × State A Tx :=
  let status := (tokenStatusGet s tx).1
  let acceptAccount := (tokenStatusGet s tx).2
  if status < 1000 then (.error "status < 1000", removeTx s tx)
  else
    match verifyStatusOf status with
    | .Failed =>
      let s := removeTx s tx
      let info := Function.update (s.eosExchangeInfo acceptAccount) tx (.InActive, quantity)
      (.ok .Failed,
        { s with eosExchangeInfo := Function.update s.eosExchangeInfo acceptAccount info })
    | .Pass =>
      let s := removeTx (createToken c s acceptAccount quantity) tx
      let info := Function.update (s.eosExchangeInfo acceptAccount) tx (.Active, quantity)
      (.ok .Pass,
        { s with eosExchangeInfo := Function.update s.eosExchangeInfo acceptAccount info,
                 sucTxExchange := Function.update s.sucTxExchange tx (some true) })
    | .Continue => (.ok .Continue, s)

/-- What a `record_suc_verify` report adds to the counter, by reported status. -/
def statusIncrement (status : ℕ) : ℕ := if status = 0 then 100 else if status = 1 then 1 else 10

/-- The `FetchRecord` count a report of the given status bumps, with `checked_add(1)`. -/
def bumpFetchRecord (status : ℕ) (r : ℕ × ℕ × ℕ) : Option (ℕ × ℕ × ℕ) :=
  if status = 0 then (checkedAdd 32 r.1 1).map fun v => (v, r.2.1, r.2.2)
  else if status = 1 then (checkedAdd 32 r.2.2 1).map fun v => (r.1, r.2.1, v)
  else (checkedAdd 32 r.2.1 1).map fun v => (r.1, v, r.2.2)

/-- `record_suc_verify`. The `block_num` of the call is shadowed by the current block, and
both `checked_add(..).unwrap()` panic on overflow. -/
def recordSucVerify (c : Config) (s : State A Tx) (origin : Origin A) (account : A) (tx : Tx)
    (status quantity : ℕ) : Machine.Outcome Error (State A Tx) :=
  match origin with
  | .none =>
    let duration := s.blockNumber / c.duration
    match s.tokenStatus tx with
    | none => .error (.Other "tx removed from TokenStatus") s
    | some (tokenStatus, acceptAccount) =>
      if (s.sucTxExchange tx).isSome then .error .Exchanged s
      else
        match bumpFetchRecord status (s.fetchRecord duration account),
          checkedAdd 64 tokenStatus (statusIncrement status) with
        | some record, some tokenStatus' =>
          let s' := { s with
            fetchRecord := Function.update s.fetchRecord duration
              (Function.update (s.fetchRecord duration) account record),
            tokenStatus := Function.update s.tokenStatus tx (some (tokenStatus', acceptAccount)) }
          .ok (verifyHandle c s' tx quantity).2
        | _, _ => .error .Panic s
  | _ => .error .BadOrigin s

/-- Record a failed lookup for `account`: a list longer than fifty first loses its newest entry. -/
def pushFetchFailed (l : List (FetchFailed Tx)) (f : FetchFailed Tx) : List (FetchFailed Tx) :=
  (if 50 < l.length then l.dropLast else l) ++ [f]

/-- `record_fail_verify`: count the failure as a unit, then let `verify_handle` decide with
quantity zero. -/
def recordFailVerify (c : Config) (s : State A Tx) (origin : Origin A) (block : ℕ) (account : A)
    (tx : Tx) (err : Bytes) : Machine.Outcome Error (State A Tx) :=
  match origin with
  | .none =>
    let tokenStatus := (tokenStatusGet s tx).1
    let acceptAccount := (tokenStatusGet s tx).2
    if tokenStatus = 0 then .error (.Other "") s
    else
      match checkedAdd 64 tokenStatus 1 with
      | none => .error .Panic s
      | some tokenStatus' =>
        let s₁ := { s with
          tokenStatus := Function.update s.tokenStatus tx (some (tokenStatus', acceptAccount)) }
        let s₂ := (verifyHandle c s₁ tx 0).2
        let failed := pushFetchFailed (s₂.fetchFailed account) ⟨block, tx, err⟩
        .ok { s₂ with fetchFailed := Function.update s₂.fetchFailed account failed }
  | _ => .error .BadOrigin s

/-- `exchange`: queue `tx` with counter 1000 and the caller as the account to pay. The
deadline is checked before the origin. -/
def exchange (c : Config) (s : State A Tx) (origin : Origin A) (tx : Tx) :
    Machine.Outcome Error (State A Tx) :=
  if s.rootDeadlineTime < s.blockNumber then .error .DeadExchange s
  else
    match origin with
    | .signed who =>
      if (s.sucTxExchange tx).isSome then .error .Exchanged s
      else if (tokenStatusGet s tx).1 ≠ 0 then .error .TxInUsing s
      else if c.txsMaxCount < s.tokenStatusLen then .error .OverMaximum s
      else .ok { s with tokenStatus := Function.update s.tokenStatus tx (some (1000, who)),
                        tokenStatusLen := wrappingAdd 32 s.tokenStatusLen 1 }
    | _ => .error .BadOrigin s

/-- `SetExchangeDealine`. -/
def setExchangeDealine (s : State A Tx) (origin : Origin A) (deadlineTime : ℕ) :
    Machine.Outcome Error (State A Tx) :=
  match origin with
  | .root => .ok { s with rootDeadlineTime := deadlineTime }
  | _ => .error .BadOrigin s

/-- `set_notary_keys`. -/
def setNotaryKeys (s : State A Tx) (origin : Origin A) (node : A) :
    Machine.Outcome Error (State A Tx) :=
  match origin with
  | .root =>
    if 50 ≤ s.notaryKeys.length then .error .OverMaximum s
    else if node ∈ s.notaryKeys then .error .Exist s
    else .ok { s with notaryKeys := s.notaryKeys ++ [node] }
  | _ => .error .BadOrigin s

/-- `del_notary_keys`. -/
def delNotaryKeys (s : State A Tx) (origin : Origin A) (node : A) :
    Machine.Outcome Error (State A Tx) :=
  match origin with
  | .root =>
    if s.notaryKeys = [] then .error .Empty s
    else .ok { s with notaryKeys := s.notaryKeys.filter (· ≠ node) }
  | _ => .error .BadOrigin s

/-- `on_initialize`: every `Duration` blocks all failed lookups are forgotten. -/
def onInitialize (c : Config) (s : State A Tx) (block : ℕ) : State A Tx :=
  if block % c.duration = 0 then { s with fetchFailed := fun _ => [] } else s

/-- The calls of the pallet. The signature carried by the unsigned calls is read only by
`validate_unsigned`. -/
inductive Call (A Tx Key Sig : Type) where
  | setExchangeDealine (deadlineTime : ℕ)
  | setNotaryKeys (node : A)
  | delNotaryKeys (node : A)
  | exchange (tx : Tx)
  | recordSucVerify (blockNum : ℕ) (account : A) (key : Key) (tx : Tx) (status quantity : ℕ)
      (signature : Sig)
  | recordFailVerify (block : ℕ) (account : A) (key : Key) (tx : Tx) (err : Bytes)
      (signature : Sig)

/-- Dispatch a call from an origin. -/
def dispatch {Key Sig : Type} (c : Config) (s : State A Tx) (origin : Origin A) :
    Call A Tx Key Sig → Machine.Outcome Error (State A Tx)
  | .setExchangeDealine d => setExchangeDealine s origin d
  | .setNotaryKeys node => setNotaryKeys s origin node
  | .delNotaryKeys node => delNotaryKeys s origin node
  | .exchange tx => exchange c s origin tx
  | .recordSucVerify _ account _ tx status quantity _ =>
    recordSucVerify c s origin account tx status quantity
  | .recordFailVerify block account _ tx err _ => recordFailVerify c s origin block account tx err

/-- The `provides` tag of an unsigned report. -/
inductive Tag (A Tx : Type) where
  | suc (blockNum : ℕ) (tx : Tx) (status : ℕ) (account : A)
  | fail (block : ℕ) (tx : Tx) (err : Bytes) (account : A)
  deriving DecidableEq

/-- `InvalidTransaction` reasons of `validate_unsigned`. -/
inductive InvalidTransaction where
  | BadProof
  | Call
  deriving DecidableEq, Repr

/-- `validate_unsigned`: a report is valid when its signature verifies, under the key the
call carries, over `(block_num, account, tx)`; any other call is invalid. -/
def validateUnsigned {Key Sig : Type} (verify : Key → ℕ × A × Tx → Sig → Bool) :
    Call A Tx Key Sig → Except InvalidTransaction (Tag A Tx)
  | .recordSucVerify blockNum account key tx status _ signature =>
    if verify key (blockNum, account, tx) signature then .ok (.suc blockNum tx status account)
    else .error .BadProof
  | .recordFailVerify block account key tx err signature =>
    if verify key (block, account, tx) signature then .ok (.fail block tx err account)
    else .error .BadProof
  | _ => .error .Call

end IpseCore.Exchange
