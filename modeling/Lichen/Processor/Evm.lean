/-
  EVM transactions (`core/src/evm.rs`, `process_evm_transaction` in `processor/execution.rs` and
  `apply_evm_changes` in `state/batch_state.rs`).

  A native transaction may carry a raw Ethereum transaction.  Its sender must have a native account
  registered; `revm` runs it over the committed state and returns the accounts it touched with their
  new balances, nonces and code.  The native payer is charged the gas, and then every touched account
  is written into the batch: addresses with a native account get its spendable balance set, the
  others keep their own EVM account.

  RLP decoding, signer recovery and `revm` are third-party code and enter as `EvmEngine`.
-/
import Lichen.Processor.Transactions

open Base
namespace Lichen.Processor

/-! ## Raw transactions -/

/-- What the envelopes have in common. -/
structure EvmCall where
  target : Option EvmAddress
  nonce : Nat
  gasLimit : Nat
  value : Nat
  input : Bytes
  chainId : Option Nat
  deriving DecidableEq, Repr

/-- `TxEnvelope`, by what it says about the price of gas. -/
inductive TxEnvelope where
  | legacy (call : EvmCall) (gasPrice : Nat)
  | eip2930 (call : EvmCall) (gasPrice : Nat)
  | eip1559 (call : EvmCall) (maxFeePerGas maxPriorityFeePerGas : Nat)
  | eip4844 (call : EvmCall) (maxFeePerGas : Nat) (maxPriorityFeePerGas : Option Nat)
  | eip7702 (call : EvmCall) (maxFeePerGas : Nat) (maxPriorityFeePerGas : Option Nat)
  | unsupported
  deriving DecidableEq, Repr

structure EvmTx where
  raw : Bytes
  hash : Hash
  source : EvmAddress
  target : Option EvmAddress
  nonce : Nat
  gasLimit : Nat
  gasPrice : Nat
  maxFeePerGas : Option Nat
  maxPriorityFeePerGas : Option Nat
  value : Nat
  data : Bytes
  chainId : Option Nat
  deriving DecidableEq, Repr

/-! ## The virtual machine -/

structure AccountInfo where
  balance : Nat
  nonce : Nat
  code : Bytes
  deriving DecidableEq, Repr

/-- What `revm` may ask of the database. -/
structure EvmDb where
  basic : EvmAddress → Option AccountInfo
  storage : EvmAddress → Nat → Nat
  blockHash : Nat → Hash

/-- `BlockEnv` and `CfgEnv`, as far as the code sets them. -/
structure EvmContext where
  chainId : Nat
  number : Nat
  timestamp : Nat
  basefee : Nat
  deriving DecidableEq, Repr

/-- An account of the state that `revm` returns. -/
structure RevmAccount where
  info : AccountInfo
  storage : List (Nat × Nat)
  deriving DecidableEq, Repr

/-- No balance, no nonce, no code. -/
def RevmAccount.isEmpty (a : RevmAccount) : Bool :=
  decide (a.info.balance = 0 ∧ a.info.nonce = 0 ∧ a.info.code = [])

inductive ExecutionResult where
  | success (gasUsed : Nat) (created : Option EvmAddress)
  | revert (gasUsed : Nat)
  | halt (gasUsed : Nat)
  deriving DecidableEq, Repr

/-- `ResultAndState`: the state is a hash map, iterated in the order it happens to have. -/
structure RevmOutcome where
  result : ExecutionResult
  state : HashMap EvmAddress RevmAccount

/-- The third-party code.  `decode` reads an envelope off the front of the bytes; the signer and the
    hash are those of the envelope read. -/
structure EvmEngine where
  decode : Bytes → Except String TxEnvelope
  recoverSigner : Bytes → Option EvmAddress
  txHash : Bytes → Hash
  transact : EvmDb → EvmContext → EvmTx → Except String RevmOutcome

/-- The fields of a decoded transaction; a fee cap stands in for the gas price. -/
def EvmCall.toTx (call : EvmCall) (raw : Bytes) (hash : Hash) (source : EvmAddress)
    (gasPrice : Nat) (maxFeePerGas maxPriorityFeePerGas : Option Nat) : EvmTx where
  raw
  hash
  source
  target := call.target
  nonce := call.nonce
  gasLimit := call.gasLimit
  gasPrice
  maxFeePerGas
  maxPriorityFeePerGas
  value := call.value
  data := call.input
  chainId := call.chainId

def decodeEvmTransaction (engine : EvmEngine) (raw : Bytes) : Except String EvmTx := do
  let envelope ← mapErr (fun e => s!"Invalid EVM tx RLP: {e}") (engine.decode raw)
  failIf (envelope = .unsupported) "Unsupported EVM tx envelope"
  let source ← okOr (engine.recoverSigner raw) "Failed to recover signer"
  let hash := engine.txHash raw
  match envelope with
  | .legacy call gasPrice => .ok (call.toTx raw hash source gasPrice none none)
  | .eip2930 call gasPrice => .ok (call.toTx raw hash source gasPrice none none)
  | .eip1559 call maxFee priority =>
    .ok (call.toTx raw hash source maxFee (some maxFee) (some priority))
  | .eip4844 call maxFee priority => .ok (call.toTx raw hash source maxFee (some maxFee) priority)
  | .eip7702 call maxFee priority => .ok (call.toTx raw hash source maxFee (some maxFee) priority)
  | .unsupported => .error "Unsupported EVM tx envelope"

/-! ## Wei and spores -/

def WEI_PER_SPORE : Nat := 1000000000

def u256IsMultipleOfSpore (value : Nat) : Bool := decide (value % WEI_PER_SPORE = 0)

/-- `u256_to_spores`: saturates. -/
def u256ToSpores (value : Nat) : Nat := min (value / WEI_PER_SPORE) U64.MAX

def sporesToU256 (spores : Nat) : Nat := spores * WEI_PER_SPORE

/-! ## Reading the committed state -/

section
namespace ChainState

variable (s : ChainState N)

def lookupEvmAddress (address : EvmAddress) : Option Pubkey :=
  s.evmAddresses.get address

/-- `StateEvmDb::get_native_balance`. -/
def getNativeBalance (address : EvmAddress) : Option Nat :=
  (s.lookupEvmAddress address).map fun pubkey => sporesToU256 (s.core.ledger.spendableOf pubkey)

/-- `StateEvmDb::load_account`: a registered address has the spendable balance of its native
    account, whatever its EVM account says. -/
def loadAccount (address : EvmAddress) : Option AccountInfo :=
  match s.getNativeBalance address with
  | some balance =>
    match s.evmAccounts.get address with
    | some account => some ⟨balance, account.nonce, account.code⟩
    | none => some ⟨balance, 0, []⟩
  | none => (s.evmAccounts.get address).map fun account =>
      ⟨account.balance, account.nonce, account.code⟩

def evmDb : EvmDb where
  basic := s.loadAccount
  storage address index := (s.evmStorage.get (address, index)).getD 0
  blockHash number := ((s.blocks.get number).map BlockRef.hash).getD Hash.zero

def evmContext (chainId : Nat) : EvmContext where
  chainId
  number := s.lastSlot
  timestamp := ((s.blocks.get s.lastSlot).map BlockRef.timestamp).getD 0
  basefee := 1

end ChainState

/-! ## Deferred changes -/

structure EvmStateChange where
  evmAddress : EvmAddress
  account : Option EvmAccount
  storageChanges : List (Nat × Option Nat)
  nativeBalanceUpdate : Option (Pubkey × Nat)
  deriving DecidableEq, Repr

/-- The body of the loop of `convert_revm_state_to_deferred`. -/
def deferChange (store : ChainState N) (entry : EvmAddress × RevmAccount) :
    Except String EvmStateChange :=
  let (address, account) := entry
  if account.isEmpty then .ok ⟨address, none, [], none⟩
  else
    let stored : EvmAccount := ⟨account.info.nonce, account.info.balance, account.info.code⟩
    let storageChanges := account.storage.map fun e => (e.1, if e.2 = 0 then none else some e.2)
    let spores := account.info.balance / WEI_PER_SPORE
    match store.lookupEvmAddress address with
    | none => .ok ⟨address, some stored, storageChanges, none⟩
    | some pubkey =>
      if spores < 2 ^ 64 then .ok ⟨address, some stored, storageChanges, some (pubkey, spores)⟩
      else .error
        s!"EVM balance overflow for {beBytes 20 address.toNat}: spores {spores} exceeds u64::MAX"

/-- The error of a conversion, if it is one. -/
def conversionError? : Except String EvmStateChange → Option String
  | .error e => some e
  | .ok _ => none

/-- `convert_revm_state_to_deferred`, with the check that follows it: every entry is converted, and
    the errors are reported together. -/
def convertRevmStateToDeferred (store : ChainState N) (state : HashMap EvmAddress RevmAccount) :
    Except String (List EvmStateChange) :=
  let converted := state.toList.map (deferChange store)
  let errors := converted.filterMap conversionError?
  if errors = [] then .ok (converted.filterMap Except.toOption)
  else .error ("EVM state conversion failed: " ++ String.intercalate "; " errors)

structure EvmExecutionResult where
  success : Bool
  gasUsed : Nat
  createdAddress : Option EvmAddress
  deriving DecidableEq, Repr

def ExecutionResult.toEvm : ExecutionResult → EvmExecutionResult
  | .success gasUsed created => ⟨true, gasUsed, created⟩
  | .revert gasUsed => ⟨false, gasUsed, none⟩
  | .halt gasUsed => ⟨false, gasUsed, none⟩

/-- The checks of `execute_evm_transaction`. -/
def checkEvmTransaction (tx : EvmTx) (chainId : Nat) : Except String Unit := do
  match tx.chainId with
  | some txChainId =>
    failIf (txChainId ≠ chainId) s!"Invalid chainId: expected {chainId}, got {txChainId}"
  | none => .error "Transaction must include chain_id (EIP-155)"
  failIf (u256IsMultipleOfSpore tx.value = false) "EVM value must be multiple of 1e9 wei"
  failIf (u256IsMultipleOfSpore tx.gasPrice = false) "EVM gas price must be multiple of 1e9 wei"
  forEach tx.maxFeePerGas.toList fun maxFee =>
    failIf (u256IsMultipleOfSpore maxFee = false) "EVM max fee must be multiple of 1e9 wei"
  forEach tx.maxPriorityFeePerGas.toList fun priority =>
    failIf (u256IsMultipleOfSpore priority = false) "EVM priority fee must be multiple of 1e9 wei"

def executeEvmTransaction (engine : EvmEngine) (store : ChainState N) (tx : EvmTx) (chainId : Nat) :
    Except String (EvmExecutionResult × List EvmStateChange) := do
  checkEvmTransaction tx chainId
  let outcome ← mapErr (fun e => s!"EVM execution error: {e}")
    (engine.transact store.evmDb (store.evmContext chainId) tx)
  let changes ← convertRevmStateToDeferred store outcome.state
  pure (outcome.result.toEvm, changes)

/-! ## Writing the changes -/

/-- The account of one change: put, or deleted with the storage that the committed state has. -/
def applyEvmAccount (store batch : ChainState N) (change : EvmStateChange) : ChainState N :=
  match change.account with
  | some account =>
    { batch with evmAccounts := batch.evmAccounts.put change.evmAddress account }
  | none =>
    { batch with
      evmAccounts := batch.evmAccounts.remove change.evmAddress
      evmStorage := batch.evmStorage.retain fun key _ =>
        decide (key.1 ≠ change.evmAddress) || !store.evmStorage.containsKey key }

def applyEvmStorage (batch : ChainState N) (change : EvmStateChange) : ChainState N :=
  { batch with
    evmStorage := change.storageChanges.foldl (fun storage e =>
      match e.2 with
      | some value => storage.put (change.evmAddress, e.1) value
      | none => storage.remove (change.evmAddress, e.1)) batch.evmStorage }

/-- The account with another spendable part, and the total that goes with it. -/
def withSpendable (account : Account) (spendable : Nat) : Account :=
  { account with
    spendable
    spores := U64.saturatingAdd (U64.saturatingAdd spendable account.staked) account.locked }

/-- A native balance is set, not moved: the spendable part becomes what the virtual machine says. -/
def setSpendable (ledger : Ledger) (update : Pubkey × Nat) : Ledger :=
  ledger.putAccount update.1 (withSpendable (ledger.receiver update.1) update.2)

/-- `StateBatch::apply_evm_changes`. -/
def applyEvmChanges (store batch : ChainState N) (changes : List EvmStateChange) : ChainState N :=
  let batch := changes.foldl (fun batch change =>
    applyEvmStorage (applyEvmAccount store batch change) change) batch
  let ledger := (changes.filterMap EvmStateChange.nativeBalanceUpdate).foldl setSpendable
    batch.core.ledger
  { batch with core := { batch.core with ledger } }

/-! ## Processing -/

/-- The fee that is charged natively: the price the transaction names, times the gas used. -/
def evmFee (tx : EvmTx) (result : EvmExecutionResult) : Nat :=
  u256ToSpores (tx.gasPrice * result.gasUsed)

/-- The fee is charged to the native account of the sender. -/
def chargeEvmFee (store batch : ChainState N) (payer : Pubkey) (fee : Nat) :
    Except String (ChainState N) :=
  if 0 < fee then
    mapErr (fun e => s!"EVM fee charge error: {e}") (ChainState.chargeFee store batch payer fee 0)
  else .ok batch

/-- `process_evm_transaction`; an error is an invalid result. -/
def processEvmTransaction [Crypto] (engine : EvmEngine) (store batch : ChainState N)
    (t : Transaction) : Except String (TxResult × ChainState N) :=
  match t.message.instructions with
  | [instruction] => do
    let tx ← decodeEvmTransaction engine instruction.data
    failIf (u256IsMultipleOfSpore tx.value = false) "EVM value must be multiple of 1e9 wei"
    let payer ← okOr (store.lookupEvmAddress tx.source) "EVM address not registered"
    let (result, changes) ← executeEvmTransaction engine store tx (tx.chainId.getD 0)
    let batch ← chargeEvmFee store batch payer (evmFee tx result)
    let batch := { batch with
      evmReceipts := batch.evmReceipts.put tx.hash
        ⟨result.success, result.gasUsed, result.createdAddress⟩ }
    let batch := applyEvmChanges store (batch.putTransaction t) changes
    pure (⟨result.success, true, evmFee tx result,
      if result.success then none else some "EVM execution reverted", 0⟩, batch)
  | _ => .error "Invalid EVM transaction format"

end
end Lichen.Processor
