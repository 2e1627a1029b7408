/-
  The contract call instruction (`core/src/processor/contract_execution.rs`).

  The top-level frame runs over the batch's storage of its contract, the frames it calls over the
  state store.  What the call tree left pending is applied to the batch at the end: value deltas,
  native operations in the order they were queued, the top-level frame's own storage changes, and
  then the changes of the called frames.
-/
import Lichen.Processor.HostCalls

open Base
namespace Lichen.Processor
open StateStore

/-! ## The top-level context -/

/-- `pm_lichenid_addr`. -/
def PREDICTION_MARKET_LICHENID_ADDR_KEY : Bytes :=
  [112, 109, 95, 108, 105, 99, 104, 101, 110, 105, 100, 95, 97, 100, 100, 114]

/-- `gov_lichenid_addr`. -/
def GOVERNANCE_LICHENID_ADDR_KEY : Bytes :=
  [103, 111, 118, 95, 108, 105, 99, 104, 101, 110, 105, 100, 95, 97, 100, 100, 114]

def configuredLichenidProgram (storage : ContractStorage) : Option Pubkey :=
  ((storage.get PREDICTION_MARKET_LICHENID_ADDR_KEY).orElse fun _ =>
      storage.get GOVERNANCE_LICHENID_ADDR_KEY).bind fun value =>
    if value.length = 32 ∧ value.any (· ≠ 0) then some (pubkeyAt value 0) else none

/-- One lower-case hexadecimal digit. -/
def hexChar (n : Nat) : UInt8 := if n < 10 then UInt8.ofNat (48 + n) else UInt8.ofNat (87 + n)

/-- `rep:` and the caller in hexadecimal. -/
def lichenidReputationStorageKey (caller : Pubkey) : Bytes :=
  [114, 101, 112, 58]
    ++ caller.bytes.flatMap fun b => [hexChar (b.toNat / 16), hexChar (b.toNat % 16)]

/-- What another contract's storage says about the caller, for contracts configured to see it. -/
def injectedReputation (store : StateStore) (storage : ContractStorage) (caller : Pubkey) :
    ContractStorage :=
  match configuredLichenidProgram storage with
  | some program =>
    match store.getContractStorage program (lichenidReputationStorageKey caller) with
    | some data => (∅ : ContractStorage).put (lichenidReputationStorageKey caller) data
    | none => ∅
  | none => ∅

/-- `ContractContext::with_args` under `build_top_level_call_context`. -/
def topLevelContext (store batch : StateStore) (caller contract : Pubkey)
    (value computeLimit : Nat) (state : HashMap Pubkey Account) : ContractContext :=
  let storage := batch.loadContractStorageMap contract
  { caller := caller
    contract := contract
    value := value
    slot := batch.ledger.lastSlot
    storage := storage
    storageChanges := ∅
    returnData := []
    computeRemaining := min computeLimit DEFAULT_COMPUTE_LIMIT
    computeLimit := computeLimit
    crossContractStorage := injectedReputation store storage caller
    callDepth := 0
    pendingCccChanges := ∅
    pendingCccValueDeltas := ∅
    pendingNativeAccountOps := []
    pendingNativeAccountState := state
    readOnly := false
    storageBytesUsed := storageBytes storage
    entered := [contract] }

/-! ## Loading the contract -/

section
variable (rt : Runtime) (batch : StateStore)

def loadExecutableContract (address : Pubkey) :
    Except String (Account × ContractAccount) := do
  let account ← okOr (batch.getAccount address) "Contract not found"
  failIf (¬ account.executable) "Account is not a contract"
  let contract ← okOr (rt.decodeContract account.data) "Failed to deserialize contract"
  pure (account, contract)

/-- The contract under the restrictions now in force; a changed lifecycle is written back. -/
def refreshContractLifecycleFromRestrictions (address : Pubkey) : Except String (StateStore × ContractAccount) := do
  let (account, contract) ← loadExecutableContract rt batch address
  let (contract, changed) :=
    contract.deriveLifecycle batch.ledger.restrictions address batch.ledger.lastSlot
  if changed then
    pure (batch.putAccount address { account with data := rt.encodeContract contract }, contract)
  else pure (batch, contract)

/-! ## Applying what the call tree left pending -/

/-- The pending value deltas. -/
def applyValueDeltas (deltas : HashMap Pubkey Int) :
    Except String StateStore :=
  tryFold
    (fun batch e =>
      if e.2 = 0 then .ok batch
      else do
        let account ← okOr (batch.getAccount e.1) s!"CCC value delta target {e.1} not found"
        let account ← applyValueDeltaToAccount account e.2
        .ok (batch.putAccount e.1 account))
    batch deltas.toList

def applyNativeAccountOp (op : NativeAccountOp) : Except String StateStore := do
  let account ← okOr (batch.getAccount op.account) s!"Native account op target {op.account} not found"
  let account ← op.apply account
  let batch := batch.putAccount op.account account
  match op with
  | .transfer _ target amount => do
    let toAccount ← mapErr (fun error => s!"Native transfer credit to {target} failed: {error}")
      ((batch.ledger.receiver target).addSpendable amount)
    .ok (batch.putAccount target toAccount)
  | _ => .ok batch

def applyNativeAccountOps (ops : List NativeAccountOp) :
    Except String StateStore :=
  tryFold applyNativeAccountOp batch ops

/-- The changes of one contract's storage. -/
def putStorageChanges (contract : Pubkey) (changes : StorageChanges) :
    StateStore :=
  changes.toList.foldl (fun batch e => batch.setContractStorage contract e.1 e.2) batch

def applyCrossCallChanges (changes : HashMap Pubkey StorageChanges) : Except String StateStore :=
  tryFold
    (fun batch e =>
      if e.2.isEmpty then .ok batch
      else do
        let account ← okOr (batch.getAccount e.1) s!"Cross-call target {e.1} not found"
        let _ ← okOr (rt.decodeContract account.data) "Failed to deserialize cross-call target"
        .ok (putStorageChanges batch e.1 e.2))
    batch changes.toList

/-- The effects of a successful call tree, in the order the processor applies them. -/
def applyContractResult (contract : Pubkey)
    (result : ContractResult) : Except String StateStore := do
  let batch ← applyValueDeltas batch result.cccValueDeltas
  let batch ← applyNativeAccountOps batch result.nativeAccountOps
  let batch := putStorageChanges batch contract result.storageChanges
  applyCrossCallChanges rt batch result.crossCallChanges

/-! ## The instruction -/

/-- What a call reports besides its effects. -/
structure CallMeta where
  returnCode : Option Int
  computeUsed : Nat
  returnData : Bytes
  entered : List Pubkey

/-- The attached value, moved before the code runs; the projection starts from the accounts after
    the move. -/
def payAttachedValue (caller contract : Pubkey) (value : Nat) :
    Except String (StateStore × HashMap Pubkey Account) :=
  if value = 0 then .ok (batch, ∅)
  else do
    let ledger ← batch.ledger.transfer caller contract value
    let callerAccount ← okOr (ledger.getAccount caller) s!"Payable account {caller} not found"
    let contractAccount ← okOr (ledger.getAccount contract) s!"Payable account {contract} not found"
    .ok ({ batch with ledger },
      ((∅ : HashMap Pubkey Account).put caller callerAccount).put contract contractAccount)

/-- `contract_call_as_caller`, over the state store and the batch of the block so far; `budget` is
    what is left of the transaction's compute budget. -/
def contractCallAsCaller (store batch : StateStore) (budget : Nat)
    (caller contract : Pubkey) (functionName : String) (args : Bytes) (value : Nat) :
    Except String (StateStore × CallMeta) := do
  let (batch, account) ← refreshContractLifecycleFromRestrictions rt batch contract
  let logicalFunctionName := resolveAbiCallFunctionName account functionName args
  account.validateLifecycleForExecution logicalFunctionName false value
  let (batch, state) ← payAttachedValue batch caller contract value
  let result ← execute rt store MAX_CROSS_CALL_DEPTH account functionName args
    (topLevelContext store batch caller contract value budget state)
  evaluateContractOutcome account logicalFunctionName result .legacyNonzeroNoChangeFailure
  let batch ← applyContractResult rt batch contract result
  pure (batch, ⟨result.returnCode, result.computeUsed, result.returnData, result.entered⟩)

end

/-! ## What the steps of a call leave alone -/

section
variable {contract : Pubkey} {account : ContractAccount}

/-- The lifecycle refresh changes at most the data of the contract's account. -/
theorem refreshContractLifecycle_eq_ok
    (h : refreshContractLifecycleFromRestrictions rt batch contract = .ok (batch', account)) :
    ∃ a, batch.getAccount contract = some a
      ∧ (batch' = batch ∨ ∃ data, batch' = batch.putAccount contract { a with data := data }) := by
  unfold refreshContractLifecycleFromRestrictions loadExecutableContract at h
  grind

/-- The attached value is one transfer. -/
theorem payAttachedValue_eq_ok
    (h : payAttachedValue batch caller contract value = .ok (batch', state)) :
    value = 0 ∧ batch' = batch
      ∨ value ≠ 0 ∧ ∃ ledger, batch.ledger.transfer caller contract value = .ok ledger
        ∧ batch' = { batch with ledger } := by
  grind [payAttachedValue]

/-- **The parts of a call.** -/
theorem contractCallAsCaller_eq_ok
    (h : contractCallAsCaller rt store batch budget caller contract functionName args value
      = .ok (batch', info)) :
    ∃ batch₁ account batch₂ state result,
      refreshContractLifecycleFromRestrictions rt batch contract = .ok (batch₁, account)
      ∧ payAttachedValue batch₁ caller contract value = .ok (batch₂, state)
      ∧ execute rt store MAX_CROSS_CALL_DEPTH account functionName args
          (topLevelContext store batch₂ caller contract value budget state) = .ok result
      ∧ result.success = true
      ∧ applyContractResult rt batch₂ contract result = .ok batch'
      ∧ info.entered = result.entered := by
  unfold contractCallAsCaller at h
  grind [success_of_evaluateContractOutcome]

end

/-! ## Contracts by their scripts -/

/-- A runtime in which the data of a contract's account names its programs. -/
def Runtime.scripted (script : Bytes → String → Program) : Runtime where
  wasm := fun contract functionName _ _ => .ok (script contract.code functionName)
  decodeContract := fun data => some ⟨data, none, .active, 0, none⟩
  encodeContract := fun contract => contract.code
  decodeCollectionState := fun _ => none
  decodeTokenState := fun _ => none
  encodeTokenState := fun _ => none
  deriveNftTokenAddress := fun collection _ => collection
  inform := fun _ _ _ _ => (0, .zero)

/-- The end of a program without a return value. -/
def halt : Program := .done (.returned none 0)

/-- A native call about an account and an amount. -/
def nativeOf (functionName : String) (account : Pubkey) (amount : Nat) (next : Program) : Program :=
  .call (.crossContractCall ⟨0⟩ functionName (account.bytes ++ leBytes 8 amount) 0 0 true) fun _ =>
    next

/-- An account that holds a contract named `name` and some spores. -/
def contractHolder (name : UInt8) (spores : Nat) : Account :=
  { Account.new 0 ⟨0⟩ with data := [name], executable := true, spores, spendable := spores }

end Lichen.Processor
