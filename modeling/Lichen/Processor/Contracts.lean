/-
  Contracts as the runtime sees them (`core/src/contract.rs`).

  A contract is the record kept in the data of its account: its code, its ABI and its lifecycle.  A
  governance restriction on the contract moves the lifecycle; the ABI says which return values of
  which functions count as failures.  What the code does is not looked into: see `Program`.
-/
import Lichen.Base.Resume
import Lichen.Processor.Ledger
import Lichen.Staking.Pool

open Base HashMap
namespace Lichen.Processor

abbrev Bytes := List UInt8

/-! ## The contract record -/

inductive AbiResultKind where
  | runtimeSuccessOnly
  | returnCode
  | returnValue
  | nonzeroReturnValue
  deriving DecidableEq, Repr

structure AbiResultSemantics where
  kind : AbiResultKind
  successCodes : List Int
  failureCodes : List Int
  deriving DecidableEq, Repr

structure AbiFunction where
  name : String
  opcode : Option UInt8
  readonly : Bool
  resultSemantics : Option AbiResultSemantics
  deriving DecidableEq, Repr

structure AbiError where
  code : Nat
  name : String
  message : Option String
  deriving DecidableEq, Repr

structure ContractAbi where
  functions : List AbiFunction
  errors : List AbiError
  deriving DecidableEq, Repr

inductive ContractLifecycleStatus where
  | active
  | suspended
  | quarantined
  | terminated
  deriving DecidableEq, Repr

structure ContractAccount where
  code : Bytes
  abi : Option ContractAbi
  lifecycleStatus : ContractLifecycleStatus
  lifecycleUpdatedSlot : Nat
  lifecycleRestrictionId : Option Nat
  deriving DecidableEq, Repr

/-! ## Lifecycle -/

def lifecycleStatusSeverity : ContractLifecycleStatus → Nat
  | .active => 0
  | .suspended => 1
  | .quarantined => 2
  | .terminated => 3

def contractLifecycleStatusForRestrictionMode : RestrictionMode → Option ContractLifecycleStatus
  | .stateChangingBlocked => some .suspended
  | .executeBlocked => some .quarantined
  | .quarantined => some .quarantined
  | .terminated => some .terminated
  | _ => none

/-- The later of two equals wins, as with `max_by_key`. -/
def strongestContractLifecycleRestriction (records : List RestrictionRecord) :
    Option (ContractLifecycleStatus × Nat) :=
  (records.filterMap fun r =>
      (contractLifecycleStatusForRestrictionMode r.mode).map fun status => (status, r.id)).foldl
    (fun best next =>
      match best with
      | none => some next
      | some b =>
        let severity := lifecycleStatusSeverity b.1
        let severity' := lifecycleStatusSeverity next.1
        if severity' < severity ∨ severity' = severity ∧ next.2 < b.2 then some b else some next)
    none

namespace ContractAccount

variable (contract : ContractAccount)

def abiFunctionIsReadonly (function : String) : Bool :=
  match contract.abi with
  | some abi => abi.functions.any fun f => decide (f.name = function) && f.readonly
  | none => false

def validateLifecycleForExecution (function : String)
    (readOnlyContext : Bool) (value : Nat) : Except String Unit :=
  match contract.lifecycleStatus with
  | .active => .ok ()
  | .suspended =>
    failIf (¬ (readOnlyContext ∧ value = 0 ∧ contract.abiFunctionIsReadonly function))
      s!"Contract lifecycle suspended blocks execution of function '{function}'"
  | .quarantined =>
    .error s!"Contract lifecycle quarantined blocks execution of function '{function}'"
  | .terminated =>
    .error s!"Contract lifecycle terminated blocks execution of function '{function}'"

/-- The contract after the sync, and whether it changed. -/
def syncLifecycleFromRestrictions (activeRecords : List RestrictionRecord) (linkedRestrictionActive : Option Bool)
    (currentSlot : Nat) : ContractAccount × Bool :=
  let next :=
    match strongestContractLifecycleRestriction activeRecords with
    | some (status, restrictionId) => some (status, some restrictionId)
    | none =>
      if contract.lifecycleRestrictionId.isSome ∧ linkedRestrictionActive = some false then
        some (.active, none)
      else none
  match next with
  | none => (contract, false)
  | some (status, restrictionId) =>
    if contract.lifecycleStatus = status ∧ contract.lifecycleRestrictionId = restrictionId then
      (contract, false)
    else
      ({ contract with
          lifecycleStatus := status
          lifecycleUpdatedSlot := currentSlot
          lifecycleRestrictionId := restrictionId }, true)

/-- `derive_contract_lifecycle_from_state_store` and the body of its batch twin: the lifecycle the
    active restrictions on the contract give. -/
def deriveLifecycle (records : List RestrictionRecord)
    (address : Pubkey) (currentSlot : Nat) : ContractAccount × Bool :=
  contract.syncLifecycleFromRestrictions
    (activeRestrictionsFor records (.contract address) currentSlot)
    (contract.lifecycleRestrictionId.bind fun id =>
      (records.find? fun r => decide (r.id = id)).map fun r => r.isEffectivelyActive currentSlot)
    currentSlot

end ContractAccount

/-! ## Functions and their results -/

def findAbiFunction (contract : ContractAccount) (functionName : String) : Option AbiFunction :=
  contract.abi.bind fun abi => abi.functions.find? fun f => decide (f.name = functionName)

/-- A call of the exported `call` stands for the function its first argument byte selects. -/
def resolveAbiCallFunctionName (contract : ContractAccount) (functionName : String) (args : Bytes) :
    String :=
  if functionName ≠ "call" then functionName
  else
    match args.head? with
    | none => functionName
    | some opcode =>
      match contract.abi.bind fun abi => abi.functions.find? fun f => decide (f.opcode = some opcode)
      with
      | some f => f.name
      | none => functionName

inductive NativeAccountOp where
  | lock (account : Pubkey) (amount : Nat)
  | unlock (account : Pubkey) (amount : Nat)
  | deductLocked (account : Pubkey) (amount : Nat)
  | transfer (source target : Pubkey) (amount : Nat)
  | nftTransfer (token collection source target : Pubkey) (encodedState : Bytes)
  deriving DecidableEq, Repr

namespace NativeAccountOp

def account : NativeAccountOp → Pubkey
  | .lock account _ => account
  | .unlock account _ => account
  | .deductLocked account _ => account
  | .transfer source _ _ => source
  | .nftTransfer token _ _ _ _ => token

def apply (op : NativeAccountOp) (account : Account) : Except String Account :=
  match op with
  | .lock _ amount => account.lock amount
  | .unlock _ amount => account.unlock amount
  | .deductLocked _ amount => account.deductLocked amount
  | .transfer _ _ amount => account.deductSpendable amount
  | .nftTransfer _ _ _ _ encodedState => .ok { account with data := encodedState }

end NativeAccountOp

abbrev ContractStorage := HashMap Bytes Bytes

/-- A changed key has its new value, or `none` if it was deleted. -/
abbrev StorageChanges := HashMap Bytes (Option Bytes)

/-- The source keeps no record of the contracts that ran; `entered` is written beside the effects and
    read by nothing the code does. -/
structure ContractResult where
  returnData : Bytes
  storageChanges : StorageChanges
  success : Bool
  error : Option String
  computeUsed : Nat
  returnCode : Option Int
  crossCallChanges : HashMap Pubkey StorageChanges
  cccValueDeltas : HashMap Pubkey Int
  nativeAccountOps : List NativeAccountOp
  entered : List Pubkey

inductive ContractOutcomeFallback where
  | legacyNonzeroNoChangeFailure
  | runtimeSuccessOnly
  deriving DecidableEq, Repr

def codeIsDeclaredSuccess (code : Int) (successCodes : List Int) : Bool :=
  if successCodes.isEmpty then decide (code = 0) else successCodes.contains code

def codeIsDeclaredFailure (code : Int) (failureCodes : List Int) : Bool :=
  failureCodes.contains code

def returnDataHasNonzeroValue (returnData : Bytes) : Bool := returnData.any (· ≠ 0)

/-- The label of a declared error code, in brackets after a blank. -/
def abiErrorLabel (contract : ContractAccount) (code : Int) : String :=
  match contract.abi.bind fun abi => abi.errors.find? fun e => decide ((e.code : Int) = code) with
  | some e =>
    match e.message with
    | some message => s!" ({e.name} ({message}))"
    | none => s!" ({e.name})"
  | none => ""

/-- `_reentrancy`. -/
def reentrancySuffix : Bytes := [95, 114, 101, 101, 110, 116, 114, 97, 110, 99, 121]

def legacyNonzeroNoChangeFailure (functionName : String) (result : ContractResult) :
    Except String Unit :=
  match result.returnCode with
  | some rc =>
    let meaningfulChanges := result.storageChanges.keys.any fun k => !(reentrancySuffix.isSuffixOf k)
    failIf (rc ≠ 0 ∧ ¬ meaningfulChanges ∧ result.crossCallChanges.isEmpty)
      s!"Contract '{functionName}' returned error code {rc} with no state changes"
  | none => .ok ()

/-- `evaluate_contract_outcome`: an error is an outcome that is no success. -/
def evaluateContractOutcome (contract : ContractAccount) (functionName : String)
    (result : ContractResult) (fallback : ContractOutcomeFallback) : Except String Unit :=
  if ¬ result.success then .error (result.error.getD "Contract execution failed")
  else
    match (findAbiFunction contract functionName).bind AbiFunction.resultSemantics with
    | some semantics =>
      match semantics.kind, result.returnCode with
      | .runtimeSuccessOnly, _ => .ok ()
      | .returnValue, some code =>
        failIf (codeIsDeclaredFailure code semantics.failureCodes)
          s!"Contract '{functionName}' returned ABI failure value {code}{abiErrorLabel contract code}"
      | .returnValue, none => .ok ()
      | .nonzeroReturnValue, some code =>
        if codeIsDeclaredFailure code semantics.failureCodes then
          .error
            s!"Contract '{functionName}' returned ABI failure value {code}{abiErrorLabel contract code}"
        else
          failIf (code = 0 ∧ ¬ returnDataHasNonzeroValue result.returnData)
            s!"Contract '{functionName}' returned zero for nonzero-return-value result semantics"
      | .nonzeroReturnValue, none =>
        .error s!"Contract '{functionName}' declares nonzero-return-value result semantics but returned no value"
      | .returnCode, some code =>
        failIf (¬ codeIsDeclaredSuccess code semantics.successCodes)
          s!"Contract '{functionName}' returned ABI failure code {code}{abiErrorLabel contract code}"
      | .returnCode, none =>
        .error s!"Contract '{functionName}' declares return-code result semantics but returned no code"
    | none =>
      match fallback with
      | .legacyNonzeroNoChangeFailure => legacyNonzeroNoChangeFailure functionName result
      | .runtimeSuccessOnly => .ok ()

/-- An outcome is a success only of a run that was one. -/
theorem success_of_evaluateContractOutcome
    (h : evaluateContractOutcome contract functionName result fallback = .ok ()) :
    result.success = true := by
  unfold evaluateContractOutcome at h
  grind

/-! ## The state a call runs over -/

/-- The state store, or a batch over it: accounts, restrictions and contract storage. -/
structure StateStore where
  ledger : Ledger
  contractStorage : HashMap Pubkey ContractStorage
  totalSupply : Nat
  totalBurned : Nat

namespace StateStore

def getAccount (s : StateStore) (pubkey : Pubkey) : Option Account := s.ledger.getAccount pubkey

def putAccount (s : StateStore) (pubkey : Pubkey) (account : Account) : StateStore :=
  { s with ledger := s.ledger.putAccount pubkey account }

/-- `load_contract_storage_map`. -/
def loadContractStorageMap (s : StateStore) (program : Pubkey) : ContractStorage :=
  (s.contractStorage.get program).getD ∅

def getContractStorage (s : StateStore) (program : Pubkey) (key : Bytes) : Option Bytes :=
  (s.loadContractStorageMap program).get key

/-- `put_contract_storage` and `delete_contract_storage`. -/
def setContractStorage (s : StateStore) (program : Pubkey) (key : Bytes) (value : Option Bytes) :
    StateStore :=
  let entries :=
    match value with
    | some v => (s.loadContractStorageMap program).put key v
    | none => (s.loadContractStorageMap program).remove key
  { s with contractStorage := s.contractStorage.put program entries }

end StateStore
end Lichen.Processor
