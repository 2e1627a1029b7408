/-
  Contract execution (`core/src/contract.rs`): one frame per call, and what a frame can ask for.

  The code of a contract is an arbitrary `Program` over the host calls.  A frame has its own copy of
  its contract's storage and its own list of changes; what cross-called frames changed is kept in one
  map that all frames of the call tree share.  A frame that fails is undone by the snapshot its
  caller took: here the caller simply goes on with the context it had.

  Frames call frames up to `MAX_CROSS_CALL_DEPTH` deep, so `execute` recurses on the depth left.
-/
import Lichen.Core.Certificate
import Lichen.Processor.Contracts

open Base
namespace Lichen.Processor

/-! ## Constants -/

def MAX_KEY_LEN : Nat := 256
def MAX_VALUE_LEN : Nat := 65536
def MAX_RETURN_DATA : Nat := 65536
def MAX_STORAGE_ENTRIES : Nat := 100000
def MAX_TOTAL_STORAGE_BYTES : Nat := 10 * 1024 * 1024
def MAX_CROSS_CALL_DEPTH : Nat := 8
def MAX_CCC_FUNCTION_LEN : Nat := 256
def MAX_CCC_ARGS_LEN : Nat := 65536
def DEFAULT_COMPUTE_LIMIT : Nat := 10000000
def COMPUTE_STORAGE_READ : Nat := 100
def COMPUTE_STORAGE_WRITE : Nat := 200
def COMPUTE_STORAGE_WRITE_PER_BYTE : Nat := 1
def COMPUTE_STORAGE_DELETE : Nat := 100
def COMPUTE_SET_RETURN_DATA : Nat := 50
def COMPUTE_BYTE_COST : Nat := 1
def COMPUTE_CROSS_CALL : Nat := 5000

/-! ## Signed 64-bit deltas -/

namespace I64

def MAX : Nat := 2 ^ 63 - 1

/-- `checked_add`. -/
def checkedAdd (a b : Int) : Option Int :=
  if - 2 ^ 63 ≤ a + b ∧ a + b < 2 ^ 63 then some (a + b) else none

theorem checkedAdd_eq_some (h : checkedAdd a b = some c) : c = a + b := by
  unfold checkedAdd at h
  split at h
  · exact (Option.some.inj h).symm
  · cases h

end I64

/-! ## What code can do -/

/-- What comes back from a host call: the returned number, and the bytes written to memory. -/
structure HostReply where
  code : Nat
  data : Bytes
  deriving DecidableEq, Repr, Inhabited

def HostReply.zero : HostReply := ⟨0, []⟩

/-- The host calls.  `inform` stands for the ones that change nothing but the compute meter (caller,
    value, slot, arguments, code hash, entropy, hashing, logs and events, compliance checks). -/
inductive HostCall where
  | storageRead (key : Bytes) (valLen : Nat)
  | storageWrite (key val : Bytes)
  | storageDelete (key : Bytes)
  | setReturnData (data : Bytes)
  | inform (name : String) (operands : Bytes)
  | crossContractCall (target : Pubkey) (functionName : String) (args : Bytes) (value : Nat)
      (resultLen : Nat) (resultWritable : Bool)
  deriving DecidableEq, Repr

/-- How the code of a frame ends, with the compute its instructions used. -/
inductive Ending where
  | returned (returnCode : Option Int) (wasmCompute : Nat)
  | trapped (message : String) (wasmCompute : Nat)
  deriving DecidableEq, Repr

abbrev Program := Resume HostCall HostReply Ending

structure CollectionState where
  creator : Pubkey
  royaltyBps : Nat
  deriving DecidableEq, Repr

structure TokenState where
  version : Nat
  collection : Pubkey
  tokenId : Nat
  owner : Pubkey
  metadataUri : String
  approved : Option Pubkey
  deriving DecidableEq, Repr

/-- What a frame is told about itself. -/
structure FrameInfo where
  caller : Pubkey
  contract : Pubkey
  value : Nat
  slot : Nat
  deriving DecidableEq, Repr

/-- What stands outside the modelled code: the WASM engine, which gives the program of an exported
    function under a fuel limit; the encodings of contract and NFT records; and the answers of the
    informing host calls. -/
structure Runtime where
  wasm : ContractAccount → String → Bytes → Nat → Except String Program
  decodeContract : Bytes → Option ContractAccount
  encodeContract : ContractAccount → Bytes
  decodeCollectionState : Bytes → Option CollectionState
  decodeTokenState : Bytes → Option TokenState
  encodeTokenState : TokenState → Option Bytes
  deriveNftTokenAddress : Pubkey → Nat → Pubkey
  inform : String → Bytes → FrameInfo → StateStore → Nat × HostReply

/-! ## The frame -/

structure ContractContext where
  caller : Pubkey
  contract : Pubkey
  value : Nat
  slot : Nat
  storage : ContractStorage
  storageChanges : StorageChanges
  returnData : Bytes
  computeRemaining : Nat
  computeLimit : Nat
  crossContractStorage : ContractStorage
  callDepth : Nat
  pendingCccChanges : HashMap Pubkey StorageChanges
  pendingCccValueDeltas : HashMap Pubkey Int
  pendingNativeAccountOps : List NativeAccountOp
  pendingNativeAccountState : HashMap Pubkey Account
  readOnly : Bool
  storageBytesUsed : Nat
  entered : List Pubkey

section
variable (rt : Runtime) (store : StateStore) (execute : Exec) (ctx : ContractContext)

def ContractContext.info : FrameInfo :=
  ⟨ctx.caller, ctx.contract, ctx.value, ctx.slot⟩

/-- The bytes of all keys and values. -/
def storageBytes (storage : ContractStorage) : Nat :=
  storage.sumBy fun k v => k.length + v.length

/-- The context after the charge, and whether the budget covered it. -/
def deductCompute (cost : Nat) : ContractContext × Bool :=
  if ctx.computeRemaining < cost then ({ ctx with computeRemaining := 0 }, false)
  else ({ ctx with computeRemaining := ctx.computeRemaining - cost }, true)

/-! ## Storage -/

def hostStorageRead (key : Bytes) (valLen : Nat) :
    ContractContext × HostReply :=
  if key.length > MAX_KEY_LEN ∨ ctx.computeRemaining < COMPUTE_STORAGE_READ then (ctx, .zero)
  else
    let ctx := (deductCompute ctx COMPUTE_STORAGE_READ).1
    (ctx,
      match ctx.storage.get key with
      | some value => ⟨min value.length valLen, value.take valLen⟩
      | none => .zero)

def hostStorageWrite (key val : Bytes) : ContractContext × HostReply :=
  if key.length > MAX_KEY_LEN ∨ val.length > MAX_VALUE_LEN
      ∨ ctx.computeRemaining < COMPUTE_STORAGE_WRITE then (ctx, .zero)
  else
    -- a charge beyond the budget empties it and the write goes on
    let ctx := (deductCompute ctx
      (COMPUTE_STORAGE_WRITE + val.length * COMPUTE_STORAGE_WRITE_PER_BYTE)).1
    if ¬ ctx.storage.containsKey key ∧ ctx.storage.size ≥ MAX_STORAGE_ENTRIES then (ctx, .zero)
    else
      let newBytes := key.length + val.length
      let oldBytes := ((ctx.storage.get key).map fun old => key.length + old.length).getD 0
      let projected := (ctx.storageBytesUsed + newBytes + 2 ^ 64 - oldBytes) % 2 ^ 64
      if projected > MAX_TOTAL_STORAGE_BYTES then (ctx, .zero)
      else
        ({ ctx with
            storageBytesUsed := projected
            storage := ctx.storage.put key val
            storageChanges := ctx.storageChanges.put key (some val) }, ⟨1, []⟩)

/-- A delete looks the key up, and changes something only if it is there. -/
def hostStorageDelete (key : Bytes) : ContractContext × HostReply :=
  if key.length > MAX_KEY_LEN ∨ ctx.computeRemaining < COMPUTE_STORAGE_DELETE then (ctx, .zero)
  else
    let ctx := (deductCompute ctx COMPUTE_STORAGE_DELETE).1
    match ctx.storage.get key with
    | some old =>
      ({ ctx with
          storageBytesUsed := U64.saturatingSub ctx.storageBytesUsed (key.length + old.length)
          storage := ctx.storage.remove key
          storageChanges := ctx.storageChanges.put key none }, ⟨1, []⟩)
    | none => (ctx, .zero)

def hostSetReturnData (data : Bytes) : ContractContext × HostReply :=
  if data.length > MAX_RETURN_DATA then (ctx, ⟨1, []⟩)
  else
    let (ctx, paid) := deductCompute ctx (COMPUTE_SET_RETURN_DATA + data.length * COMPUTE_BYTE_COST)
    if paid then ({ ctx with returnData := data }, ⟨0, []⟩) else (ctx, ⟨1, []⟩)

/-! ## Native balances -/

def applyValueDeltaToAccount (account : Account) (delta : Int) : Except String Account :=
  if delta > 0 then account.addSpendable delta.toNat
  else if delta < 0 then account.deductSpendable (-delta).toNat
  else .ok account

/-- The account as the frame expects it to be once its pending effects are applied. -/
def projectedNativeAccount (account : Pubkey)
    (allowMissing : Bool) : Except String Account :=
  match ctx.pendingNativeAccountState.get account with
  | some projected => .ok projected
  | none =>
    match store.getAccount account with
    | some projected =>
      applyValueDeltaToAccount projected ((ctx.pendingCccValueDeltas.get account).getD 0)
    | none =>
      if allowMissing then
        applyValueDeltaToAccount (Account.new 0 account)
          ((ctx.pendingCccValueDeltas.get account).getD 0)
      else .error s!"Native account {account} not found"

/-- The restriction checks of `queue_native_account_op`. -/
def checkNativeAccountOp (op : NativeAccountOp) :
    Except String Unit :=
  match op with
  | .lock account amount => do
    let accountState ← projectedNativeAccount store ctx account false
    failIf (isAccountRestricted store.ledger.restrictions account .outgoing NATIVE_LICN_ASSET_ID
        amount accountState.spendable ctx.slot)
      s!"Native account lock blocked by active account/native asset restriction for {account}"
  | .transfer source target amount => do
    let fromAccount ← projectedNativeAccount store ctx source false
    failIf (isAccountRestricted store.ledger.restrictions source .outgoing NATIVE_LICN_ASSET_ID
        amount fromAccount.spendable ctx.slot)
      s!"Native account transfer blocked by active source account/native asset restriction for {source}"
    let toAccount ← projectedNativeAccount store ctx target true
    failIf (isAccountRestricted store.ledger.restrictions target .incoming NATIVE_LICN_ASSET_ID
        amount toAccount.spendable ctx.slot)
      s!"Native account transfer blocked by active recipient account/native asset restriction for {target}"
  | .nftTransfer _ collection source target _ => do
    failIf (isAccountRestricted store.ledger.restrictions source .outgoing collection 1 1 ctx.slot)
      s!"Native NFT transfer blocked by active source restriction for {source}"
    failIf (isAccountRestricted store.ledger.restrictions target .incoming collection 1 0 ctx.slot)
      s!"Native NFT transfer blocked by active recipient restriction for {target}"
  | .unlock _ _ => .ok ()
  | .deductLocked _ _ => .ok ()

/-- The recipient of a transfer, which may be the sender as it is after the debit. -/
def projectedRecipient (source target : Pubkey)
    (debited : Account) : Except String Account :=
  if target = source then .ok debited else projectedNativeAccount store ctx target true

/-- `queue_native_account_op`: no check asks whose account it is. -/
def queueNativeAccountOp (op : NativeAccountOp) :
    Except String ContractContext := do
  checkNativeAccountOp store ctx op
  let account ← projectedNativeAccount store ctx op.account false
  let account ← op.apply account
  let state := ctx.pendingNativeAccountState.put op.account account
  match op with
  | .transfer source target amount => do
    let toAccount ← projectedRecipient store ctx source target account
    let toAccount ← toAccount.addSpendable amount
    .ok { ctx with
      pendingNativeAccountState := state.put target toAccount
      pendingNativeAccountOps := ctx.pendingNativeAccountOps ++ [op] }
  | _ =>
    .ok { ctx with
      pendingNativeAccountState := state
      pendingNativeAccountOps := ctx.pendingNativeAccountOps ++ [op] }

def queueNativeAccountOps (ops : List NativeAccountOp) : Except String ContractContext :=
  tryFold (fun ctx op => queueNativeAccountOp store ctx op) ctx ops

/-! ## The native account calls: cross-calls of the zero address -/

/-- The 32 bytes at an offset, as a key. -/
def pubkeyAt (args : Bytes) (offset : Nat) : Pubkey :=
  ⟨ofArray ((args.drop offset).take 32)⟩

/-- The 8 little-endian bytes at an offset. -/
def u64At (args : Bytes) (offset : Nat) : Nat := ofLeBytes ((args.drop offset).take 8)

def loadProjectedNativeNft (collection : Pubkey) (tokenId : Nat) (token : Pubkey) :
    Except String (Account × TokenState) := do
  let collectionAccount ← projectedNativeAccount store ctx collection false
  failIf (collectionAccount.owner ≠ SYSTEM_PROGRAM_ID) "Native NFT collection is not system-owned"
  let _ ← okOr (rt.decodeCollectionState collectionAccount.data) "Failed to decode collection"
  let tokenAccount ← projectedNativeAccount store ctx token false
  failIf (tokenAccount.owner ≠ SYSTEM_PROGRAM_ID) "Native NFT token is not system-owned"
  let tokenState ← okOr (rt.decodeTokenState tokenAccount.data) "Failed to decode token"
  failIf (tokenState.collection ≠ collection ∨ tokenState.tokenId ≠ tokenId)
    "Native NFT token state conflicts with its canonical address"
  failIf (rt.deriveNftTokenAddress tokenState.collection tokenState.tokenId ≠ token)
    "Native NFT token address is not canonical"
  pure (tokenAccount, tokenState)

/-- `nft_owner_of` and `nft_get_approved`. -/
def nftLookup (field : TokenState → Pubkey) (args : Bytes) (resultLen : Nat) (resultWritable : Bool) :
    HostReply :=
  let collection := pubkeyAt args 0
  if args.length ≠ 40 ∨ collection = ⟨0⟩ then .zero
  else
    let tokenId := u64At args 32
    match loadProjectedNativeNft rt store ctx collection tokenId
        (rt.deriveNftTokenAddress collection tokenId) with
    | .ok (_, tokenState) =>
      if resultLen < 32 ∨ ¬ resultWritable then .zero else ⟨32, (field tokenState).bytes⟩
    | .error _ => .zero

/-- `nft_royalty_info`. -/
def nftRoyaltyInfo (args : Bytes)
    (resultLen : Nat) (resultWritable : Bool) : HostReply :=
  let collection := pubkeyAt args 0
  if args.length ≠ 32 ∨ collection = ⟨0⟩ then .zero
  else
    match projectedNativeAccount store ctx collection false with
    | .ok account =>
      if account.owner ≠ SYSTEM_PROGRAM_ID then .zero
      else
        match rt.decodeCollectionState account.data with
        | some state =>
          if resultLen < 34 ∨ ¬ resultWritable then .zero
          else ⟨34, state.creator.bytes ++ leBytes 2 state.royaltyBps⟩
        | none => .zero
    | .error _ => .zero

/-- `nft_transfer_from`: the owner's token, moved by the owner or by the contract it approved. -/
def nftTransferFrom (args : Bytes)
    (resultLen : Nat) (resultWritable : Bool) : ContractContext × HostReply :=
  let collection := pubkeyAt args 0
  let source := pubkeyAt args 32
  let target := pubkeyAt args 64
  if ctx.readOnly ∨ args.length ≠ 104 ∨ collection = ⟨0⟩ ∨ source = ⟨0⟩ ∨ target = ⟨0⟩ then
    (ctx, .zero)
  else
    let tokenId := u64At args 96
    let token := rt.deriveNftTokenAddress collection tokenId
    match loadProjectedNativeNft rt store ctx collection tokenId token with
    | .error _ => (ctx, .zero)
    | .ok (_, tokenState) =>
      if tokenState.owner ≠ source
          ∨ (ctx.contract ≠ source ∧ tokenState.approved ≠ some ctx.contract) then (ctx, .zero)
      else
        match rt.encodeTokenState { tokenState with owner := target, approved := none } with
        | none => (ctx, .zero)
        | some encodedState =>
          match queueNativeAccountOp store ctx
              (.nftTransfer token collection source target encodedState) with
          | .error _ => (ctx, .zero)
          | .ok ctx =>
            (ctx, if resultLen < 1 ∨ ¬ resultWritable then .zero else ⟨1, [1]⟩)

/-- Eight bytes written as far as the buffer goes. -/
def nativeU64Reply (n resultLen : Nat) (resultWritable : Bool) : HostReply :=
  if resultLen > 0 ∧ ¬ resultWritable then .zero else ⟨8, (leBytes 8 n).take resultLen⟩

/-- The operation a native call asks for.  Only for `transfer` is the account the calling
    contract's own. -/
def nativeAccountOpOf (contract : Pubkey) (functionName : String) (args : Bytes) :
    Option NativeAccountOp :=
  if args.length < 40 then none
  else
    match functionName with
    | "lock" => some (.lock (pubkeyAt args 0) (u64At args 32))
    | "unlock" => some (.unlock (pubkeyAt args 0) (u64At args 32))
    | "deduct" => some (.deductLocked (pubkeyAt args 0) (u64At args 32))
    | "transfer" => some (.transfer contract (pubkeyAt args 0) (u64At args 32))
    | _ => none

/-- The native calls that end in a queued operation. -/
def nativeBalanceCall (functionName : String)
    (args : Bytes) (resultLen : Nat) (resultWritable : Bool) : ContractContext × HostReply :=
  match nativeAccountOpOf ctx.contract functionName args with
  | none => (ctx, .zero)
  | some op =>
    match queueNativeAccountOp store ctx op with
    | .error _ => (ctx, .zero)
    | .ok ctx => (ctx, if resultLen > 0 ∧ ¬ resultWritable then .zero else ⟨1, [1].take resultLen⟩)

def handleNativeAccountCall (functionName : String) (args : Bytes) (resultLen : Nat) (resultWritable : Bool) :
    ContractContext × HostReply :=
  match functionName with
  | "nft_owner_of" => (ctx, nftLookup rt store ctx TokenState.owner args resultLen resultWritable)
  | "nft_get_approved" =>
    (ctx, nftLookup rt store ctx (fun t => t.approved.getD ⟨0⟩) args resultLen resultWritable)
  | "nft_royalty_info" => (ctx, nftRoyaltyInfo rt store ctx args resultLen resultWritable)
  | "nft_transfer_from" => nftTransferFrom rt store ctx args resultLen resultWritable
  | "total_supply" => (ctx, nativeU64Reply store.totalSupply resultLen resultWritable)
  | "balance_of" =>
    if args.length < 32 then (ctx, .zero)
    else
      match projectedNativeAccount store ctx (pubkeyAt args 0) true with
      | .ok account => (ctx, nativeU64Reply account.spores resultLen resultWritable)
      | .error _ => (ctx, .zero)
  | _ => nativeBalanceCall store ctx functionName args resultLen resultWritable

/-! ## Cross-contract calls -/

/-- The target of a call, from the state store: what earlier transactions of the block did to it is
    not in there. -/
def loadCallee (slot : Nat) (target : Pubkey) :
    Option ContractAccount := do
  let account ← store.getAccount target
  if account.executable then
    let contract ← rt.decodeContract account.data
    pure (contract.deriveLifecycle store.ledger.restrictions target slot).1
  else none

/-- What attaching value to a call does in the caller's frame: the projected accounts, and the
    caller's deltas with the value taken out. -/
structure Attached where
  updates : List (Pubkey × Account)
  target : Account
  deltas : HashMap Pubkey Int

/-- The two projected accounts after the value moved.  A contract that calls itself is left as it
    is. -/
def projectValue (target : Pubkey) (value : Nat) :
    Option (List (Pubkey × Account) × Account) := do
  let projectedCaller ← (projectedNativeAccount store ctx ctx.contract false).toOption
  if projectedCaller.spendable < value then none
  else if target = ctx.contract then
    pure ([(target, projectedCaller)], projectedCaller)
  else do
    let projectedTarget ← (projectedNativeAccount store ctx target false).toOption
    if isAccountRestricted store.ledger.restrictions ctx.contract .outgoing NATIVE_LICN_ASSET_ID
          value projectedCaller.spendable ctx.slot
        || isAccountRestricted store.ledger.restrictions target .incoming NATIVE_LICN_ASSET_ID
          value projectedTarget.spendable ctx.slot then none
    else do
      let projectedCaller ← (projectedCaller.deductSpendable value).toOption
      let projectedTarget ← (projectedTarget.addSpendable value).toOption
      pure ([(ctx.contract, projectedCaller), (target, projectedTarget)], projectedTarget)

def attachValue (target : Pubkey) (value : Nat) :
    Option Attached :=
  if value > I64.MAX then none
  else do
    let (updates, projectedTarget) ← projectValue store ctx target value
    let next ← I64.checkedAdd ((ctx.pendingCccValueDeltas.get ctx.contract).getD 0) (-value)
    pure ⟨updates, projectedTarget, ctx.pendingCccValueDeltas.put ctx.contract next⟩

/-- The context of the called frame. -/
def calleeContext (target : Pubkey) (value : Nat)
    (attached : Option Attached) : ContractContext :=
  let storage := (store.loadContractStorageMap target).edit
    ((ctx.pendingCccChanges.get target).getD ∅)
  { caller := ctx.contract
    contract := target
    value := value
    slot := ctx.slot
    storage := storage
    storageChanges := ∅
    returnData := []
    computeRemaining := ctx.computeRemaining
    computeLimit := ctx.computeRemaining
    crossContractStorage := ∅
    callDepth := ctx.callDepth + 1
    pendingCccChanges := ctx.pendingCccChanges
    pendingCccValueDeltas := ∅
    pendingNativeAccountOps := ctx.pendingNativeAccountOps
    pendingNativeAccountState :=
      match attached with
      | some a => ctx.pendingNativeAccountState.put target a.target
      | none => ctx.pendingNativeAccountState
    readOnly := ctx.readOnly
    storageBytesUsed := storageBytes storage
    entered := ctx.entered ++ [target] }

/-- One checked addition to a map of deltas. -/
def addDelta (deltas : HashMap Pubkey Int) (address : Pubkey) (delta : Int) :
    Option (HashMap Pubkey Int) :=
  (I64.checkedAdd ((deltas.get address).getD 0) delta).map fun next => deltas.put address next

/-- The caller's deltas with the value paid in and the callee's own deltas added. -/
def committedDeltas (deltas : HashMap Pubkey Int) (target : Pubkey) (value : Nat)
    (calleeDeltas : HashMap Pubkey Int) : Option (HashMap Pubkey Int) :=
  (if value > 0 then addDelta deltas target value else some deltas).bind fun deltas =>
    calleeDeltas.toList.foldlM (fun deltas e => addDelta deltas e.1 e.2) deltas

/-- What a called frame's success leaves in the caller's: deltas, projections, native operations
    and storage changes. -/
def mergeCallee (target : Pubkey) (value : Nat)
    (attached : Option Attached) (result : ContractResult) : Option ContractContext := do
  let deltas := match attached with
    | some a => a.deltas
    | none => ctx.pendingCccValueDeltas
  let deltas ← committedDeltas deltas target value result.cccValueDeltas
  let state := match attached with
    | some a => a.updates.foldl (fun state e => state.put e.1 e.2) ctx.pendingNativeAccountState
    | none => ctx.pendingNativeAccountState
  if result.nativeAccountOps.length < ctx.pendingNativeAccountOps.length then none
  else
    let merged ← (queueNativeAccountOps store
      { ctx with
        pendingCccValueDeltas := deltas
        pendingNativeAccountState := state
        pendingCccChanges := result.crossCallChanges }
      (result.nativeAccountOps.drop ctx.pendingNativeAccountOps.length)).toOption
    pure { merged with
      pendingCccChanges :=
        if result.storageChanges.isEmpty then merged.pendingCccChanges
        else merged.pendingCccChanges.put target
          (((merged.pendingCccChanges.get target).getD ∅).overlay result.storageChanges)
      entered := result.entered }

/-- The bytes handed back to the caller. -/
def effectiveResult (contract : ContractAccount) (functionName : String) (result : ContractResult) :
    Bytes :=
  if ¬ result.returnData.isEmpty then result.returnData
  else
    match result.returnCode with
    | some rc =>
      match (findAbiFunction contract functionName).bind AbiFunction.resultSemantics with
      | some semantics =>
        if semantics.kind = .returnValue ∨ semantics.kind = .nonzeroReturnValue then
          leBytes 8 (rc % 2 ^ 64).toNat
        else leBytes 4 (rc % 2 ^ 32).toNat
      | none => leBytes 4 (rc % 2 ^ 32).toNat
    | none => [1]

/-- Running a contract's function in a context. -/
abbrev Exec := ContractAccount → String → Bytes → ContractContext → Except String ContractResult

/-- `host_cross_contract_call`, from the point where the target is a contract: `none` is every way
    the call comes to nothing, with the compute the callee used. -/
def callContract (target : Pubkey) (functionName : String) (args : Bytes) (value resultLen : Nat)
    (resultWritable : Bool) : ContractContext × HostReply :=
  match loadCallee rt store ctx.slot target with
  | none => (ctx, .zero)
  | some contract =>
    let logicalFunctionName := resolveAbiCallFunctionName contract functionName args
    match contract.validateLifecycleForExecution logicalFunctionName ctx.readOnly value with
    | .error _ => (ctx, .zero)
    | .ok () =>
      let attached := if value > 0 then (attachValue store ctx target value).map some else some none
      match attached with
      | none => (ctx, .zero)
      | some attached =>
        match execute contract functionName args (calleeContext store ctx target value attached) with
        | .error _ => (ctx, .zero)
        | .ok result =>
          let ctx := { ctx with
            computeRemaining := U64.saturatingSub ctx.computeRemaining result.computeUsed }
          match evaluateContractOutcome contract logicalFunctionName result .runtimeSuccessOnly with
          | .error _ => (ctx, .zero)
          | .ok () =>
            match mergeCallee store ctx target value attached result with
            | none => (ctx, .zero)
            | some merged =>
              let data := (effectiveResult contract logicalFunctionName result).take resultLen
              if data.isEmpty then (merged, ⟨1, []⟩)
              else if resultWritable then (merged, ⟨data.length, data⟩)
              else (ctx, .zero)

def hostCrossContractCall (target : Pubkey) (functionName : String) (args : Bytes)
    (value resultLen : Nat) (resultWritable : Bool) : ContractContext × HostReply :=
  if functionName.utf8ByteSize > MAX_CCC_FUNCTION_LEN ∨ args.length > MAX_CCC_ARGS_LEN
      ∨ ctx.callDepth ≥ MAX_CROSS_CALL_DEPTH then (ctx, .zero)
  else
    let (ctx, paid) := deductCompute ctx COMPUTE_CROSS_CALL
    if ¬ paid then (ctx, .zero)
    else if target = ⟨0⟩ then
      handleNativeAccountCall rt store ctx functionName args resultLen resultWritable
    else callContract rt store execute ctx target functionName args value resultLen resultWritable

/-! ## Execution -/

def hostCall (call : HostCall) : ContractContext × HostReply :=
  match call with
  | .storageRead key valLen => hostStorageRead ctx key valLen
  | .storageWrite key val => hostStorageWrite ctx key val
  | .storageDelete key => hostStorageDelete ctx key
  | .setReturnData data => hostSetReturnData ctx data
  | .inform name operands =>
    let (cost, reply) := rt.inform name operands ctx.info store
    let (ctx, paid) := deductCompute ctx cost
    (ctx, if paid then reply else .zero)
  | .crossContractCall target functionName args value resultLen resultWritable =>
    hostCrossContractCall rt store execute ctx target functionName args value resultLen
      resultWritable

/-- A failed run has no effects. -/
def failedResult (computeUsed : Nat) (error : String) : ContractResult where
  returnData := []
  storageChanges := ∅
  success := false
  error := some error
  computeUsed := computeUsed
  returnCode := none
  crossCallChanges := ∅
  cccValueDeltas := ∅
  nativeAccountOps := []
  entered := []

/-- The result of a run that started with `initialCompute` and ended in `ctx`. -/
def frameResult (initialCompute : Nat) (ctx : ContractContext) (ending : Ending) : ContractResult :=
  let hostComputeUsed := U64.saturatingSub initialCompute ctx.computeRemaining
  match ending with
  | .trapped message wasmCompute =>
    let computeUsed := U64.saturatingAdd hostComputeUsed wasmCompute
    if computeUsed > ctx.computeLimit then
      failedResult computeUsed
        s!"Contract exceeded compute budget: {computeUsed} > {ctx.computeLimit} (WASM: {wasmCompute}, host: {hostComputeUsed})"
    else failedResult computeUsed message
  | .returned returnCode wasmCompute =>
    let computeUsed := U64.saturatingAdd hostComputeUsed wasmCompute
    if computeUsed > ctx.computeLimit then
      failedResult computeUsed
        s!"Contract exceeded compute budget: {computeUsed} > {ctx.computeLimit} (WASM: {wasmCompute}, host: {hostComputeUsed})"
    else
      { returnData := ctx.returnData
        storageChanges := ctx.storageChanges
        success := true
        error := none
        computeUsed := computeUsed
        returnCode := returnCode
        crossCallChanges := ctx.pendingCccChanges
        cccValueDeltas := ctx.pendingCccValueDeltas
        nativeAccountOps := ctx.pendingNativeAccountOps
        entered := ctx.entered }

/-- `prepare_execution_context`: injected entries fill in keys the contract does not have. -/
def prepareExecutionContext : ContractContext :=
  { ctx with
    storage := ctx.crossContractStorage.toList.foldl
      (fun storage e => if storage.containsKey e.1 then storage else storage.put e.1 e.2) ctx.storage
    crossContractStorage := ∅ }

end

/-- One frame, with the frames it calls given by `nested`. -/
def executeFrame (rt : Runtime) (store : StateStore) (nested : Exec) : Exec :=
  fun contract functionName args ctx => do
    contract.validateLifecycleForExecution functionName ctx.readOnly ctx.value
    let ctx := prepareExecutionContext ctx
    let program ← rt.wasm contract functionName args ctx.computeLimit
    let final := program.run (hostCall rt store nested) ctx
    .ok (frameResult ctx.computeRemaining final.1 final.2)

/-- `ContractRuntime::execute`, with so many call levels left. -/
def execute (rt : Runtime) (store : StateStore) : Nat → Exec
  | 0 => executeFrame rt store fun _ _ _ _ => .error "max call depth exceeded"
  | levels + 1 => executeFrame rt store (execute rt store levels)

end Lichen.Processor
