/-
  Executing transactions and blocks (`core/src/processor/execution.rs`, with the fee and
  compute-unit tables of `processor/fees.rs` and `processor.rs`), as the speculative processor does.

  A transaction is admitted or refused (`admission`), then runs as an EVM transaction or as a list of
  native instructions over a batch; a native transaction that fails loses its batch and only pays its
  fee.  A block is a list of transactions run one after the other over one cumulative batch, all of
  them against the same committed state.

  What the native programs do is the parameter `Programs`; nothing here depends on it.
-/
import Lichen.Processor.EvmSupply

open Base
namespace Lichen.Processor

inductive ContractInstruction where
  | deploy (code initData : Bytes)
  | call (function : String) (args : Bytes) (value : Nat)
  | upgrade (code : Bytes)
  | close
  | setUpgradeTimelock (epochs : Nat)
  | executeUpgrade
  | vetoUpgrade
  deriving DecidableEq, Repr

/-- The stores a native instruction can write. -/
structure Writes (N : Type) where
  core : StateStore
  native : N
  evmAddresses : HashMap EvmAddress Pubkey

def ChainState.write {N : Type} (s : ChainState N) (w : Writes N) : ChainState N :=
  { s with core := w.core, native := w.native, evmAddresses := w.evmAddresses }

/-- What a transaction is executed with: third-party code, and the programs its instructions call.
    An instruction is executed over a batch above the committed state, with the transaction's compute
    budget and what contract code has used of it so far, and returns what it leaves and the new use.
    Achievements are entries in the storage of one contract. -/
structure Programs (N : Type) where
  engine : EvmEngine
  contractInstruction : Bytes → Except String ContractInstruction
  verifySignatures : ChainState N → Transaction → Nat → Except String Unit
  executeInstruction : ChainState N → ChainState N → Nat → Nat → Instruction →
    Except String (Writes N × Nat)
  mossstakeClaimable : ChainState N → Pubkey → Nat
  updatesFeeDistribution : Transaction → Bool
  validatePendingFeeDistribution : ChainState N → ChainState N → Except String Unit
  awardAchievements : ChainState N → ChainState N → Transaction →
    Except String (HashMap Pubkey ContractStorage)

/-! ## Fees and compute units of a transaction -/

def SHIELD_COMPUTE_UNITS : Nat := 100000
def UNSHIELD_COMPUTE_UNITS : Nat := 150000
def TRANSFER_COMPUTE_UNITS : Nat := 200000

/-- `compute_units_for_system_ix`. -/
def computeUnitsForSystemIx (instructionType : UInt8) : Nat :=
  match instructionType.toNat with
  | 0 | 2 | 3 | 4 | 5 | 19 => 100
  | 1 | 8 | 12 | 28 | 40 => 200
  | 11 | 20 | 29 => 300
  | 6 | 9 | 10 | 13 | 14 | 15 | 16 | 26 | 27 | 30 | 31 | 38 | 39 => 500
  | 7 | 18 | 21 | 22 | 32 | 33 | 34 | 35 | 36 | 37 => 1000
  | 17 => 5000
  | 23 => 100000
  | 24 | 25 => 200000
  | _ => 100

/-- The type byte of a system instruction. -/
def Instruction.systemType (ix : Instruction) : Option UInt8 :=
  if ix.programId = SYSTEM_PROGRAM_ID then ix.data.head? else none

/-- `compute_units_for_tx`. -/
def computeUnitsForTx (t : Transaction) : Nat :=
  (t.message.instructions.map fun ix =>
    ((Instruction.systemType ix).map computeUnitsForSystemIx).getD 0).sum

/-- The system instructions that pay no fee when they come first. -/
def feeExemptFirst (ix : Instruction) : Bool :=
  match Instruction.systemType ix with
  | some kind =>
    decide (kind.toNat ∈ [2, 3, 4, 5, 19, 27, 30, 31])
      || (decide (kind.toNat = 26) && decide ((ix.data[33]?).getD 0 = 0))
  | none => false

section
variable {N : Type}

section
variable (env : Programs N) (config : FeeConfig)

/-- A call of a contract that is exempt from fees. -/
def exemptCall (ix : Instruction) : Bool :=
  decide (ix.programId = CONTRACT_PROGRAM_ID)
    && (match env.contractInstruction ix.data with
      | .ok (.call _ _ _) => true
      | _ => false)
    && (match ix.accounts with
      | _ :: contract :: _ => decide (contract ∈ config.feeExemptContracts)
      | _ => false)

/-- What one instruction adds to the base fee. -/
def instructionFee (ix : Instruction) : Nat :=
  if ix.programId = SYSTEM_PROGRAM_ID then
    match ix.data.head?.map UInt8.toNat with
    | some 6 => config.nftCollectionFee
    | some 7 => config.nftMintFee
    | some 17 => config.contractDeployFee
    | some 23 => SHIELD_COMPUTE_UNITS
    | some 24 => UNSHIELD_COMPUTE_UNITS
    | some 25 => TRANSFER_COMPUTE_UNITS
    | _ => 0
  else if ix.programId = CONTRACT_PROGRAM_ID then
    match env.contractInstruction ix.data with
    | .ok (.deploy _ _) => config.contractDeployFee
    | .ok (.upgrade _) => config.contractUpgradeFee
    | .ok .executeUpgrade => config.contractUpgradeFee
    | _ => 0
  else 0

variable (t : Transaction)

/-- `compute_base_fee`, for transactions whose first instruction is not an EVM transaction. -/
def computeBaseFee (config : FeeConfig) : Nat :=
  if t.message.instructions.head?.any feeExemptFirst then 0
  else if config.feeExemptContracts ≠ [] ∧ t.message.instructions ≠ []
      ∧ t.message.instructions.all (exemptCall env config) then 0
  else (t.message.instructions.map (instructionFee env config)).foldl U64.saturatingAdd config.baseFee

/-- The bytes of an opening brace and of `"Upgrade"` with its quotes. -/
def UPGRADE_HEAD : List UInt8 := [123, 34, 85, 112, 103, 114, 97, 100, 101, 34]

/-- Whether the data is text that starts so. -/
def startsText (data head : List UInt8) : Bool :=
  head.isPrefixOf data && (String.fromUTF8? ⟨data.toArray⟩).isSome

/-- The premium of one instruction, which a failed transaction does not pay. -/
def instructionPremium (ix : Instruction) : Nat :=
  if ix.programId = SYSTEM_PROGRAM_ID then
    match ix.data.head?.map UInt8.toNat with
    | some 6 => config.nftCollectionFee
    | some 7 => config.nftMintFee
    | some 17 => config.contractDeployFee
    | _ => 0
  else if ix.programId = CONTRACT_PROGRAM_ID then
    if startsText ix.data DEPLOY_HEAD then config.contractDeployFee
    else if startsText ix.data UPGRADE_HEAD then config.contractUpgradeFee
    else 0
  else 0

/-- `compute_premium_fee`. -/
def computePremiumFee (config : FeeConfig) : Nat :=
  (t.message.instructions.map (instructionPremium config)).foldl U64.saturatingAdd 0

/-- `is_single_mossstake_claim_tx`. -/
def singleMossstakeClaim : Option Pubkey :=
  match t.message.instructions with
  | [ix] => if Instruction.systemType ix = some 15 then ix.accounts.head? else none
  | _ => none

/-- `should_defer_mossstake_claim_fee`: a claim pays its fee out of what it claims if the payer has
    nothing else. -/
def shouldDeferMossstakeClaimFee (batch : ChainState N) (t : Transaction)
    (feePayer : Pubkey) (totalFee : Nat) : Bool :=
  decide (0 < totalFee ∧ singleMossstakeClaim t = some feePayer
    ∧ batch.core.ledger.spendableOf feePayer < totalFee
    ∧ totalFee ≤ env.mossstakeClaimable batch feePayer)

/-! ## Admission -/

inductive Route where
  | evm
  | native
  deriving DecidableEq, Repr

/-- The checks at the head of `process_transaction_inner`, and where the transaction goes.  The hash
    of a recent block must be among those cached for the whole block. -/
def admission [Crypto] (cachedBlockhashes : List Hash) (store batch : ChainState N)
    (t : Transaction) :
    Except String Route := do
  mapErr (fun e => s!"Invalid transaction structure: {e}") t.validateStructure
  failIf (t.message.recentBlockhash = Hash.zero) "Zero blockhash is not valid for replay protection"
  failIf (batch.hasHotTransaction t.signature = true) "Transaction already processed"
  if t.isEvm then
    failIf (t.isEvmInstruction = false)
      "EVM sentinel blockhash is reserved for EVM-wrapped transactions"
    pure .evm
  else
    failIf (t.message.recentBlockhash ∉ cachedBlockhashes
      ∧ checkDurableNonce t store.core.ledger = false) "Blockhash not found or too old"
    pure (if t.isEvmInstruction then .evm else .native)

/-! ## Native transactions -/

/-- A failed transaction: it has a receipt and pays `fee`. -/
def TxResult.failed (fee : Nat) (error : String) (computeUnitsUsed : Nat) : TxResult :=
  ⟨false, true, fee, some error, computeUnitsUsed⟩

/-- Where the execution of a transaction stands: the batch, what contract code has used, and the
    compute units so far. -/
structure Progress (N : Type) where
  batch : ChainState N
  wasmCu : Nat
  totalCu : Nat

/-- What the instructions of a transaction share. -/
structure TxBudget where
  nativeCu : Nat
  computeBudget : Nat
  totalFee : Nat
  premium : Nat

/-- One instruction; an error is the result of the transaction. -/
def stepInstruction (store : ChainState N) (b : TxBudget) (p : Progress N)
    (ix : Instruction) : Except TxResult (Progress N) := do
  let (writes, wasmCu) ← mapErr (fun e =>
      TxResult.failed (U64.saturatingSub b.totalFee b.premium) s!"Execution error: {e}" p.totalCu)
    (env.executeInstruction store p.batch b.computeBudget p.wasmCu ix)
  let batch := p.batch.write writes
  if ix.programId = CONTRACT_PROGRAM_ID then
    let totalCu := U64.saturatingAdd b.nativeCu wasmCu
    failIf (b.computeBudget < totalCu) (TxResult.failed b.totalFee
      s!"Compute budget exceeded: used {totalCu} CU, budget is {b.computeBudget} CU" totalCu)
    pure ⟨batch, wasmCu, totalCu⟩
  else pure ⟨batch, wasmCu, p.totalCu⟩

/-- The fee, charged unless it is deferred. -/
def chargeUnlessDeferred (store batch : ChainState N) (payer : Pubkey) (totalFee priorityFee : Nat)
    (deferred : Bool) : Except String (ChainState N) :=
  if 0 < totalFee ∧ deferred = false then ChainState.chargeFee store batch payer totalFee priorityFee
  else .ok batch

/-- A deferred fee, charged at the end. -/
def chargeDeferred (store batch : ChainState N) (payer : Pubkey) (totalFee priorityFee : Nat)
    (deferred : Bool) : Except String (ChainState N) :=
  if deferred then ChainState.chargeFee store batch payer totalFee priorityFee else .ok batch

/-- The accounts a transaction names. -/
def namedAccounts : List Pubkey := t.message.instructions.flatMap Instruction.accounts

/-- Rent of the named accounts, at the committed rate. -/
def ChainState.collectRent (store batch : ChainState N) (t : Transaction) :
    Except String (ChainState N) := do
  let ledger ← applyRent store.settings.treasury store.settings.rentRate batch.core.ledger
    (namedAccounts t)
  pure { batch with core := { batch.core with ledger } }

/-- The rest of a native transaction once its fee is charged; an error is the result of a transaction
    whose batch is dropped. -/
def runNative [Crypto] (env : Programs N) (store batch : ChainState N) (t : Transaction)
    (payer : Pubkey) (b : TxBudget) (priorityFee : Nat) (deferred : Bool) :
    Except TxResult (ChainState N × Nat) := do
  let batch ← mapErr (fun e => TxResult.failed b.totalFee s!"Rent error: {e}" 0)
    (ChainState.collectRent store batch t)
  failIf (b.computeBudget < b.nativeCu) (TxResult.failed b.totalFee
    s!"Compute budget exceeded: native instructions use {b.nativeCu} CU, budget is {b.computeBudget} CU"
    b.nativeCu)
  let p ← tryFold (stepInstruction env store b) ⟨batch, 0, b.nativeCu⟩ t.message.instructions
  let batch ← mapErr (fun e =>
      TxResult.invalid s!"Deferred MossStake claim fee error: {e}" p.totalCu)
    (chargeDeferred store p.batch payer b.totalFee priorityFee deferred)
  mapErr (fun e =>
      TxResult.failed (U64.saturatingSub b.totalFee b.premium) s!"Execution error: {e}" p.totalCu)
    (if env.updatesFeeDistribution t then env.validatePendingFeeDistribution store batch else .ok ())
  let contractStorage ← mapErr (fun e =>
      TxResult.failed (U64.saturatingSub b.totalFee b.premium)
        s!"Achievement state update error: {e}" p.totalCu)
    (env.awardAchievements store batch t)
  pure (ChainState.putTransaction { batch with core := { batch.core with contractStorage } } t,
    p.totalCu)

/-- What the transaction brings with it. -/
def txBudget : TxBudget where
  nativeCu := computeUnitsForTx t
  computeBudget := t.message.effectiveComputeBudget.toNat
  totalFee := U64.saturatingAdd (computeBaseFee env t config) (computePriorityFee t)
  premium := computePremiumFee t config

end

/-- The native part of `process_transaction_inner`: the result, and the batch if it is still
    active. -/
def processNative [Crypto] (env : Programs N) (store batch : ChainState N) (slot : Nat)
    (t : Transaction) (payer : Pubkey) : TxResult × Option (ChainState N) :=
  match env.verifySignatures store t slot with
  | .error e => (.invalid e 0, some batch)
  | .ok () =>
    let b := txBudget env store.settings.feeConfig t
    let deferred := shouldDeferMossstakeClaimFee env batch t payer b.totalFee
    match chargeUnlessDeferred store batch payer b.totalFee (computePriorityFee t) deferred with
    | .error e => (.invalid s!"Fee error: {e}" 0, some batch)
    | .ok charged =>
      match runNative env store charged t payer b (computePriorityFee t) deferred with
      | .error result => (result, none)
      | .ok (batch, totalCu) => (⟨true, true, b.totalFee, none, totalCu⟩, some batch)

/-- `process_transaction_inner`, in speculative mode. -/
def processTransactionInner [Crypto] (env : Programs N) (cachedBlockhashes : List Hash)
    (store batch : ChainState N) (slot : Nat) (t : Transaction) : TxResult × Option (ChainState N) :=
  match admission cachedBlockhashes store batch t with
  | .error e => (.invalid e 0, some batch)
  | .ok .evm =>
    match processEvmTransaction env.engine store batch t with
    | .error e => (.invalid e 0, some batch)
    | .ok (result, batch) => (result, some batch)
  | .ok .native => processNative env store batch slot t (t.sender.getD ⟨0⟩)

/-! ## Blocks -/

/-- The batch a receipt is stored in: the one execution left, or a fresh one on which a failed
    transaction pays its fee. -/
def receiptBatch (store cumulative : ChainState N) (t : Transaction) (result : TxResult) :
    Option (ChainState N) → Except String (ChainState N)
  | some batch => .ok batch
  | none =>
    if result.success then .error "successful speculative execution lost its state batch"
    else if 0 < result.feePaid then
      ChainState.chargeFee store cumulative (t.sender.getD ⟨0⟩) result.feePaid
        (min (computePriorityFee t) result.feePaid)
    else .ok cumulative

/-- One transaction of a block. -/
def stepBlock [Crypto] (env : Programs N) (store : ChainState N) (slot : Nat)
    (cumulative : ChainState N) (t : Transaction) : TxResult × ChainState N :=
  let (result, active) :=
    processTransactionInner env (store.recentBlockhashes MAX_TX_AGE_BLOCKS) store cumulative slot t
  if result.receiptEligible then
    match receiptBatch store cumulative t result active with
    | .ok batch => (result, batch.putTransaction t)
    | .error e =>
      ({ result with receiptEligible := false, error := some s!"Receipt persistence error: {e}" },
        cumulative)
  else (result, cumulative)

/-- The loop of `process_transactions_speculative_at_slot`: the results, and the batch. -/
def runBlock [Crypto] (env : Programs N) (store : ChainState N) (slot : Nat) :
    ChainState N → List Transaction → List TxResult × ChainState N
  | cumulative, [] => ([], cumulative)
  | cumulative, t :: rest =>
    let (result, next) := stepBlock env store slot cumulative t
    let (results, batch) := runBlock env store slot next rest
    (result :: results, batch)

/-- `process_transactions_speculative_at_slot`. -/
def processTransactionsSpeculativeAtSlot [Crypto] (env : Programs N) (store : ChainState N)
    (txs : List Transaction) (slot : Nat) : List TxResult × ChainState N :=
  runBlock env store slot store txs

end
end Lichen.Processor
