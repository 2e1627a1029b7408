/-
  Transactions as the processor reads them (`core/src/transaction.rs`, `core/src/processor.rs`), and
  the state it executes them over.

  A transaction is identified by the hash of its whole envelope: signatures, account lists, compute
  budget, blockhash and type all enter it.  `ChainState` is the state store and also a batch over it;
  the stores of the native programs besides accounts and contracts are the parameter `N`.
-/
import Lichen.Core.Certificate
import Lichen.Processor.Fees

open Base
namespace Lichen

/-- Thirty-two bytes `0xFF`. -/
def CONTRACT_PROGRAM_ID : Pubkey := ⟨BitVec.allOnes 256⟩

/-- Thirty-two bytes `0xEE`. -/
def EVM_PROGRAM_ID : Pubkey := ⟨BitVec.ofNat 256 (238 * ((2 ^ 256 - 1) / 255))⟩

/-- Thirty-two bytes `0xEE`. -/
def EVM_SENTINEL_BLOCKHASH : Hash := ⟨BitVec.ofNat 256 (238 * ((2 ^ 256 - 1) / 255))⟩

/-! ## Encoding -/

def bincodeOption : Option (List UInt8) → List UInt8
  | none => [0]
  | some bytes => 1 :: bytes

def Instruction.serialize (ix : Instruction) : List UInt8 :=
  ix.programId.bytes ++ (bincodeSeq Pubkey.bytes ix.accounts ++ bincodeSeq (fun b => [b]) ix.data)

def Message.serialize (m : Message) : List UInt8 :=
  bincodeSeq Instruction.serialize m.instructions ++ (m.recentBlockhash.bytes ++
    (bincodeOption (m.computeBudget.map fun b => leBytes 8 b.toNat) ++
      bincodeOption (m.computeUnitPrice.map fun p => leBytes 8 p.toNat)))

def TransactionType.index : TransactionType → Nat
  | .Native => 0
  | .Evm => 1
  | .Consensus => 2

namespace Transaction

def serialize (t : Transaction) : List UInt8 :=
  bincodeSeq PqSignature.bytes t.signatures ++ (t.message.serialize ++
    leBytes 4 t.txType.index)

/-- `Transaction::signature`, which is `Transaction::hash`: the hash of the whole envelope. -/
def signature [Crypto] (t : Transaction) : Hash := Crypto.hash t.serialize

/-! ## Reading a transaction -/

def isEvm (t : Transaction) : Bool :=
  t.txType == .Evm || decide (t.message.recentBlockhash = EVM_SENTINEL_BLOCKHASH)

/-- `is_evm_instruction`. -/
def isEvmInstruction (t : Transaction) : Bool :=
  match t.message.instructions with
  | [] => false
  | ix :: _ => decide (ix.programId = EVM_PROGRAM_ID)

/-- The first account of the first instruction. -/
def sender (t : Transaction) : Option Pubkey :=
  t.message.instructions.head?.bind fun ix => ix.accounts.head?

end Transaction

def Message.effectiveComputeUnitPrice (m : Message) : Nat :=
  (m.computeUnitPrice.map UInt64.toNat).getD 0

/-! ## Structure -/

def MAX_INSTRUCTIONS_PER_TX : Nat := 64
def MAX_SIGNATURES_PER_TX : Nat := MAX_INSTRUCTIONS_PER_TX
def MAX_INSTRUCTION_DATA : Nat := 204800
def MAX_DEPLOY_INSTRUCTION_DATA : Nat := 4194304
def MAX_TRANSACTION_SERIALIZED_SIZE : Nat := 5 * 1024 * 1024
def MAX_ACCOUNTS_PER_IX : Nat := 64

/-- The bytes of an opening brace and of `"Deploy"` with its quotes. -/
def DEPLOY_HEAD : List UInt8 := [123, 34, 68, 101, 112, 108, 111, 121, 34]

/-- How much data an instruction may carry: deployments and consensus metadata get more. -/
def Instruction.dataLimit (ix : Instruction) (consensus : Bool) : Nat :=
  let isSystemDeploy := ix.programId = SYSTEM_PROGRAM_ID ∧ ix.data.head? = some 17
  let isContractDeploy := ix.programId = CONTRACT_PROGRAM_ID ∧ DEPLOY_HEAD <+: ix.data
  if isSystemDeploy ∨ isContractDeploy ∨ consensus = true then MAX_DEPLOY_INSTRUCTION_DATA
  else MAX_INSTRUCTION_DATA

def Instruction.validateStructure (consensus : Bool) (entry : Instruction × Nat) :
    Except String Unit := do
  let (ix, i) := entry
  failIf (ix.dataLimit consensus < ix.data.length)
    s!"Instruction {i} data too large: {ix.data.length} bytes (max {ix.dataLimit consensus})"
  failIf (ix.accounts = []) s!"Instruction {i} has no accounts"
  failIf (MAX_ACCOUNTS_PER_IX < ix.accounts.length)
    s!"Instruction {i} has too many accounts: {ix.accounts.length} (max {MAX_ACCOUNTS_PER_IX})"

def Transaction.validateStructure (t : Transaction) : Except String Unit := do
  failIf (t.isConsensus = true ∧ t.signatures ≠ [])
    "Consensus transactions must not carry user signatures"
  failIf (MAX_SIGNATURES_PER_TX < t.signatures.length)
    s!"Too many signatures: {t.signatures.length} (max {MAX_SIGNATURES_PER_TX})"
  failIf (t.message.instructions = []) "No instructions"
  failIf (MAX_INSTRUCTIONS_PER_TX < t.message.instructions.length)
    s!"Too many instructions: {t.message.instructions.length} (max {MAX_INSTRUCTIONS_PER_TX})"
  forEach t.message.instructions.zipIdx (Instruction.validateStructure t.isConsensus)
  failIf (MAX_TRANSACTION_SERIALIZED_SIZE < t.serialize.length)
    s!"Transaction serialized size too large: {t.serialize.length} bytes (max {MAX_TRANSACTION_SERIALIZED_SIZE})"

namespace Processor

/-- `compute_priority_fee`. -/
def computePriorityFee (t : Transaction) : Nat :=
  let cuPrice := t.message.effectiveComputeUnitPrice
  if cuPrice = 0 then 0
  else min (t.message.effectiveComputeBudget.toNat * cuPrice / 1000000) U64.MAX

/-! ## The state -/

abbrev EvmAddress := BitVec 160

structure EvmAccount where
  nonce : Nat
  balance : Nat
  code : Bytes
  deriving DecidableEq, Repr

structure EvmReceipt where
  status : Bool
  gasUsed : Nat
  contractAddress : Option EvmAddress
  deriving DecidableEq, Repr

/-- What execution reads of a stored block. -/
structure BlockRef where
  hash : Hash
  timestamp : Nat
  deriving DecidableEq, Repr

/-- The parameters that execution reads from the committed state. -/
structure Settings where
  feeConfig : FeeConfig
  treasury : Option Pubkey
  rentRate : Nat

structure ChainState (N : Type) where
  core : StateStore
  native : N
  settings : Settings
  blocks : HashMap Nat BlockRef
  transactions : HashMap Hash Transaction
  evmAddresses : HashMap EvmAddress Pubkey
  evmAccounts : HashMap EvmAddress EvmAccount
  evmStorage : HashMap (EvmAddress × Nat) Nat
  evmReceipts : HashMap Hash EvmReceipt

def MAX_TX_AGE_BLOCKS : Nat := 300

namespace ChainState

def lastSlot (s : ChainState N) : Nat := s.core.ledger.lastSlot

/-- `get_recent_blockhashes`. -/
def recentBlockhashes (s : ChainState N) (count : Nat) : List Hash :=
  let startSlot := U64.saturatingSub s.lastSlot count
  (List.range' startSlot (s.lastSlot + 1 - startSlot)).filterMap fun slot =>
    (s.blocks.get slot).map BlockRef.hash

/-- `has_hot_transaction`: the transactions of the batch and of hot storage below it. -/
def hasHotTransaction (s : ChainState N) (sig : Hash) : Bool := s.transactions.containsKey sig

def putTransaction [Crypto] (s : ChainState N) (t : Transaction) : ChainState N :=
  { s with transactions := s.transactions.put t.signature t }

/-- `charge_fee_with_priority_in_batch` with the committed configuration. -/
def chargeFee (store batch : ChainState N) (payer : Pubkey) (totalFee priorityFee : Nat) :
    Except String (ChainState N) := do
  let core ← chargeFeeWithPriorityInBatch store.settings.feeConfig store.settings.treasury batch.core
    payer totalFee priorityFee
  pure { batch with core }

end ChainState

structure TxResult where
  success : Bool
  receiptEligible : Bool
  feePaid : Nat
  error : Option String
  computeUnitsUsed : Nat
  deriving DecidableEq, Repr

/-- `make_invalid_result`. -/
def TxResult.invalid (error : String) (computeUnitsUsed : Nat) : TxResult :=
  ⟨false, false, 0, some error, computeUnitsUsed⟩

/-!
  Durable nonces (`core/src/processor/nonce_handlers.rs`, `check_durable_nonce` in
  `core/src/processor.rs`).

  A nonce account stores the hash of a block.  A transaction whose first instruction advances the
  account may name that hash instead of a recent one; advancing replaces it by the hash of the latest
  block.
-/

def NONCE_ACCOUNT_MARKER : UInt8 := 0xDA

structure NonceState where
  authority : Pubkey
  blockhash : Hash
  feePerSignature : Nat
  deriving DecidableEq, Repr

namespace NonceState

/-- `decode_nonce_state`; trailing bytes are refused. -/
def decode : List UInt8 → Except String NonceState
  | marker :: fields =>
    if marker ≠ NONCE_ACCOUNT_MARKER then .error "Not a nonce account"
    else if fields.length ≠ 72 then .error "Invalid nonce state"
    else .ok ⟨⟨ofArray (fields.take 32)⟩, ⟨ofArray ((fields.drop 32).take 32)⟩,
      ofLeBytes ((fields.drop 64).take 8)⟩
  | [] => .error "Not a nonce account"

end NonceState

/-- The hash a nonce account stores, if it is one. -/
def nonceHash (a : Account) : Option Hash :=
    (NonceState.decode a.data).toOption.map NonceState.blockhash

/-- The nonce account of a transaction whose first instruction advances one. -/
def durableNonceOf (t : Transaction) : Option Pubkey :=
  match t.message.instructions with
  | ix :: _ =>
    if ix.programId = SYSTEM_PROGRAM_ID ∧ ix.data.take 2 = [28, 1] then ix.accounts.tail.head?
    else none
  | [] => none

/-- `check_durable_nonce`: the hash stored in the committed account is the one the transaction names. -/
def checkDurableNonce (t : Transaction) (s : Ledger) : Bool :=
  match durableNonceOf t with
  | none => false
  | some noncePk =>
    match s.getAccount noncePk with
    | none => false
    | some account => decide (nonceHash account = some t.message.recentBlockhash)

end Processor
end Lichen
