/-
  What a validator checks of a proposal before it hands it to the engine
  (`validate_consensus_proposal_before_prevote` in `validator/src/main.rs`, with
  `validate_bft_proposal_limits` of `block_producer.rs` and the Merkle root of `core/src/block.rs`).

  The node's database is a record of the answers it gives (`StateStore`), `bincode` is the record
  `BlockCodec`: what the checks do with them is all here, in their order and with their messages.

  The block's timestamp is not among what is checked.
-/
import Lichen.Core.Certificate
import Lichen.Core.BftTime

namespace Lichen

/-! ## Limits (`block_producer.rs`) -/

def BFT_PROPOSAL_TRANSACTION_LIMIT : Nat := 16

def BFT_PROPOSAL_TOTAL_TRANSACTION_LIMIT : Nat := BFT_PROPOSAL_TRANSACTION_LIMIT + 1

def BFT_PROPOSAL_COMPUTE_LIMIT : Nat := 2 * MAX_COMPUTE_BUDGET.toNat

/-- The loop over the user transactions, with the count and the compute units so far. -/
def userLimits : List Transaction → Nat → Nat → Except String Unit
  | [], _, _ => .ok ()
  | t :: ts, userTransactions, aggregateCompute =>
    if BFT_PROPOSAL_TRANSACTION_LIMIT < userTransactions + 1 then
      .error ("proposal carries " ++ toString (userTransactions + 1)
        ++ " user transactions; limit is " ++ toString BFT_PROPOSAL_TRANSACTION_LIMIT)
    else
      let aggregate := aggregateCompute + t.message.effectiveComputeBudget.toNat
      if 2 ^ 64 ≤ aggregate then .error "proposal aggregate compute budget overflowed"
      else if BFT_PROPOSAL_COMPUTE_LIMIT < aggregate then
        .error ("proposal declares " ++ toString aggregate ++ " aggregate compute units; limit is "
          ++ toString BFT_PROPOSAL_COMPUTE_LIMIT)
      else userLimits ts (userTransactions + 1) aggregate

def userTransactions (block : Block) : List Transaction :=
  block.transactions.filter fun t => !t.isConsensus

def validateBftProposalLimits (block : Block) : Except String Unit :=
  if BFT_PROPOSAL_TOTAL_TRANSACTION_LIMIT < block.transactions.length then
    .error ("proposal carries " ++ toString block.transactions.length
      ++ " total transaction entries; limit is " ++ toString BFT_PROPOSAL_TOTAL_TRANSACTION_LIMIT)
  else userLimits (userTransactions block) 0 0

/-! ## The transaction root (`block.rs`) -/

section
variable [Crypto]

/-- `Transaction::hash`. -/
def Transaction.hash (codec : BlockCodec) (t : Transaction) : Hash :=
  Crypto.hash (codec.serializeTransaction t)

def merkleLeaf (txHash : Hash) : Hash := Crypto.hash (0x00 :: txHash.bytes)

def merkleNode (left right : Hash) : Hash := Crypto.hash (0x01 :: (left.bytes ++ right.bytes))

/-- One level up: an odd last hash is paired with itself. -/
def merkleParents : List Hash → List Hash
  | [] => []
  | [a] => [merkleNode a a]
  | a :: b :: level => merkleNode a b :: merkleParents level

/-- The `while level.len() > 1` loop, for at most `fuel` levels. -/
def merkleUp : Nat → List Hash → Hash
  | _, [] => Hash.zero
  | _, [a] => a
  | 0, a :: _ => a
  | fuel + 1, a :: b :: level => merkleUp fuel (merkleParents (a :: b :: level))

def merkleTxRootFromHashes (txHashes : List Hash) : Hash :=
  merkleUp txHashes.length (txHashes.map merkleLeaf)

/-! ## The checks (`main.rs`) -/

/-- `TxResult`, as far as validation reads it. -/
structure TxResult where
  receiptEligible : Bool
  error : Option String
  feePaid : UInt64

/-- What the node's database answers. -/
structure StateStore where
  getBlock : Hash → Except String (Option Block)
  computeStateRoot : Hash
  /-- how `validate_state_root_with_schema` ends when the computed root is not the block's: the
      detection of another root schema, or the report of the mismatch -/
  detectSchema : UInt64 → Hash → String → Except String Unit
  /-- speculative execution for a producer at a slot: the results, and the root of the batch -/
  speculate : List Transaction → Pubkey → UInt64 → List TxResult × Hash

/-- `validate_state_root_with_schema`, without cold start. -/
def validateStateRootWithSchema (state : StateStore) (slot : UInt64) (blockRoot : Hash)
    (context : String) : Except String Unit :=
  if blockRoot = Hash.zero then
    if slot = 0 then .ok ()
    else .error ("slot " ++ toString slot ++ " " ++ context ++ " missing state-root commitment")
  else if state.computeStateRoot = blockRoot then .ok ()
  else state.detectSchema slot blockRoot context

/-- The first pair that fails a check decides. -/
def firstError {α : Type} (check : α → Option String) (l : List α) : Except String Unit :=
  match l.findSome? check with
  | some e => .error e
  | none => .ok ()

/-- The transactions of one kind, with their indices in the block. -/
def indexed (block : Block) (p : Transaction → Bool) : List (Transaction × Nat) :=
  block.transactions.zipIdx.filter fun t => p t.1

/-- `validate_block_transactions_against_state` with `commit` off and no schema detection. -/
def validateBlockTransactionsAgainstState (state : StateStore) (block : Block) (context : String) :
    Except String Unit := do
  let slot := block.header.slot
  let place := "slot " ++ toString slot ++ " " ++ context
  if slot = 0 then
    return ← validateStateRootWithSchema state slot block.header.stateRoot context
  if block.header.stateRoot = Hash.zero then
    throw (place ++ " missing state-root commitment")
  let executable := indexed block fun t => !t.isConsensus
  if !block.txFeesPaid.isEmpty && block.txFeesPaid.length != block.transactions.length then
    throw (place ++ " fee metadata length mismatch: block has " ++ toString block.txFeesPaid.length
      ++ " entries for " ++ toString block.transactions.length ++ " transactions")
  firstError (fun (_, i) =>
    if (block.txFeesPaid[i]?.getD 0) != 0 then
      some (place ++ " canonical commit transaction has nonzero fee metadata")
    else none) (indexed block Transaction.isConsensus)
  if executable.isEmpty then
    return ← validateStateRootWithSchema state slot block.header.stateRoot context
  let (results, computedRoot) :=
    state.speculate (executable.map Prod.fst) block.header.validator slot
  if computedRoot ≠ block.header.stateRoot then
    throw (place ++ " state-root mismatch: local=" ++ computedRoot.toHex ++ " expected="
      ++ block.header.stateRoot.toHex)
  firstError (fun ((_, i), result) =>
    if result.receiptEligible then none
    else some (place ++ " tx " ++ toString i ++ " is not eligible for a canonical receipt: "
      ++ result.error.getD "unknown error")) (executable.zip results)
  firstError (fun ((_, i), result) =>
    match block.txFeesPaid[i]? with
    | some fee =>
      if fee ≠ result.feePaid then
        some (place ++ " tx " ++ toString i ++ " fee metadata mismatch: block=" ++ toString fee
          ++ " local=" ++ toString result.feePaid)
      else none
    | none => none) (executable.zip results)

def validateBlockPayloadCommitments (codec : BlockCodec) (block : Block) : Except String Unit :=
  let txRoot := merkleTxRootFromHashes (block.transactions.map (Transaction.hash codec))
  if block.header.txRoot ≠ txRoot then
    .error ("block " ++ toString block.header.slot ++ " transaction root mismatch: header="
      ++ block.header.txRoot.toHex ++ " reconstructed=" ++ txRoot.toHex)
  else match indexed block Transaction.isConsensus with
    | [] => .ok ()
    | [(transaction, 0)] =>
      match CanonicalCommitCertificate.fromTransaction codec transaction with
      | .error e => .error e
      | .ok none => .error "canonical commit certificate is missing"
      | .ok (some certificate) =>
        certificate.verifyChildMetadata block.txFeesPaid block.oraclePrices
    | _ => .error ("block " ++ toString block.header.slot
      ++ " has a noncanonical consensus transaction layout")

/-- `ConsensusProposalValidationContext`. -/
structure ConsensusProposalValidationContext where
  expectedParentHash : Hash
  expectedValidatorsHash : Hash
  minValidatorStake : UInt64
  chainId : ChainId

/-- The certificate of the parent, from the height after the first child of genesis on. -/
def validateParentCertificate (codec : BlockCodec) (state : StateStore) (proposal : Proposal)
    (context : ConsensusProposalValidationContext) : Except String Unit :=
  let place := "proposal h=" ++ toString proposal.height ++ " r=" ++ toString proposal.round
    ++ " rejected: "
  let block := proposal.block
  let consensusTransactions := indexed block Transaction.isConsensus
  if proposal.height ≤ 1 then
    if !consensusTransactions.isEmpty then
      .error (place ++ "genesis child must not carry a parent commit certificate")
    else .ok ()
  else match consensusTransactions with
    | [(transaction, 0)] =>
      match CanonicalCommitCertificate.fromTransaction codec transaction with
      | .error e => .error e
      | .ok none => .error "canonical parent commit transaction is missing"
      | .ok (some certificate) => do
        certificate.verifyChildMetadata block.txFeesPaid block.oraclePrices
        match ← state.getBlock context.expectedParentHash with
        | none => throw "canonical parent block is unavailable"
        | some parent =>
          certificate.verifyParent parent context.chainId context.minValidatorStake
          if certificate.parentPostStateRoot ≠ state.computeStateRoot then
            throw (place ++ "parent post-state root " ++ certificate.parentPostStateRoot.toHex
              ++ " does not match local " ++ state.computeStateRoot.toHex)
    | _ => .error (place
      ++ "exactly one canonical parent commit transaction is required at index 0")

/-- The proposal's own fields against the block's, and the block's against the local tip. -/
def validateProposalHeader (proposal : Proposal) (context : ConsensusProposalValidationContext) :
    Except String Unit :=
  let place := "proposal h=" ++ toString proposal.height ++ " r=" ++ toString proposal.round
    ++ " rejected: "
  let header := proposal.block.header
  if header.slot ≠ proposal.height then
    .error (place ++ "block slot " ++ toString header.slot ++ " does not match proposal height")
  else if header.parentHash ≠ context.expectedParentHash then
    .error (place ++ "parent hash " ++ header.parentHash.toHex ++ " does not match local tip "
      ++ context.expectedParentHash.toHex)
  else if header.validatorsHash ≠ context.expectedValidatorsHash then
    .error (place ++ "validators_hash " ++ header.validatorsHash.toHex
      ++ " does not match frozen height set " ++ context.expectedValidatorsHash.toHex)
  else match validateBftProposalLimits proposal.block with
    | .error e => .error (place ++ e)
    | .ok () =>
      if !proposal.block.verifySignatureWithChainId context.chainId then
        .error (place ++ "block signature is invalid")
      else .ok ()

/-- `validate_consensus_proposal_before_prevote`. -/
def validateConsensusProposalBeforePrevote (codec : BlockCodec) (state : StateStore)
    (proposal : Proposal) (context : ConsensusProposalValidationContext) : Except String Unit := do
  validateProposalHeader proposal context
  validateParentCertificate codec state proposal context
  validateBlockPayloadCommitments codec proposal.block
  validateBlockTransactionsAgainstState state proposal.block "consensus proposal"

end
end Lichen
