/-
  The state root (`core/src/state/merkle_state.rs`, `core/src/state/restriction_state.rs`).

  `computeStateRoot` is the root of what is committed.  It brings caches up to date on the way, so
  it returns the state as well.  `computeStateRootForBatch` is the root a proposer announces for a
  batch that is not committed yet: the same components, with the batch's overlays laid over the
  caches in memory.
-/
import Lichen.State.StateBatch

open Base
open Lichen.Processor (Account)
namespace Lichen.State
variable [Crypto] [StateCodec]

/-! ## Accounts and contract storage -/

/-- `deserialize_account_check_dormant`. -/
def deserializeAccountCheckDormant (raw : List UInt8) : Bool :=
  let data := match raw with
    | 0xBC :: data => data
    | raw => raw
  match StateCodec.decodeAccount data with
  | some account => account.dormant
  | none => false

/-- Accounts hang at their own key; a dormant one has no leaf. -/
def accountKind : LeafKind Pubkey where
  bytes := Pubkey.bytes
  bytes_inj := fun _ _ h => Pubkey.bytes_inj h
  path := Pubkey.val
  leafOf := fun pubkey value =>
    if deserializeAccountCheckDormant value then none else some (hashTwoParts pubkey.bytes value)
  scanResets := true

/-- Contract storage hangs at the hash of its key. -/
def contractKind : LeafKind (List UInt8) where
  bytes := id
  bytes_inj := fun _ _ h => h
  path := fun fullKey => (Crypto.hash fullKey).val
  leafOf := fun fullKey value => some (hashTwoParts fullKey value)
  scanResets := false

namespace StateStore

variable (db : StateStore) (b : StateBatch)

/-- `uses_sparse_state_commitment`. -/
def usesSparseStateCommitment : Bool :=
  decide (db.schema = .sparseV1 ∨ db.schema = .sparseShieldedV2)

/-- `uses_shielded_state_commitment`. -/
def usesShieldedStateCommitment : Bool := decide (db.schema = .sparseShieldedV2)

/-- `rebuild_sparse_state_commitment_unlocked(false)`. -/
def rebuildSparseStateCommitment : Except String Unit × StateStore :=
  let db := { db with sparseReady := false }
  match db.accounts.rebuildSparse accountKind with
  | .error e => (.error e, db)
  | .ok accounts =>
      let db := { db with accounts }
      match db.contractStorage.rebuildSparse contractKind with
      | .error e => (.error e, db)
      | .ok contractStorage => (.ok (), { db with contractStorage, sparseReady := true })

/-- The first step of the two `compute_sparse_*_root`. -/
def ensureSparseReady : Except String Unit × StateStore :=
  if db.sparseReady then (.ok (), db) else db.rebuildSparseStateCommitment

end StateStore

/-! ## One section -/

/-- A section of the store with a tree over its rows.  The functions of the source come in pairs, for
    the accounts and for the contract storage, that differ in the column families and the leaves. -/
structure Section (K : Type) where
  kind : LeafKind K
  read : StateStore → MerkleCf K
  write : StateStore → MerkleCf K → StateStore

def accountsSection : Section Pubkey :=
  ⟨accountKind, StateStore.accounts, fun db accounts => { db with accounts }⟩

def contractSection : Section (List UInt8) :=
  ⟨contractKind, StateStore.contractStorage, fun db contractStorage => { db with contractStorage }⟩

namespace Section

variable {K : Type} [DecidableEq K] (sec : Section K) (db : StateStore)

/-- `compute_sparse_accounts_root`, `compute_sparse_contract_storage_root`. -/
def computeSparseRoot : Except String Hash × StateStore :=
  match db.ensureSparseReady with
  | (.error e, db) => (.error e, db)
  | (.ok _, db) =>
      let (root, s) := (sec.read db).computeSparseRoot sec.kind
      (root, sec.write db s)

/-- `compute_accounts_root`, `compute_contract_storage_root`. -/
def computeRoot : Hash × StateStore :=
  if db.usesSparseStateCommitment then
    match sec.computeSparseRoot db with
    | (.ok root, db) => (root, db)
    | (.error _, db) =>
        let (root, s) := (sec.read db).fullScan sec.kind
        (root, sec.write db s)
  else
    -- the shadow tree follows; an error there is only logged
    let db := if db.sparseReady then (sec.computeSparseRoot db).2 else db
    let (root, s) := (sec.read db).computeOrderedRoot sec.kind
    (root, sec.write db s)

/-- `compute_accounts_root_for_batch`, `compute_contract_storage_root_for_batch`; `untouched` if the
    batch has nothing for the section. -/
def computeRootForBatch (untouched : Bool) (staged : HashMap K (Option Hash)) : Hash × StateStore :=
  if untouched then sec.computeRoot db
  else
    let (_, db) := sec.computeRoot db
    ((sec.read db).orderedRootForBatch sec.kind staged, db)

/-- `compute_sparse_accounts_root_for_batch`, `compute_sparse_contract_storage_root_for_batch`. -/
def computeSparseRootForBatch (staged : HashMap K (Option Hash)) : Except String Hash × StateStore :=
  match sec.computeSparseRoot db with
  | (.error e, db) => (.error e, db)
  | (.ok canonicalRoot, db) => ((sec.read db).sparseRootForBatch sec.kind canonicalRoot staged, db)

/-- The part of `compute_state_root_for_batch` for the section. -/
def proposalRoot (untouched : Bool) (staged : HashMap K (Option Hash)) : Hash × StateStore :=
  if db.usesSparseStateCommitment then
    match sec.computeSparseRootForBatch db staged with
    | (.ok root, db) => (root, db)
    | (.error _, db) => sec.computeRootForBatch db untouched staged
  else sec.computeRootForBatch db untouched staged

end Section

namespace StateStore

variable (db : StateStore) (b : StateBatch)

/-- `compute_accounts_root`. -/
def computeAccountsRoot : Hash × StateStore := accountsSection.computeRoot db

/-- `compute_contract_storage_root`. -/
def computeContractStorageRoot : Hash × StateStore := contractSection.computeRoot db

/-! ## The other components -/

/-- The root over a whole column family (`compute_cf_kv_root`, `compute_restrictions_root`). -/
def cfKvRoot {K : Type} [DecidableEq K] (bytes : K → List UInt8) (rows : HashMap K (List UInt8)) :
    Hash :=
  merkleRootFromLeaves ((rows.inOrder bytes).map fun row => hashTwoParts (bytes row.1) row.2)

/-- The leaves of a column family with staged rows inserted (`collect_cf_kv_leaf_map` and the
    insertions after it), and the root over them. -/
def cfKvRootForBatch {K X : Type} [DecidableEq K] (bytes : K → List UInt8)
    (rows : HashMap K (List UInt8)) (staged : HashMap K X) (value : X → List UInt8) : Hash :=
  let leaves := rows.mapValues fun key row => hashTwoParts (bytes key) row
  let leaves := staged.toList.foldl
    (fun leaves e => leaves.put e.1 (hashTwoParts (bytes e.1) (value e.2))) leaves
  merkleRootFromLeaves ((leaves.inOrder bytes).map Prod.snd)

/-- `b"state"`, the one key of the shielded pool column family. -/
def shieldedPoolKey : List UInt8 := [115, 116, 97, 116, 101]

/-- `compute_cf_kv_root(CF_SHIELDED_POOL)`. -/
def shieldedPoolRoot (row : Option (List UInt8)) : Hash :=
  merkleRootFromLeaves (row.toList.map fun value => hashTwoParts shieldedPoolKey value)

/-- `compose_shielded_state_root`, with `SHIELDED_STATE_ROOT_PREFIX`. -/
def composeShieldedStateRoot (poolRoot commitmentsRoot notePayloadsRoot nullifiersRoot : Hash) :
    Hash :=
  Crypto.hash (0x51 :: (poolRoot.bytes ++ (commitmentsRoot.bytes ++ (notePayloadsRoot.bytes
    ++ nullifiersRoot.bytes))))

/-- `compute_shielded_state_root`. -/
def computeShieldedStateRoot : Hash :=
  composeShieldedStateRoot (shieldedPoolRoot db.shieldedPool)
    (cfKvRoot u64Bytes db.shieldedCommitments) (cfKvRoot u64Bytes db.shieldedNotePayloads)
    (cfKvRoot arrayBytes db.shieldedNullifiers)

/-- `compute_shielded_state_root_for_batch`. -/
def computeShieldedStateRootForBatch : Hash :=
  let poolRoot := match b.shieldedPoolOverlay with
    | some pool => shieldedPoolRoot (some (StateCodec.encodeShieldedPool pool))
    | none => shieldedPoolRoot db.shieldedPool
  let commitmentsRoot :=
    if b.shieldedCommitmentOverlay.isEmpty then cfKvRoot u64Bytes db.shieldedCommitments
    else cfKvRootForBatch u64Bytes db.shieldedCommitments b.shieldedCommitmentOverlay arrayBytes
  let notePayloadsRoot :=
    if b.shieldedNotePayloadOverlay.isEmpty then cfKvRoot u64Bytes db.shieldedNotePayloads
    else cfKvRootForBatch u64Bytes db.shieldedNotePayloads b.shieldedNotePayloadOverlay id
  let nullifiersRoot :=
    if b.spentNullifierOverlay.isEmpty then cfKvRoot arrayBytes db.shieldedNullifiers
    else cfKvRootForBatch arrayBytes db.shieldedNullifiers b.spentNullifierOverlay fun _ => [0x01]
  composeShieldedStateRoot poolRoot commitmentsRoot notePayloadsRoot nullifiersRoot

/-- `get_stake_pool`. -/
def getStakePool : Except String Staking.StakePool :=
  match db.stakePool with
  | some data => Staking.StakePool.fromStorageBytes StateCodec.stakePool data
  | none => .ok Staking.StakePool.new

/-- `StakePool::canonical_hash`. -/
def stakePoolHash (pool : Staking.StakePool) : Hash := Crypto.hash (StateCodec.stakePoolRow pool)

/-- `compute_stake_pool_hash`. -/
def computeStakePoolHash : Hash :=
  match db.getStakePool with
  | .ok pool => stakePoolHash pool
  | .error _ => Hash.zero

/-- `canonical_hash` or `legacy_canonical_hash`, by replay mode. -/
def mossstakePoolHash (pool : MossPool) : Hash :=
  if db.replayMode = .SlotOnly then Crypto.hash (StateCodec.mossPoolRow pool)
  else Crypto.hash (StateCodec.legacyMossPoolRow pool)

/-- `get_mossstake_pool`. -/
def getMossstakePool : Except String MossPool :=
  match db.mossStakePool with
  | some data => okOr (StateCodec.decodeMossPool data) "Failed to deserialize MossStake pool"
  | none => .ok StateCodec.newMossPool

/-- `compute_mossstake_pool_hash`. -/
def computeMossstakePoolHash : Hash :=
  match db.getMossstakePool with
  | .ok pool => db.mossstakePoolHash pool
  | .error _ => Hash.zero

/-- `compute_restrictions_root`. -/
def computeRestrictionsRoot : Hash := cfKvRoot u64Bytes db.restrictions

/-- `compute_restrictions_root_for_batch`. -/
def computeRestrictionsRootForBatch : Hash :=
  cfKvRootForBatch u64Bytes db.restrictions b.restrictionOverlay StateCodec.encodeRestriction

/-! ## The composite root -/

/-- `state_root_prefix_for_commitment`. -/
def stateRootPrefix (schema : CommitmentSchema) (includeRestrictions : Bool) : UInt8 :=
  match schema, includeRestrictions with
  | .sparseShieldedV2, true => 0x23
  | .sparseShieldedV2, false => 0x22
  | .sparseV1, true => 0x13
  | .sparseV1, false => 0x12
  | .orderedV0, true => 0x03
  | .orderedV0, false => 0x02

/-- `compose_state_root_with_restrictions_root`. -/
def composeStateRoot (accountsRoot contractRoot stakePoolHash mossstakePoolHash :
    Hash) (restrictionsRoot shieldedRoot : Option Hash) : Hash :=
  Crypto.hash (stateRootPrefix db.schema db.includeRestrictions :: (accountsRoot.bytes
    ++ (contractRoot.bytes ++ (stakePoolHash.bytes ++ (mossstakePoolHash.bytes
      ++ ((restrictionsRoot.toList.flatMap Hash.bytes) ++ shieldedRoot.toList.flatMap Hash.bytes))))))

/-- `compute_state_root`. -/
def computeStateRoot : Hash × StateStore :=
  let (accountsRoot, db) := db.computeAccountsRoot
  let (contractRoot, db) := db.computeContractStorageRoot
  let restrictionsRoot := if db.includeRestrictions then some db.computeRestrictionsRoot else none
  let shieldedRoot :=
    if db.usesShieldedStateCommitment then some db.computeShieldedStateRoot else none
  (db.composeStateRoot accountsRoot contractRoot db.computeStakePoolHash
    db.computeMossstakePoolHash restrictionsRoot shieldedRoot, db)

/-! ## The root of a proposal -/

/-- The leaves of the overlaid accounts. -/
def stagedAccountLeaves : HashMap Pubkey (Option Hash) :=
  b.accountOverlay.mapValues fun pubkey account =>
    if account.dormant then none
    else some (hashTwoParts pubkey.bytes (serializedAccountValue account))

/-- The leaves of the overlaid contract storage. -/
def stagedContractLeaves : HashMap (List UInt8) (Option Hash) :=
  b.contractStorageOverlay.mapValues fun fullKey value => value.map (hashTwoParts fullKey)

/-- The account part of `compute_state_root_for_batch`. -/
def proposalAccountsRoot : Hash × StateStore :=
  accountsSection.proposalRoot db b.accountOverlay.isEmpty (stagedAccountLeaves b)

/-- The contract part of `compute_state_root_for_batch`. -/
def proposalContractRoot : Hash × StateStore :=
  contractSection.proposalRoot db b.contractStorageOverlay.isEmpty (stagedContractLeaves b)

/-- `compute_state_root_for_batch`. -/
def computeStateRootForBatch : Hash × StateStore :=
  let (accountsRoot, db) := db.proposalAccountsRoot b
  let (contractRoot, db) := db.proposalContractRoot b
  let stakePoolHash := match b.stakePoolOverlay with
    | some pool => stakePoolHash pool
    | none => db.computeStakePoolHash
  let mossstakePoolHash := match b.mossstakePoolOverlay with
    | some pool => db.mossstakePoolHash pool
    | none => db.computeMossstakePoolHash
  let restrictionsRoot :=
    if db.includeRestrictions && !b.restrictionOverlay.isEmpty then
      some (db.computeRestrictionsRootForBatch b)
    else if db.includeRestrictions then some db.computeRestrictionsRoot
    else none
  let shieldedRoot :=
    if db.usesShieldedStateCommitment then some (db.computeShieldedStateRootForBatch b) else none
  (db.composeStateRoot accountsRoot contractRoot stakePoolHash mossstakePoolHash restrictionsRoot
    shieldedRoot, db)

/-! ## Changing the schema -/

/-- `set_state_commitment_schema`. -/
def setStateCommitmentSchema (schema : CommitmentSchema) :
    Except String StateStore :=
  if schema ≠ .orderedV0 ∧ db.sparseReady = false then
    .error "Sparse state commitment must be rebuilt before activation"
  else .ok { db with schema }

end StateStore
end Lichen.State
