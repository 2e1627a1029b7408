/-
  The committed state the state root is about, and the batch that stages changes to it
  (`core/src/state/batch_state.rs`, with the column families of `core/src/state.rs`).

  A `StateBatch` keeps everything twice: a list of raw writes that `commitBatch` hands to the
  database, and overlays in which its own readers, and the root of a proposal, look first.  A put
  or a delete adds to both.  `commitBatch` also stages the dirty markers: one for each overlaid
  account and each touched contract key.

  Serialisation is third-party (`bincode`, `serde_json`); it enters as `StateCodec`, with the types
  whose contents the root code never looks at.
-/
import Lichen.State.MerkleCache
import Lichen.Processor.Account
import Lichen.Staking.Valid

open Base HashMap
open Lichen.Processor (Account)
open Lichen.Staking (Bincode)
namespace Lichen.State

/-! ## Serialised values -/

/-- The encoders behind the stored values.  `stakePoolRow`, `mossPoolRow` and `legacyMossPoolRow` are
    the byte strings `canonical_hash` and `legacy_canonical_hash` hash. -/
class StateCodec where
  MossPool : Type
  Restriction : Type
  ShieldedPool : Type
  encodeAccount : Account → List UInt8
  decodeAccount : List UInt8 → Option Account
  stakePool : Bincode
  stakePoolRow : Staking.StakePool → List UInt8
  encodeMossPool : MossPool → List UInt8
  decodeMossPool : List UInt8 → Option MossPool
  newMossPool : MossPool
  clearWallClockTimes : MossPool → MossPool
  mossPoolRow : MossPool → List UInt8
  legacyMossPoolRow : MossPool → List UInt8
  restrictionId : Restriction → UInt64
  encodeRestriction : Restriction → List UInt8
  encodeShieldedPool : ShieldedPool → List UInt8

export StateCodec (MossPool Restriction ShieldedPool)

/-- `u64::to_be_bytes`. -/
def u64Bytes (n : UInt64) : List UInt8 := beBytes 8 n.toNat

theorem u64Bytes_inj : Function.Injective u64Bytes := by
  intro a b h
  exact UInt64.toNat_inj.mp (beBytes_inj a.toNat_lt b.toNat_lt h)

/-- A 32-byte array. -/
def arrayBytes (a : BitVec 256) : List UInt8 := beBytes 32 a.toNat

theorem arrayBytes_inj : Function.Injective arrayBytes := by
  intro a b h
  have hlt : ∀ x : BitVec 256, x.toNat < 256 ^ 32 := fun x => x.isLt
  exact BitVec.eq_of_toNat_eq (beBytes_inj (hlt a) (hlt b) h)

/-! ## The committed state -/

/-- `STATE_COMMITMENT_SCHEMA_*`. -/
inductive CommitmentSchema where
  | orderedV0
  | sparseV1
  | sparseShieldedV2
  deriving DecidableEq, Repr

/-- `MossStakeReplayMode`. -/
inductive MossStakeReplayMode where
  | SlotOnly
  | LegacyWallClock
  deriving DecidableEq, Repr

/-- The column families and the `CF_STATS` keys that the root reads.  `includeRestrictions` is
    `get_state_root_schema`, `replayMode` what `mossstake_replay_mode` finds for the last slot. -/
structure StateStore where
  accounts : MerkleCf Pubkey
  contractStorage : MerkleCf (List UInt8)
  sparseReady : Bool
  schema : CommitmentSchema
  includeRestrictions : Bool
  replayMode : MossStakeReplayMode
  stakePool : Option (List UInt8)
  mossStakePool : Option (List UInt8)
  restrictions : HashMap UInt64 (List UInt8)
  shieldedPool : Option (List UInt8)
  shieldedCommitments : HashMap UInt64 (List UInt8)
  shieldedNotePayloads : HashMap UInt64 (List UInt8)
  shieldedNullifiers : HashMap (BitVec 256) (List UInt8)

/-- A raw put or delete of a `WriteBatch`. -/
inductive Write where
  | account (pubkey : Pubkey) (value : List UInt8)
  | contractStorage (key : List UInt8) (value : Option (List UInt8))
  | stakePool (value : List UInt8)
  | mossStakePool (value : List UInt8)
  | restriction (id : UInt64) (value : List UInt8)
  | shieldedPool (value : List UInt8)
  | shieldedCommitment (index : UInt64) (value : List UInt8)
  | shieldedNotePayload (index : UInt64) (value : List UInt8)
  | shieldedNullifier (nullifier : BitVec 256) (value : List UInt8)
  deriving DecidableEq

namespace MerkleCf

variable [DecidableEq K]

/-- Put or delete a row. -/
def writeRow (s : MerkleCf K) (key : K) : Option (List UInt8) → MerkleCf K
  | some value => { s with rows := s.rows.put key value }
  | none => { s with rows := s.rows.remove key }

/-- `stage_account_dirty_marker`, `stage_contract_storage_dirty_marker`. -/
def stageDirtyMarker (s : MerkleCf K) (key : K) : MerkleCf K :=
  { s with dirty := s.dirty.put key (), dirtyCount := some 1 }

end MerkleCf

namespace StateStore

/-- One write. -/
def write (db : StateStore) : Write → StateStore
  | .account pubkey value => { db with accounts := db.accounts.writeRow pubkey (some value) }
  | .contractStorage key value =>
      { db with contractStorage := db.contractStorage.writeRow key value }
  | .stakePool value => { db with stakePool := some value }
  | .mossStakePool value => { db with mossStakePool := some value }
  | .restriction id value => { db with restrictions := db.restrictions.put id value }
  | .shieldedPool value => { db with shieldedPool := some value }
  | .shieldedCommitment index value =>
      { db with shieldedCommitments := db.shieldedCommitments.put index value }
  | .shieldedNotePayload index value =>
      { db with shieldedNotePayloads := db.shieldedNotePayloads.put index value }
  | .shieldedNullifier nullifier value =>
      { db with shieldedNullifiers := db.shieldedNullifiers.put nullifier value }

end StateStore

/-! ## The batch -/

section
variable [StateCodec]

/-- `StateBatch`: the writes, oldest first, and the overlays. -/
structure StateBatch where
  batch : List Write
  accountOverlay : HashMap Pubkey Account
  contractStorageOverlay : HashMap (List UInt8) (Option (List UInt8))
  dirtyContractKeys : List (List UInt8)
  stakePoolOverlay : Option Staking.StakePool
  mossstakePoolOverlay : Option MossPool
  restrictionOverlay : HashMap UInt64 Restriction
  shieldedPoolOverlay : Option ShieldedPool
  shieldedCommitmentOverlay : HashMap UInt64 (BitVec 256)
  shieldedNotePayloadOverlay : HashMap UInt64 (List UInt8)
  spentNullifierOverlay : HashMap (BitVec 256) Unit

/-- The value `put_account` writes: a tag byte and the bincode of the account. -/
def serializedAccountValue (account : Account) : List UInt8 :=
  0xBC :: StateCodec.encodeAccount account

namespace StateBatch

/-- `begin_batch`. -/
def new : StateBatch where
  batch := []
  accountOverlay := ∅
  contractStorageOverlay := ∅
  dirtyContractKeys := []
  stakePoolOverlay := none
  mossstakePoolOverlay := none
  restrictionOverlay := ∅
  shieldedPoolOverlay := none
  shieldedCommitmentOverlay := ∅
  shieldedNotePayloadOverlay := ∅
  spentNullifierOverlay := ∅

variable (b : StateBatch)

/-- Add a write. -/
def push (w : Write) : StateBatch := { b with batch := b.batch ++ [w] }

def putAccount (pubkey : Pubkey) (account : Account) : StateBatch :=
  let b := b.push (.account pubkey (serializedAccountValue account))
  { b with accountOverlay := b.accountOverlay.put pubkey account }

/-- `put_contract_storage` and `delete_contract_storage`, which differ in the value. -/
def writeContractStorage (program : Pubkey) (storageKey : List UInt8)
    (value : Option (List UInt8)) : StateBatch :=
  let key := program.bytes ++ storageKey
  let b := b.push (.contractStorage key value)
  { b with
    contractStorageOverlay := b.contractStorageOverlay.put key value
    dirtyContractKeys := b.dirtyContractKeys ++ [key] }

def putContractStorage (program : Pubkey) (storageKey value : List UInt8) :
    StateBatch :=
  b.writeContractStorage program storageKey (some value)

def deleteContractStorage (program : Pubkey) (storageKey : List UInt8) :
    StateBatch :=
  b.writeContractStorage program storageKey none

def putStakePool (pool : Staking.StakePool) : StateBatch :=
  let b := b.push (.stakePool (pool.storageBytes StateCodec.stakePool))
  { b with stakePoolOverlay := some pool }

def putMossstakePoolWithReplayMode (pool : MossPool)
    (replayMode : MossStakeReplayMode) : StateBatch :=
  let normalizedPool :=
    if replayMode = .SlotOnly then StateCodec.clearWallClockTimes pool else pool
  let b := b.push (.mossStakePool (StateCodec.encodeMossPool normalizedPool))
  { b with mossstakePoolOverlay := some normalizedPool }

/-- `put_restriction`, once the record has passed its checks (a refused record changes nothing). -/
def putRestriction (record : Restriction) : StateBatch :=
  let id := StateCodec.restrictionId record
  let b := b.push (.restriction id (StateCodec.encodeRestriction record))
  { b with restrictionOverlay := b.restrictionOverlay.put id record }

def insertShieldedCommitment (index : UInt64) (commitment : BitVec 256) :
    StateBatch :=
  let b := b.push (.shieldedCommitment index (arrayBytes commitment))
  { b with shieldedCommitmentOverlay := b.shieldedCommitmentOverlay.put index commitment }

def insertShieldedNotePayload (index : UInt64) (payload : List UInt8) :
    StateBatch :=
  let b := b.push (.shieldedNotePayload index payload)
  { b with shieldedNotePayloadOverlay := b.shieldedNotePayloadOverlay.put index payload }

def markNullifierSpent (nullifier : BitVec 256) : StateBatch :=
  let b := b.push (.shieldedNullifier nullifier [0x01])
  { b with spentNullifierOverlay := b.spentNullifierOverlay.put nullifier () }

def putShieldedPoolState (state : ShieldedPool) : StateBatch :=
  let b := b.push (.shieldedPool (StateCodec.encodeShieldedPool state))
  { b with shieldedPoolOverlay := some state }

end StateBatch

/-- A put or delete on a batch. -/
inductive BatchOp where
  | putAccount (pubkey : Pubkey) (account : Account)
  | putContractStorage (program : Pubkey) (storageKey value : List UInt8)
  | deleteContractStorage (program : Pubkey) (storageKey : List UInt8)
  | putStakePool (pool : Staking.StakePool)
  | putMossstakePool (pool : MossPool) (replayMode : MossStakeReplayMode)
  | putRestriction (record : Restriction)
  | insertShieldedCommitment (index : UInt64) (commitment : BitVec 256)
  | insertShieldedNotePayload (index : UInt64) (payload : List UInt8)
  | markNullifierSpent (nullifier : BitVec 256)
  | putShieldedPoolState (state : ShieldedPool)

namespace StateBatch

def apply (b : StateBatch) : BatchOp → StateBatch
  | .putAccount pubkey account => b.putAccount pubkey account
  | .putContractStorage program storageKey value => b.putContractStorage program storageKey value
  | .deleteContractStorage program storageKey => b.deleteContractStorage program storageKey
  | .putStakePool pool => b.putStakePool pool
  | .putMossstakePool pool replayMode => b.putMossstakePoolWithReplayMode pool replayMode
  | .putRestriction record => b.putRestriction record
  | .insertShieldedCommitment index commitment => b.insertShieldedCommitment index commitment
  | .insertShieldedNotePayload index payload => b.insertShieldedNotePayload index payload
  | .markNullifierSpent nullifier => b.markNullifierSpent nullifier
  | .putShieldedPoolState state => b.putShieldedPoolState state

/-- The batch that a list of operations builds. -/
def build (ops : List BatchOp) : StateBatch := ops.foldl apply new

end StateBatch

/-- `commit_batch`: the writes in order, then the dirty markers. -/
def StateStore.commitBatch (db : StateStore) (b : StateBatch) : StateStore :=
  let db := b.batch.foldl StateStore.write db
  { db with
    accounts := b.accountOverlay.keys.foldl MerkleCf.stageDirtyMarker db.accounts
    contractStorage := b.dirtyContractKeys.foldl MerkleCf.stageDirtyMarker db.contractStorage }

/-! ## What a batch stages -/

/-- A map with staged values laid over it. -/
def overlaid {K X V : Type} [DecidableEq K] (staged : HashMap K X) (value : X → Option V)
    (rows : HashMap K V) (key : K) : Option V :=
  match staged.get key with
  | some x => value x
  | none => rows.get key

/-- An optional value with a staged one laid over it. -/
def staged {X V : Type} (overlay : Option X) (value : X → V) (stored : Option V) : Option V :=
  match overlay with
  | some x => some (value x)
  | none => stored

/-- **Overlays and writes say the same**: applied to any state, the writes leave what the overlays
    describe, and nothing else of the state changes. -/
structure StateBatch.Agrees (b : StateBatch) : Prop where
  accounts : ∀ db : StateStore, ∀ key, (b.batch.foldl StateStore.write db).accounts.rows.get key
    = overlaid b.accountOverlay (fun a => some (serializedAccountValue a)) db.accounts.rows key
  contractStorage : ∀ db : StateStore, ∀ key,
    (b.batch.foldl StateStore.write db).contractStorage.rows.get key
      = overlaid b.contractStorageOverlay id db.contractStorage.rows key
  stakePool : ∀ db : StateStore, (b.batch.foldl StateStore.write db).stakePool
    = staged b.stakePoolOverlay (Staking.StakePool.storageBytes StateCodec.stakePool) db.stakePool
  mossStakePool : ∀ db : StateStore, (b.batch.foldl StateStore.write db).mossStakePool
    = staged b.mossstakePoolOverlay StateCodec.encodeMossPool db.mossStakePool
  restrictions : ∀ db : StateStore, ∀ id, (b.batch.foldl StateStore.write db).restrictions.get id
    = overlaid b.restrictionOverlay (fun r => some (StateCodec.encodeRestriction r))
        db.restrictions id
  shieldedPool : ∀ db : StateStore, (b.batch.foldl StateStore.write db).shieldedPool
    = staged b.shieldedPoolOverlay StateCodec.encodeShieldedPool db.shieldedPool
  shieldedCommitments : ∀ db : StateStore, ∀ index,
    (b.batch.foldl StateStore.write db).shieldedCommitments.get index
      = overlaid b.shieldedCommitmentOverlay (fun c => some (arrayBytes c))
          db.shieldedCommitments index
  shieldedNotePayloads : ∀ db : StateStore, ∀ index,
    (b.batch.foldl StateStore.write db).shieldedNotePayloads.get index
      = overlaid b.shieldedNotePayloadOverlay some db.shieldedNotePayloads index
  shieldedNullifiers : ∀ db : StateStore, ∀ nullifier,
    (b.batch.foldl StateStore.write db).shieldedNullifiers.get nullifier
      = overlaid b.spentNullifierOverlay (fun _ => some [0x01]) db.shieldedNullifiers nullifier
  dirtyContractKeys : ∀ key, key ∈ b.dirtyContractKeys ↔ key ∈ b.contractStorageOverlay.keys

omit [StateCodec] in
theorem overlaid_put {K X V : Type} [DecidableEq K] (staged : HashMap K X) (value : X → Option V)
    (rows : HashMap K V) (key key' : K) (x : X) :
    overlaid (staged.put key x) value rows key'
      = if key' = key then value x else overlaid staged value rows key' := by
  grind [overlaid]

theorem StateBatch.agrees_new : StateBatch.new.Agrees where
  accounts := fun _ _ => rfl
  contractStorage := fun _ _ => rfl
  stakePool := fun _ => rfl
  mossStakePool := fun _ => rfl
  restrictions := fun _ _ => rfl
  shieldedPool := fun _ => rfl
  shieldedCommitments := fun _ _ => rfl
  shieldedNotePayloads := fun _ _ => rfl
  shieldedNullifiers := fun _ _ => rfl
  dirtyContractKeys := fun _ => Iff.rfl

/-- An operation writes to one column family and to the overlay of the same one; what the others
    hold is not touched. -/
theorem StateBatch.Agrees.apply {b : StateBatch} (h : b.Agrees) (op : BatchOp) :
    (b.apply op).Agrees := by
  have hlast : ∀ (w : Write) (db : StateStore), (b.batch ++ [w]).foldl StateStore.write db
      = (b.batch.foldl StateStore.write db).write w := fun w db => List.foldl_concat _ _ _ _
  cases op <;> constructor <;> intros
  all_goals
    -- the operation adds one write at the end, to one column family
    simp only [StateBatch.apply, StateBatch.putAccount, StateBatch.putContractStorage,
      StateBatch.deleteContractStorage, StateBatch.writeContractStorage, StateBatch.putStakePool,
      StateBatch.putMossstakePoolWithReplayMode, StateBatch.putRestriction,
      StateBatch.insertShieldedCommitment, StateBatch.insertShieldedNotePayload,
      StateBatch.markNullifierSpent, StateBatch.putShieldedPoolState, StateBatch.push, hlast,
      StateStore.write, MerkleCf.writeRow]
  all_goals
    -- what it writes is what it stages; the rest is as the batch has it
    simp only [overlaid_put, staged, get_put, get_remove, id, List.mem_append, List.mem_singleton,
      mem_keys_put, h.accounts, h.contractStorage, h.stakePool, h.mossStakePool, h.restrictions,
      h.shieldedPool, h.shieldedCommitments, h.shieldedNotePayloads, h.shieldedNullifiers,
      h.dirtyContractKeys, or_comm]

/-- **Every batch** built by puts and deletes has its overlays and its writes in agreement. -/
theorem StateBatch.agrees_build (ops : List BatchOp) : (StateBatch.build ops).Agrees := by
  have hall : ∀ (ops : List BatchOp) (b : StateBatch), b.Agrees →
      (ops.foldl StateBatch.apply b).Agrees := by
    intro ops
    induction ops with
    | nil => exact fun b h => h
    | cons op ops ih => exact fun b h => ih _ (h.apply op)
  exact hall ops _ StateBatch.agrees_new

/-- Writes change rows and single values only. -/
structure SameFrame (db db' : StateStore) : Prop where
  accounts : db'.accounts = { db.accounts with rows := db'.accounts.rows }
  contractStorage : db'.contractStorage
    = { db.contractStorage with rows := db'.contractStorage.rows }
  sparseReady : db'.sparseReady = db.sparseReady
  schema : db'.schema = db.schema
  includeRestrictions : db'.includeRestrictions = db.includeRestrictions
  replayMode : db'.replayMode = db.replayMode

section
omit [StateCodec]

theorem sameFrame_write (db : StateStore) (w : Write) : SameFrame db (db.write w) := by
  cases w with
  | contractStorage key value => cases value <;> constructor <;> rfl
  | _ => constructor <;> rfl

theorem sameFrame_writes (db : StateStore) (ws : List Write) :
    SameFrame db (ws.foldl StateStore.write db) := by
  induction ws generalizing db with
  | nil => constructor <;> rfl
  | cons w ws ih =>
    have h := sameFrame_write db w
    have h' := ih (db.write w)
    refine ⟨?_, ?_, ?_, ?_, ?_, ?_⟩
    · rw [List.foldl_cons, h'.accounts, h.accounts]
    · rw [List.foldl_cons, h'.contractStorage, h.contractStorage]
    · exact h'.sparseReady.trans h.sparseReady
    · exact h'.schema.trans h.schema
    · exact h'.includeRestrictions.trans h.includeRestrictions
    · exact h'.replayMode.trans h.replayMode

end

end
end Lichen.State
