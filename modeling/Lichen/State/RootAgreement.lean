/-
  The root of a proposal is the root after its commit.

  `committedRoot` is the state root computed from scratch, from the rows alone.  A state whose
  caches keep their bargain (`Committed`) gives it whichever way it is asked: `computeStateRoot`
  brings the caches up to date and returns it; `computeStateRootForBatch`, asked before the commit,
  returns the `committedRoot` of the state after the commit.

  1. the states: `Committed`, and the data a cache update leaves alone (`SameData`);
  2. the two sections, accounts and contract storage;
  3. single values and the column families that are hashed whole;
  4. the two roots, and the states a node can reach.
-/
import Lichen.State.CacheInvariant

open Base
open Lichen.Processor (Account)
namespace Lichen.State
open StateStore StateCodec HashMap StateBatch MerkleCf
section
variable [Crypto] [StateCodec]

/-! ## States -/

/-- The scopes of the two sections. -/
structure StoreScope where
  accounts : Scope accountKind
  contractStorage : Scope contractKind

/-- The scopes are for sparse trees. -/
def StoreScope.Sparse (scope : StoreScope) : Prop :=
  scope.accounts.sparse ∧ scope.contractStorage.sparse

/-- **A committed state**: both sections keep their bargain. -/
structure Committed (scope : StoreScope) (db : StateStore) : Prop where
  accounts : Kept scope.accounts db.sparseReady db.accounts
  contractStorage : Kept scope.contractStorage db.sparseReady db.contractStorage
  sparse : db.usesSparseStateCommitment = true → scope.Sparse

/-- Two states with the same rows and settings; their caches may differ. -/
structure SameData (db db' : StateStore) : Prop where
  frame : db' = { db with
    accounts := db'.accounts
    contractStorage := db'.contractStorage
    sparseReady := db'.sparseReady }
  accounts : db'.accounts.rows = db.accounts.rows
  contractStorage : db'.contractStorage.rows = db.contractStorage.rows

variable {scope : StoreScope} {db : StateStore}

section
omit [Crypto] [StateCodec]

theorem SameData.refl (db : StateStore) : SameData db db := ⟨rfl, rfl, rfl⟩

theorem SameData.trans (h : SameData db db') (h' : SameData db' db'') : SameData db db'' := by
  refine ⟨?_, h'.accounts.trans h.accounts, h'.contractStorage.trans h.contractStorage⟩
  rw [h'.frame, h.frame]

theorem SameData.usesSparse (h : SameData db db') :
    db'.usesSparseStateCommitment = db.usesSparseStateCommitment := by
  rw [h.frame]
  rfl

end

/-- A tree that is ready has its scope. -/
theorem Committed.sparse_of_ready (h : Committed scope db) (hready : db.sparseReady = true) :
    scope.Sparse :=
  ⟨(h.accounts.tree hready).1, (h.contractStorage.tree hready).1⟩

namespace StateStore
section
variable (h : Committed scope db)
include h

section
variable (hs : scope.Sparse)
include hs

/-- The sparse trees are rebuilt if need be. -/
theorem ensureSparseReady_spec :
    ∃ db', db.ensureSparseReady = (.ok (), db') ∧ db'.sparseReady = true ∧ Committed scope db'
      ∧ SameData db db' := by
  unfold ensureSparseReady
  split
  · next hready => exact ⟨db, rfl, hready, h, .refl db⟩
  · obtain ⟨accounts, hcall, hrows, hkept⟩ := rebuildSparse_spec hs.1 h.accounts
    obtain ⟨contractStorage, hcall', hrows', hkept'⟩ := rebuildSparse_spec hs.2 h.contractStorage
    unfold rebuildSparseStateCommitment
    dsimp only
    rw [hcall]
    rw [hcall']
    exact ⟨_, rfl, rfl, ⟨hkept, hkept', h.sparse⟩, ⟨rfl, hrows, hrows'⟩⟩

end
end
end StateStore

/-! ## The two sections -/

/-- The section has the scope `sc`, and writing to it leaves the rest of the store alone. -/
structure Section.Of {K : Type} [DecidableEq K] (sec : Section K) (scope : StoreScope)
    (sc : Scope sec.kind) : Prop where
  kept : ∀ {db}, Committed scope db → Kept sc db.sparseReady (sec.read db)
  write : ∀ {db s}, Committed scope db → Kept sc db.sparseReady s → s.rows = (sec.read db).rows →
    Committed scope (sec.write db s) ∧ SameData db (sec.write db s)
      ∧ sec.read (sec.write db s) = s ∧ (sec.write db s).sparseReady = db.sparseReady
  rows : ∀ {db db'}, SameData db db' → (sec.read db').rows = (sec.read db).rows

theorem accountsSection_of : accountsSection.Of scope scope.accounts where
  kept := fun h => h.accounts
  write := fun h hkept hrows =>
    ⟨⟨hkept, h.contractStorage, h.sparse⟩, ⟨rfl, hrows, rfl⟩, rfl, rfl⟩
  rows := fun h => h.accounts

theorem contractSection_of : contractSection.Of scope scope.contractStorage where
  kept := fun h => h.contractStorage
  write := fun h hkept hrows => ⟨⟨h.accounts, hkept, h.sparse⟩, ⟨rfl, rfl, hrows⟩, rfl, rfl⟩
  rows := fun h => h.contractStorage

namespace Section
section
variable {K : Type} [DecidableEq K] {sec : Section K} {sc : Scope sec.kind} (hsec : sec.Of scope sc)
  (h : Committed scope db)
include hsec h

/-- **The sparse root** of a section, and the state it leaves. -/
theorem computeSparseRoot_spec (hs : scope.Sparse) :
    ∃ db', sec.computeSparseRoot db = (.ok (treeRoot sec.kind (sec.read db).rows), db')
      ∧ db'.sparseReady = true ∧ Committed scope db' ∧ SameData db db'
      ∧ (sec.read db').dirty.isEmpty = true
      ∧ (sec.read db').sparseRoot.getD Hash.zero = treeRoot sec.kind (sec.read db).rows := by
  obtain ⟨db₁, hcall, hready, h₁, hsame⟩ := ensureSparseReady_spec h hs
  have hkept := hsec.kept h₁
  rw [hready] at hkept
  obtain ⟨hroot, hsettled, hstored⟩ := MerkleCf.computeSparseRoot_spec hkept
  obtain ⟨hwrite, hdata, hread, hflag⟩ :=
    hsec.write h₁ (hready.symm ▸ hsettled.kept) hsettled.rows
  unfold computeSparseRoot
  rw [hcall]
  dsimp only
  rw [hroot, hsec.rows hsame]
  refine ⟨_, rfl, hflag.trans hready, hwrite, hsame.trans hdata, ?_, ?_⟩
  · rw [hread]
    exact hsettled.clean
  · rw [hread, hstored, hsec.rows hsame]

/-- **The root of a section** in either schema. -/
theorem computeRoot_spec : ∃ db', sec.computeRoot db
        = (sectionRoot sec.kind db.usesSparseStateCommitment (sec.read db).rows, db')
      ∧ Committed scope db' ∧ SameData db db'
      ∧ (db.usesSparseStateCommitment = false →
        ∀ k, (sec.read db').leaves.get k = leafAt sec.kind (sec.read db).rows k) := by
  unfold computeRoot sectionRoot
  cases hsparse : db.usesSparseStateCommitment with
  | true =>
    obtain ⟨db₁, hcall, -, h₁, hsame, -, -⟩ := computeSparseRoot_spec hsec h (h.sparse hsparse)
    rw [if_pos rfl, if_pos rfl, hcall]
    exact ⟨db₁, rfl, h₁, hsame, fun hfalse => absurd hfalse (by decide)⟩
  | false =>
    -- the state after the shadow update, if there is one
    obtain ⟨db₂, hshadow, h₂, hsame₂, hempty⟩ : ∃ db₂,
        (if db.sparseReady then (sec.computeSparseRoot db).2 else db) = db₂
          ∧ Committed scope db₂ ∧ SameData db db₂
          ∧ (db₂.sparseReady = true → (sec.read db₂).dirty.isEmpty = true) := by
      cases hready : db.sparseReady with
      | true =>
        obtain ⟨db₁, hcall, -, h₁, hsame, hclean, -⟩ :=
          computeSparseRoot_spec hsec h (h.sparse_of_ready hready)
        rw [if_pos rfl, hcall]
        exact ⟨db₁, rfl, h₁, hsame, fun _ => hclean⟩
      | false => exact ⟨db, rfl, h, .refl db, fun hr => absurd (hready.symm.trans hr) (by decide)⟩
    obtain ⟨hroot, hrows, hkept, hleaves⟩ := computeOrderedRoot_spec (hsec.kept h₂) hempty
    obtain ⟨hwrite, hdata, hread, -⟩ := hsec.write h₂ hkept hrows
    rw [if_neg Bool.false_ne_true, if_neg Bool.false_ne_true, hshadow]
    dsimp only
    rw [hroot, hsec.rows hsame₂]
    refine ⟨_, rfl, hwrite, hsame₂.trans hdata, fun _ k => ?_⟩
    rw [hread, hleaves k, hsec.rows hsame₂]

/-- A section's part of a proposal's root is that of the overlaid rows. -/
theorem proposalRoot_spec (untouched : Bool) {staged : HashMap K (Option Hash)}
    (hrows' : sc.Admits rows')
    (hover : Overlays sec.kind staged (sec.read db).rows rows')
    (hkeys : ∀ k ∈ staged.keys, k ∈ sc.keys) (hempty : untouched = true → staged.isEmpty = true) :
    ∃ db', sec.proposalRoot db untouched staged
        = (sectionRoot sec.kind db.usesSparseStateCommitment rows', db')
      ∧ Committed scope db' ∧ SameData db db' := by
  unfold proposalRoot
  cases hsparse : db.usesSparseStateCommitment with
  | true =>
    obtain ⟨db₁, hcall, hready, h₁, hsame, hclean, hstored⟩ :=
      computeSparseRoot_spec hsec h (h.sparse hsparse)
    have hkept := hsec.kept h₁
    rw [hready] at hkept
    have hroot := sparseRootForBatch_eq hkept hclean ((hsec.rows hsame).symm ▸ hover) hrows' hkeys
    rw [hstored] at hroot
    unfold computeSparseRootForBatch
    rw [if_pos rfl, hcall]
    dsimp only
    rw [hroot]
    exact ⟨db₁, rfl, h₁, hsame⟩
  | false =>
    obtain ⟨db₁, hcall, h₁, hsame, hleaves⟩ := computeRoot_spec hsec h
    rw [if_neg Bool.false_ne_true]
    unfold computeRootForBatch
    rw [hcall, hsparse]
    split
    · next hnone =>
      rw [hover.sectionRoot_eq false (hempty hnone)]
      exact ⟨db₁, rfl, h₁, hsame⟩
    · dsimp only
      rw [orderedRootForBatch_eq (hleaves hsparse) hover]
      exact ⟨db₁, rfl, h₁, hsame⟩

end
end Section

namespace StateStore

/-! ## Whole column families and single values -/

omit [Crypto] [StateCodec] in
/-- A column family read in order, with a value computed from each row. -/
theorem map_inOrder_eq {V W : Type} {K : Type} [DecidableEq K] {bytes}
    (hinj : Function.Injective bytes) {rows : HashMap K V} {leaves : HashMap K W} {f : K → V → W}
    (h : ∀ k, leaves.get k = (rows.get k).map (f k)) :
    (leaves.inOrder bytes).map Prod.snd = (rows.inOrder bytes).map fun row => f row.1 row.2 := by
  have hasc : Ascends bytes ((rows.inOrder bytes).map fun row => (row.1, f row.1 row.2)) :=
    List.pairwise_map.mpr (ascends_inOrder hinj rows)
  rw [← eq_inOrder hinj hasc fun e => ?_, List.map_map]
  · rfl
  · rw [h, List.mem_map, Option.map_eq_some_iff]
    constructor
    · rintro ⟨row, hrow, rfl⟩
      exact ⟨row.2, mem_inOrder.mp hrow, rfl⟩
    · rintro ⟨value, hget, hvalue⟩
      exact ⟨(e.1, value), mem_inOrder.mpr hget, Prod.ext rfl hvalue⟩

section
variable {K X : Type} [DecidableEq K] {bytes : K → List UInt8} (hinj : Function.Injective bytes)
  {rows rows' : HashMap K (List UInt8)} {staged : HashMap K X} {value : X → List UInt8}
  (h : ∀ k, rows'.get k = overlaid staged (fun x => some (value x)) rows k)
include hinj h
omit [StateCodec]

/-- Inserting the staged leaves gives the root of the overlaid column family. -/
theorem cfKvRootForBatch_eq : cfKvRootForBatch bytes rows staged value = cfKvRoot bytes rows' := by
  refine congrArg merkleRootFromLeaves
    (map_inOrder_eq (f := fun key row => hashTwoParts (bytes key) row) hinj fun k => ?_)
  obtain ⟨hin, hout⟩ := get_foldl_put_entries Prod.fst
    (fun e : K × X => hashTwoParts (bytes e.1) (value e.2)) staged.toList
    (rows.mapValues fun key row => hashTwoParts (bytes key) row)
    (toList_map_fst staged ▸ keys_nodup staged)
  rw [h k]
  unfold overlaid
  grind [toList_map_fst]

/-- An empty overlay leaves the root. -/
theorem cfKvRoot_of_isEmpty (hempty : staged.isEmpty = true) :
    cfKvRoot bytes rows = cfKvRoot bytes rows' := by
  unfold cfKvRoot
  rw [inOrder_congr hinj fun k => ?_]
  rw [h k]
  unfold overlaid
  rw [isEmpty_iff.mp hempty k]

variable (value) in
/-- The choice between the stored column family and the staged one. -/
theorem ite_cfKvRoot_commit :
    (if staged.isEmpty then cfKvRoot bytes rows else cfKvRootForBatch bytes rows staged value)
      = cfKvRoot bytes rows' := by
  split
  · next hempty => exact cfKvRoot_of_isEmpty hinj h hempty
  · exact cfKvRootForBatch_eq hinj h

end
end StateStore

/-- What the batch has staged is read back as it was staged. -/
structure StateBatch.ReadsBack (b : StateBatch) : Prop where
  accounts : ∀ key account, b.accountOverlay.get key = some account →
    StateCodec.decodeAccount (StateCodec.encodeAccount account) = some account
  stakePool : ∀ pool, b.stakePoolOverlay = some pool → pool.Reloads StateCodec.stakePool
  mossStakePool : ∀ pool, b.mossstakePoolOverlay = some pool →
    StateCodec.decodeMossPool (StateCodec.encodeMossPool pool) = some pool

/-- The scopes contain what the commit of the batch leaves and the keys it touches. -/
structure StoreScope.Covers (scope : StoreScope) (db : StateStore) (b : StateBatch) : Prop where
  accounts : scope.accounts.Admits (db.commitBatch b).accounts.rows
  accountKeys : ∀ k ∈ b.accountOverlay.keys, k ∈ scope.accounts.keys
  contractStorage : scope.contractStorage.Admits (db.commitBatch b).contractStorage.rows
  contractKeys : ∀ k ∈ b.contractStorageOverlay.keys, k ∈ scope.contractStorage.keys

namespace StateStore
section

omit [Crypto]

section
variable (db : StateStore) (b : StateBatch)

/-- A commit changes the accounts section in its rows, and marks the overlaid keys. -/
theorem commitBatch_accounts :
    (db.commitBatch b).accounts = b.accountOverlay.keys.foldl stageDirtyMarker
      { db.accounts with rows := (b.batch.foldl write db).accounts.rows } := by
  have hframe := (sameFrame_writes db b.batch).accounts
  unfold commitBatch
  rw [← hframe]

theorem commitBatch_contractStorage :
    (db.commitBatch b).contractStorage = b.dirtyContractKeys.foldl stageDirtyMarker
      { db.contractStorage with rows := (b.batch.foldl write db).contractStorage.rows } := by
  have hframe := (sameFrame_writes db b.batch).contractStorage
  unfold commitBatch
  rw [← hframe]

theorem rows_commitBatch_accounts :
    (db.commitBatch b).accounts.rows = (b.batch.foldl write db).accounts.rows := by
  rw [commitBatch_accounts, foldl_stage_rows]

theorem rows_commitBatch_contractStorage :
    (db.commitBatch b).contractStorage.rows = (b.batch.foldl write db).contractStorage.rows := by
  rw [commitBatch_contractStorage, foldl_stage_rows]

end

theorem commitBatch_accounts_rows (hb : b.Agrees) (k : Pubkey) :
    (db.commitBatch b).accounts.rows.get k
      = overlaid b.accountOverlay (fun a => some (serializedAccountValue a)) db.accounts.rows k := by
  rw [← hb.accounts db k, rows_commitBatch_accounts]

theorem commitBatch_contractStorage_rows (hb : b.Agrees) (k : List UInt8) :
    (db.commitBatch b).contractStorage.rows.get k
      = overlaid b.contractStorageOverlay id db.contractStorage.rows k := by
  rw [← hb.contractStorage db k, rows_commitBatch_contractStorage]

end

/-- The value of an account that is read back has the leaf of the account. -/
theorem leafOf_serializedAccountValue (h : decodeAccount (encodeAccount account) = some account) :
    accountKind.leafOf pubkey (serializedAccountValue account) = if account.dormant then none
        else some (hashTwoParts pubkey.bytes (serializedAccountValue account)) := by
  have hdormant : deserializeAccountCheckDormant (serializedAccountValue account)
      = account.dormant := by
    rw [serializedAccountValue, deserializeAccountCheckDormant]
    simp only [h]
  show (if deserializeAccountCheckDormant (serializedAccountValue account) then none else _) = _
  rw [hdormant]

theorem overlays_accounts (hb : b.Agrees) (hread : b.ReadsBack) :
    Overlays accountKind (stagedAccountLeaves b) db.accounts.rows
      (db.commitBatch b).accounts.rows := by
  intro k
  unfold leafAt stagedAccountLeaves
  rw [commitBatch_accounts_rows hb, get_mapValues]
  grind [overlaid, leafOf_serializedAccountValue, ReadsBack.accounts]

theorem overlays_contractStorage (hb : b.Agrees) :
    Overlays contractKind (stagedContractLeaves b) db.contractStorage.rows
      (db.commitBatch b).contractStorage.rows := by
  intro k
  unfold leafAt stagedContractLeaves
  rw [commitBatch_contractStorage_rows hb, get_mapValues]
  unfold overlaid
  cases hget : b.contractStorageOverlay.get k with
  | some value => cases value <;> rfl
  | none => rfl

/-- **A commit leaves a committed state.** -/
theorem committed_commitBatch (h : Committed scope db) (hb : b.Agrees) (hcov : scope.Covers db b) :
    Committed scope (db.commitBatch b) := by
  have hready : (db.commitBatch b).sparseReady = db.sparseReady :=
    (sameFrame_writes db b.batch).sparseReady
  have hrows := hcov.accounts
  have hrows' := hcov.contractStorage
  have hschema : (db.commitBatch b).schema = db.schema := (sameFrame_writes db b.batch).schema
  refine ⟨?_, ?_, fun hsparse => h.sparse ?_⟩
  · rw [hready, commitBatch_accounts]
    rw [rows_commitBatch_accounts] at hrows
    refine h.accounts.commit hrows hcov.accountKeys fun k hk => ?_
    rw [hb.accounts db k]
    unfold overlaid
    rw [(not_mem_keys_iff _ _).mp hk]
  · rw [hready, commitBatch_contractStorage]
    rw [rows_commitBatch_contractStorage] at hrows'
    refine h.contractStorage.commit hrows'
      (fun k hk => hcov.contractKeys k ((hb.dirtyContractKeys k).mp hk)) fun k hk => ?_
    rw [hb.contractStorage db k]
    unfold overlaid
    rw [hb.dirtyContractKeys, not_mem_keys_iff] at hk
    rw [hk]
  · unfold usesSparseStateCommitment at hsparse ⊢
    rw [← hschema]
    exact hsparse

/-! ## The two roots -/

/-- **The state root, from scratch.** -/
def committedRoot (db : StateStore) : Hash :=
  db.composeStateRoot
    (sectionRoot accountKind db.usesSparseStateCommitment db.accounts.rows)
    (sectionRoot contractKind db.usesSparseStateCommitment db.contractStorage.rows)
    db.computeStakePoolHash db.computeMossstakePoolHash
    (if db.includeRestrictions then some db.computeRestrictionsRoot else none)
    (if db.usesShieldedStateCommitment then some db.computeShieldedStateRoot else none)

theorem committedRoot_of_sameData (h : SameData db db') : db'.committedRoot = db.committedRoot := by
  unfold committedRoot
  rw [h.accounts, h.contractStorage, h.frame]
  rfl

/-- **The root of the committed state** is the root from scratch. -/
theorem computeStateRoot_spec (h : Committed scope db) :
    ∃ db', db.computeStateRoot = (db.committedRoot, db') ∧ Committed scope db'
      ∧ SameData db db' := by
  obtain ⟨db₁, hcall₁, h₁, hsame₁, -⟩ := Section.computeRoot_spec accountsSection_of h
  obtain ⟨db₂, hcall₂, h₂, hsame₂, -⟩ := Section.computeRoot_spec contractSection_of h₁
  have hsame := hsame₁.trans hsame₂
  have hrows : (contractSection.read db₁).rows = (contractSection.read db).rows :=
    hsame₁.contractStorage
  rw [hrows, hsame₁.usesSparse] at hcall₂
  refine ⟨db₂, ?_, h₂, hsame⟩
  unfold computeStateRoot computeAccountsRoot computeContractStorageRoot
  rw [hcall₁]
  dsimp only
  rw [hcall₂, hsame.frame]
  rfl

/-- The stake pool hash of a proposal. -/
theorem stakePoolHash_commit (hb : b.Agrees) (hread : b.ReadsBack) : (match b.stakePoolOverlay with
      | some pool => stakePoolHash pool
      | none => db.computeStakePoolHash) = (db.commitBatch b).computeStakePoolHash := by
  have hrow : (db.commitBatch b).stakePool
      = staged b.stakePoolOverlay (Staking.StakePool.storageBytes StateCodec.stakePool)
          db.stakePool := hb.stakePool db
  unfold computeStakePoolHash getStakePool
  rw [hrow]
  cases hover : b.stakePoolOverlay with
  | some pool =>
    have hload := hread.stakePool pool hover
    unfold staged
    dsimp only
    rw [hload]
  | none => rfl

/-- The MossStake pool hash of a proposal. -/
theorem mossstakePoolHash_commit (hb : b.Agrees) (hread : b.ReadsBack) :
    (match b.mossstakePoolOverlay with
      | some pool => db.mossstakePoolHash pool
      | none => db.computeMossstakePoolHash) = (db.commitBatch b).computeMossstakePoolHash := by
  have hrow : (db.commitBatch b).mossStakePool
      = staged b.mossstakePoolOverlay encodeMossPool db.mossStakePool :=
    hb.mossStakePool db
  have hmode : (db.commitBatch b).replayMode = db.replayMode :=
    (sameFrame_writes db b.batch).replayMode
  unfold computeMossstakePoolHash getMossstakePool mossstakePoolHash
  rw [hrow, hmode]
  cases hover : b.mossstakePoolOverlay with
  | some pool =>
    unfold staged
    dsimp only
    rw [hread.mossStakePool pool hover]
    rfl
  | none => rfl

/-- The restrictions root of a proposal. -/
theorem restrictionsRoot_commit (hb : b.Agrees) :
    (if db.includeRestrictions && !b.restrictionOverlay.isEmpty then
        some (db.computeRestrictionsRootForBatch b)
      else if db.includeRestrictions then some db.computeRestrictionsRoot else none)
      = if (db.commitBatch b).includeRestrictions then
          some (db.commitBatch b).computeRestrictionsRoot else none := by
  have hrows : ∀ k, (db.commitBatch b).restrictions.get k = overlaid b.restrictionOverlay
      (fun r => some (encodeRestriction r)) db.restrictions k := hb.restrictions db
  have hflag : (db.commitBatch b).includeRestrictions = db.includeRestrictions :=
    (sameFrame_writes db b.batch).includeRestrictions
  rw [hflag]
  cases hinc : db.includeRestrictions with
  | false => rfl
  | true =>
    cases hempty : b.restrictionOverlay.isEmpty with
    | true =>
      exact congrArg some (cfKvRoot_of_isEmpty u64Bytes_inj hrows hempty)
    | false => exact congrArg some (cfKvRootForBatch_eq u64Bytes_inj hrows)

/-- The shielded root of a proposal. -/
theorem shieldedStateRoot_commit (hb : b.Agrees) :
    db.computeShieldedStateRootForBatch b = (db.commitBatch b).computeShieldedStateRoot := by
  have hpool : (db.commitBatch b).shieldedPool
      = staged b.shieldedPoolOverlay encodeShieldedPool db.shieldedPool :=
    hb.shieldedPool db
  unfold computeShieldedStateRootForBatch computeShieldedStateRoot
  rw [ite_cfKvRoot_commit u64Bytes_inj arrayBytes (hb.shieldedCommitments db),
    ite_cfKvRoot_commit u64Bytes_inj id (hb.shieldedNotePayloads db),
    ite_cfKvRoot_commit arrayBytes_inj (fun _ => [0x01]) (hb.shieldedNullifiers db), hpool]
  cases b.shieldedPoolOverlay <;> rfl

/-- **The root of a proposal** is the root from scratch of the state after its commit. -/
theorem computeStateRootForBatch_spec (h : Committed scope db) (hb : b.Agrees)
    (hread : b.ReadsBack) (hcov : scope.Covers db b) :
    ∃ db', db.computeStateRootForBatch b = ((db.commitBatch b).committedRoot, db')
      ∧ Committed scope db' ∧ SameData db db' := by
  obtain ⟨db₁, hcall₁, h₁, hsame₁⟩ := Section.proposalRoot_spec accountsSection_of h
    b.accountOverlay.isEmpty hcov.accounts (overlays_accounts hb hread)
    (fun k hk => hcov.accountKeys k (by grind [stagedAccountLeaves]))
    (by grind [stagedAccountLeaves, HashMap.isEmpty_iff])
  have hover : Overlays contractKind (stagedContractLeaves b) db₁.contractStorage.rows
      (db.commitBatch b).contractStorage.rows :=
    hsame₁.contractStorage.symm ▸ overlays_contractStorage hb
  obtain ⟨db₂, hcall₂, h₂, hsame₂⟩ := Section.proposalRoot_spec contractSection_of h₁
    b.contractStorageOverlay.isEmpty hcov.contractStorage hover
    (fun k hk => hcov.contractKeys k (by grind [stagedContractLeaves]))
    (by grind [stagedContractLeaves, HashMap.isEmpty_iff])
  have hsame := hsame₁.trans hsame₂
  have hschema : (db.commitBatch b).schema = db.schema := (sameFrame_writes db b.batch).schema
  have hflag : (db.commitBatch b).includeRestrictions = db.includeRestrictions :=
    (sameFrame_writes db b.batch).includeRestrictions
  refine ⟨db₂, ?_, h₂, hsame⟩
  unfold computeStateRootForBatch committedRoot
  rw [← stakePoolHash_commit hb hread, ← mossstakePoolHash_commit hb hread,
    ← restrictionsRoot_commit hb, ← shieldedStateRoot_commit hb]
  unfold proposalAccountsRoot proposalContractRoot
  rw [hcall₁]
  dsimp only
  rw [hcall₂]
  unfold composeStateRoot usesSparseStateCommitment usesShieldedStateCommitment
  rw [hschema, hflag, hsame.frame, hsame₁.frame]
  rfl

omit [Crypto] in
/-- A commit writes the same data whatever the caches are. -/
theorem sameData_commitBatch (h : SameData db db') (b : StateBatch) :
    SameData (db.commitBatch b) (db'.commitBatch b) := by
  have hwrite : ∀ (ws : List Write) (db db' : StateStore), SameData db db' →
      SameData (ws.foldl write db) (ws.foldl write db') := by
    intro ws
    induction ws with
    | nil => exact fun db db' h => h
    | cons w ws ih =>
      intro db db' h
      refine ih _ _ ?_
      obtain ⟨hframe, hrows, hrows'⟩ := h
      cases w with
      | account pubkey value =>
        refine ⟨?_, ?_, hrows'⟩
        · rw [hframe]
          rfl
        · exact congrArg (fun rows => put rows pubkey value) hrows
      | contractStorage key value =>
        cases value with
        | some value =>
          refine ⟨?_, hrows, congrArg (fun rows => put rows key value) hrows'⟩
          rw [hframe]
          rfl
        | none =>
          refine ⟨?_, hrows, congrArg (fun rows => remove rows key) hrows'⟩
          rw [hframe]
          rfl
      | _ =>
        refine ⟨?_, hrows, hrows'⟩
        rw [hframe]
        rfl
  have hw := hwrite b.batch db db' h
  refine ⟨?_, ?_, ?_⟩
  · unfold StateStore.commitBatch
    rw [hw.frame]
  · rw [rows_commitBatch_accounts, rows_commitBatch_accounts]
    exact hw.accounts
  · rw [rows_commitBatch_contractStorage, rows_commitBatch_contractStorage]
    exact hw.contractStorage

end StateStore

/-! ## Operations whose values are read back -/

/-- Third-party serialisation returns what it was given, and the pool keeps its invariants, without
    which it would be refused when it is read. -/
def BatchOp.Sound : BatchOp → Prop
  | .putAccount _ account =>
      StateCodec.decodeAccount (StateCodec.encodeAccount account) = some account
  | .putStakePool pool => StateCodec.stakePool.RoundTrips pool ∧ pool.Valid
      ∧ (pool.stakingV2State.isSome = true → pool.validateV2Rules = .ok ())
  | .putMossstakePool pool replayMode =>
      let stored := if replayMode = .SlotOnly then StateCodec.clearWallClockTimes pool else pool
      StateCodec.decodeMossPool (StateCodec.encodeMossPool stored) = some stored
  | _ => True

section
omit [Crypto]

theorem StateBatch.ReadsBack.apply {b : StateBatch} (h : b.ReadsBack)
    (hop : op.Sound) : (b.apply op).ReadsBack := by
  cases op with
  | putAccount pubkey account =>
    exact ⟨forall_put h.accounts hop, h.stakePool, h.mossStakePool⟩
  | putStakePool pool =>
    refine ⟨h.accounts, fun p hp => ?_, h.mossStakePool⟩
    cases hp
    exact (Staking.StakePool.reloads_iff hop.1).mpr hop.2
  | putMossstakePool pool replayMode =>
    refine ⟨h.accounts, h.stakePool, fun p hp => ?_⟩
    cases hp
    exact hop
  | _ => exact ⟨h.accounts, h.stakePool, h.mossStakePool⟩

theorem StateBatch.readsBack_build (hops : ∀ op ∈ ops, op.Sound) : (build ops).ReadsBack := by
  have hall : ∀ (ops : List BatchOp) (b : StateBatch), b.ReadsBack → (∀ op ∈ ops, op.Sound) →
      (ops.foldl apply b).ReadsBack := by
    intro ops
    induction ops with
    | nil => exact fun b h _ => h
    | cons op ops ih =>
      intro b h hops
      grind [ReadsBack.apply]
  refine hall ops _ ⟨fun key a hget => ?_, fun p hp => ?_, fun p hp => ?_⟩ hops
  · exact absurd hget (by unfold new; simp)
  · exact absurd hp (by unfold new; simp)
  · exact absurd hp (by unfold new; simp)

end

/-! ## Reachable states -/

/-- A database before genesis. -/
def StateStore.empty (replayMode : MossStakeReplayMode) : StateStore where
  accounts := ⟨∅, ∅, 0, ∅, none, none, none, 0, ⟨"account_merkle_nodes", ∅⟩⟩
  contractStorage := ⟨∅, ∅, 0, ∅, none, none, none, 0, ⟨"contract_merkle_nodes", ∅⟩⟩
  sparseReady := false
  schema := .orderedV0
  includeRestrictions := false
  replayMode := replayMode
  stakePool := none
  mossStakePool := none
  restrictions := ∅
  shieldedPool := none
  shieldedCommitments := ∅
  shieldedNotePayloads := ∅
  shieldedNullifiers := ∅

/-- The states a node reaches by committing batches, computing roots and changing the schema, as
    long as everything it writes stays in scope. -/
inductive Reachable (scope : StoreScope) : StateStore → Prop where
  | empty (replayMode : MossStakeReplayMode) : Reachable scope (.empty replayMode)
  | commit {db : StateStore} (h : Reachable scope db) (ops : List BatchOp)
      (hcov : scope.Covers db (StateBatch.build ops)) :
      Reachable scope (db.commitBatch (StateBatch.build ops))
  | root {db : StateStore} (h : Reachable scope db) : Reachable scope db.computeStateRoot.2
  | proposal {db : StateStore} (h : Reachable scope db) (ops : List BatchOp)
      (hops : ∀ op ∈ ops, op.Sound) (hcov : scope.Covers db (StateBatch.build ops)) :
      Reachable scope (db.computeStateRootForBatch (StateBatch.build ops)).2
  | rebuild {db : StateStore} (h : Reachable scope db) (hs : scope.Sparse) :
      Reachable scope db.ensureSparseReady.2
  | schema {db db' : StateStore} (h : Reachable scope db) (schema : CommitmentSchema)
      (hset : db.setStateCommitmentSchema schema = .ok db') : Reachable scope db'
  | restrictions {db : StateStore} (h : Reachable scope db) (includeRestrictions : Bool) :
      Reachable scope { db with includeRestrictions }

theorem committed_empty (replayMode : MossStakeReplayMode) :
    Committed scope (.empty replayMode) := by
  have hkept : ∀ {K : Type} [DecidableEq K] {kind : LeafKind K} (scope : Scope kind)
      (nodes : NodeCf), Kept scope false ⟨∅, ∅, 0, ∅, none, none, none, 0, nodes⟩ :=
    fun scope nodes => ⟨scope.admits_empty, fun k hk => absurd hk List.not_mem_nil,
      fun h => absurd h (by simp), fun _ root h => absurd h (by simp), fun h => absurd h (by simp)⟩
  exact ⟨hkept scope.accounts _, hkept scope.contractStorage _, fun h => nomatch h⟩

/-- **Every reachable state is committed.** -/
theorem Reachable.committed (h : Reachable scope db) : Committed scope db := by
  induction h with
  | empty replayMode => exact committed_empty replayMode
  | commit h ops hcov ih => exact committed_commitBatch ih (agrees_build ops) hcov
  | root h ih =>
    grind [computeStateRoot_spec]
  | proposal h ops hops hcov ih =>
    grind [computeStateRootForBatch_spec, agrees_build, readsBack_build]
  | rebuild h hs ih =>
    grind [ensureSparseReady_spec]
  | schema h schema hset ih =>
    unfold StateStore.setStateCommitmentSchema at hset
    split at hset
    · exact absurd hset (by simp)
    · next hready =>
      cases hset
      refine ⟨ih.accounts, ih.contractStorage, fun hsparse => ih.sparse_of_ready ?_⟩
      by_contra hnot
      refine hready ⟨?_, Bool.eq_false_iff.mpr hnot⟩
      rintro rfl
      exact nomatch hsparse
  | restrictions h includeRestrictions ih => exact ⟨ih.accounts, ih.contractStorage, ih.sparse⟩

/-- **Replicas agree.**  Nodes with the same data have the root computed from it from scratch,
    whatever each has committed, cached, rebuilt or tried out before. -/
theorem replicas_agree {scope : StoreScope} {db db' : StateStore} (h : Reachable scope db)
    (h' : Reachable scope db') (hsame : SameData db db') :
    db.computeStateRoot.1 = db.committedRoot ∧ db'.computeStateRoot.1 = db.committedRoot := by
  obtain ⟨_, hroot, -⟩ := computeStateRoot_spec h.committed
  obtain ⟨_, hroot', -⟩ := computeStateRoot_spec h'.committed
  rw [hroot, hroot', committedRoot_of_sameData hsame]
  exact ⟨rfl, rfl⟩

/-- **A proposal's root is the root after its commit**, whether or not this node computed the former
    (which brings its caches up to date) before it committed. -/
theorem proposal_root_eq_committed_root (scope : StoreScope) (db : StateStore)
    (hdb : Committed scope db) (ops : List BatchOp) (hops : ∀ op ∈ ops, op.Sound)
    (hcov : scope.Covers db (StateBatch.build ops)) :
    (db.computeStateRootForBatch (StateBatch.build ops)).1
        = (db.commitBatch (StateBatch.build ops)).computeStateRoot.1
      ∧ (db.computeStateRootForBatch (StateBatch.build ops)).1
        = ((db.computeStateRootForBatch (StateBatch.build ops)).2.commitBatch
            (StateBatch.build ops)).computeStateRoot.1 := by
  have hb := agrees_build ops
  obtain ⟨db', hcall, hdb', hsame⟩ := computeStateRootForBatch_spec hdb hb
    (readsBack_build hops) hcov
  have hsame' := sameData_commitBatch hsame (build ops)
  have hcov' : scope.Covers db' (build ops) := by
    refine ⟨?_, hcov.accountKeys, ?_, hcov.contractKeys⟩
    · rw [hsame'.accounts]
      exact hcov.accounts
    · rw [hsame'.contractStorage]
      exact hcov.contractStorage
  obtain ⟨_, hroot, -⟩ := computeStateRoot_spec (committed_commitBatch hdb hb hcov)
  obtain ⟨_, hroot', -⟩ := computeStateRoot_spec (committed_commitBatch hdb' hb hcov')
  rw [hcall, hroot, hroot', committedRoot_of_sameData hsame']
  exact ⟨rfl, rfl⟩

end

/-! ### A first batch -/

/-- An account that holds one spore. -/
def oneSpore : Account :=
  ⟨1, 1, 0, 0, [], ⟨0⟩, false, 0, false, 0⟩

/-- Encoders that tell the values of one small batch apart. -/
@[reducible] def smallCodec : StateCodec where
  MossPool := Unit
  Restriction := UInt64
  ShieldedPool := Unit
  encodeAccount := fun account => beBytes 8 account.spores
  decodeAccount := fun bytes => if bytes = beBytes 8 1 then some oneSpore else none
  stakePool := ⟨fun _ => [], fun _ => none, fun _ => [], fun _ => none⟩
  stakePoolRow := fun _ => []
  encodeMossPool := fun _ => []
  decodeMossPool := fun _ => some ()
  newMossPool := ()
  clearWallClockTimes := id
  mossPoolRow := fun _ => []
  legacyMossPoolRow := fun _ => []
  restrictionId := id
  encodeRestriction := u64Bytes
  encodeShieldedPool := fun _ => []

/-- An account, a storage value, and the deletion of another one. -/
def firstOps : List (@BatchOp smallCodec) :=
  let _ := smallCodec
  [.putAccount ⟨0⟩ oneSpore, .putContractStorage ⟨0⟩ [1] [2], .deleteContractStorage ⟨0⟩ [1, 1]]

/-- The versions that have this leaf or none. -/
def singleLeaf (e : BitVec 256 × Hash) : Set LeafMap :=
  {m | ∀ path v, m path = some v → (path, v) = e}

theorem rowMap_empty_mem {K : Type} [DecidableEq K] (kind : LeafKind K) :
    rowMap kind ∅ ∈ singleLeaf e := by
  intro path v h
  obtain ⟨k, -, hleaf⟩ := exists_key_of_rowMap h
  unfold leafAt at hleaf
  simp at hleaf

/-- A single leaf has one tree. -/
theorem collisionFree_singleLeaf [Crypto]
    (h : rootHash (.leaf e.1 e.2) ≠ Hash.zero) : CollisionFree (versionTrees (singleLeaf e)) := by
  have hone : ∀ t, NodeOf (versionTrees (singleLeaf e)) t → t = .leaf e.1 e.2 := by
    rintro t ⟨whole, ⟨m, hm, m', hm', hway⟩, hcanonical, hsub⟩
    exact (hcanonical.sub hsub).eq_leaf fun x hx =>
      leaf_of_updateTrees (P := fun x => x = e) hway hm hm' x (hsub.mem_entries hx)
  refine ⟨fun s t hs ht _ => by rw [hone s hs, hone t ht], fun t ht => ?_⟩
  rw [hone t ht]
  exact h

/-- The leaf of the account. -/
def firstAccountLeaf : BitVec 256 × Hash :=
  (0, @hashTwoParts lengthHash (Pubkey.bytes ⟨0⟩) (@serializedAccountValue smallCodec oneSpore))

/-- The keys of the storage value and of the deleted one. -/
def firstStorageKey : List UInt8 := Pubkey.bytes ⟨0⟩ ++ [1]

def firstDeletedKey : List UInt8 := Pubkey.bytes ⟨0⟩ ++ [1, 1]

def firstStorageLeaf : BitVec 256 × Hash :=
  ((lengthHash.hash firstStorageKey).val, @hashTwoParts lengthHash firstStorageKey [2])

/-- What the first batch needs. -/
def firstScope : @StoreScope lengthHash smallCodec :=
  let _ := lengthHash
  let _ := smallCodec
  { accounts :=
      { keys := Set.univ
        versions := singleLeaf firstAccountLeaf
        empty := rowMap_empty_mem _
        sparse := True
        path_inj := by
          rintro - ⟨a⟩ - ⟨b⟩ - h
          exact congrArg Pubkey.mk h
        free := fun _ => collisionFree_singleLeaf (by decide) }
    contractStorage :=
      { keys := {firstStorageKey, firstDeletedKey}
        versions := singleLeaf firstStorageLeaf
        empty := rowMap_empty_mem _
        sparse := True
        path_inj := by
          rintro - a (rfl | rfl) b (rfl | rfl) h
          · rfl
          · exact absurd h (by decide)
          · exact absurd h (by decide)
          · rfl
        free := fun _ => collisionFree_singleLeaf (by decide) } }

/-- A fresh database that has built its empty sparse trees and switched to them. -/
def firstStore : StateStore :=
  let _ := lengthHash
  let _ := smallCodec
  { (StateStore.empty .SlotOnly).ensureSparseReady.2 with schema := .sparseShieldedV2 }

theorem reachable_firstStore :
    letI := lengthHash
    letI := smallCodec
    Reachable firstScope firstStore := by
  let _ := lengthHash
  let _ := smallCodec
  exact .schema (.rebuild (.empty .SlotOnly) ⟨trivial, trivial⟩) .sparseShieldedV2
    (if_neg (by decide +kernel))

/-- The batch stays in scope: the rows after its commit, read off the overlays. -/
theorem covers_firstOps :
    letI := lengthHash
    letI := smallCodec
    firstScope.Covers firstStore (build firstOps) := by
  let _ := lengthHash
  let _ := smallCodec
  have hb := agrees_build firstOps
  obtain ⟨db, hcall, -, -, hsame⟩ :=
    ensureSparseReady_spec (committed_empty .SlotOnly : Committed firstScope _) ⟨trivial, trivial⟩
  have hstore : firstStore = { db with schema := .sparseShieldedV2 } :=
    congrArg (fun db : StateStore => { db with schema := .sparseShieldedV2 })
      (congrArg Prod.snd hcall)
  have haccount : ∀ k, (firstStore.commitBatch (build firstOps)).accounts.rows.get k
      = if k = ⟨0⟩ then some (serializedAccountValue oneSpore) else none := by
    intro k
    have hrows : firstStore.accounts.rows = ∅ := by
      rw [hstore]
      exact hsame.accounts
    rw [commitBatch_accounts_rows hb, hrows]
    exact overlaid_put ∅ _ ∅ ⟨0⟩ k oneSpore
  have hstorage : ∀ k, (firstStore.commitBatch (build firstOps)).contractStorage.rows.get k
        = if k = firstDeletedKey then none
          else if k = firstStorageKey then some [2] else none := by
    intro k
    have hrows : firstStore.contractStorage.rows = ∅ := by
      rw [hstore]
      exact hsame.contractStorage
    rw [commitBatch_contractStorage_rows hb, hrows]
    exact (overlaid_put _ id ∅ (firstDeletedKey) k none).trans
      (congrArg _ (overlaid_put ∅ id ∅ firstStorageKey k (some [2])))
  refine ⟨⟨fun k value h => trivial, fun path leaf hmap => ?_⟩, fun k hk => trivial,
    ⟨fun k value h => ?_, fun path leaf hmap => ?_⟩, fun k hk => ?_⟩
  · obtain ⟨k, rfl, h⟩ := exists_key_of_rowMap hmap
    unfold leafAt at h
    rw [haccount] at h
    split at h
    · next hk =>
      subst hk
      exact Prod.ext rfl (Option.some.inj h).symm
    · simp at h
  · rw [hstorage] at h
    split at h
    · simp at h
    · split at h
      · next hk => exact .inl hk
      · simp at h
  · obtain ⟨k, rfl, h⟩ := exists_key_of_rowMap hmap
    unfold leafAt at h
    rw [hstorage] at h
    split at h
    · simp at h
    · split at h
      · next hk =>
        subst hk
        exact Prod.ext rfl (Option.some.inj h).symm
      · simp at h
  · have hkeys : k ∈ [firstDeletedKey, firstStorageKey] := hk
    rcases List.mem_cons.mp hkeys with rfl | hk
    · exact .inr rfl
    · exact .inl (List.mem_singleton.mp hk)

/-- Two nodes that have committed the batch: the caches of one are still to be brought up to date,
    the other has computed its root. -/
theorem replicas_agree_firstOps :
    letI := lengthHash
    letI := smallCodec
    let db := firstStore.commitBatch (build firstOps)
    let db' := db.computeStateRoot.2
    db.accounts.dirty.isEmpty = false ∧ db'.accounts.dirty.isEmpty = true
      ∧ db.accounts.rows.get ⟨0⟩ = some (serializedAccountValue oneSpore)
      ∧ db.computeStateRoot.1 = db.committedRoot ∧ db'.computeStateRoot.1 = db.committedRoot := by
  let _ := lengthHash
  let _ := smallCodec
  intro db db'
  have hdb : Reachable firstScope db := .commit reachable_firstStore firstOps covers_firstOps
  obtain ⟨_, hcall, -, hsame⟩ := computeStateRoot_spec hdb.committed
  have hsame' : SameData db db' := by
    show SameData db db.computeStateRoot.2
    rw [hcall]
    exact hsame
  exact ⟨by decide +kernel, by decide +kernel, by decide +kernel,
    replicas_agree hdb (.root hdb) hsame'⟩

theorem proposal_root_eq_committed_root_firstOps :
    letI := lengthHash
    letI := smallCodec
    (firstStore.computeStateRootForBatch (StateBatch.build firstOps)).1
        = (firstStore.commitBatch (StateBatch.build firstOps)).computeStateRoot.1
      ∧ (firstStore.computeStateRootForBatch (StateBatch.build firstOps)).1
        = ((firstStore.computeStateRootForBatch (StateBatch.build firstOps)).2.commitBatch
            (StateBatch.build firstOps)).computeStateRoot.1 := by
  let _ := lengthHash
  let _ := smallCodec
  refine proposal_root_eq_committed_root firstScope firstStore reachable_firstStore.committed
    firstOps ?_ covers_firstOps
  intro op hop
  simp only [firstOps, List.mem_cons, List.not_mem_nil, or_false] at hop
  rcases hop with rfl | rfl | rfl
  · exact if_pos (show beBytes 8 1 = beBytes 8 1 from rfl)
  · trivial
  · trivial

end Lichen.State
