/-
  A committed column family and what is kept to commit to it: the Merkle leaf cache, the dirty
  markers, the cached root, and the sparse tree (`core/src/state/merkle_state.rs`).

  The source has this twice, for accounts and for contract storage.  The two differ in what a leaf
  is and where it hangs (`LeafKind`); the functions below are written once, over the kind.

  1. the ordered Merkle root over a list of leaves;
  2. the ordered commitment: leaf cache brought up to date from the dirty markers, or rebuilt by a
     scan of the rows;
  3. the sparse commitment: the same markers turned into a change set of the sparse tree;
  4. both roots for rows that a batch has staged but not written.
-/
import Lichen.State.SparseHistory
import Lichen.Base.KeyOrder

open Base
namespace Lichen.State

/-! ## The ordered Merkle root -/

section
variable [Crypto]

/-- `Hash::hash_two_parts`. -/
def hashTwoParts (a b : List UInt8) : Hash := Crypto.hash (a ++ b)

/-- One level of the tree: the last hash of an odd level is paired with itself. -/
def merkleLevel : List Hash → List Hash
  | [] => []
  | [a] => [hashTwoParts a.bytes a.bytes]
  | a :: b :: rest => hashTwoParts a.bytes b.bytes :: merkleLevel rest

theorem length_merkleLevel : ∀ l : List Hash, (merkleLevel l).length = (l.length + 1) / 2
  | [] => rfl
  | [a] => by simp [merkleLevel]
  | a :: b :: rest => by
    rw [merkleLevel, List.length_cons, length_merkleLevel rest, List.length_cons, List.length_cons]
    omega

/-- `merkle_root_from_leaves`. -/
def merkleRootFromLeaves (leaves : List Hash) : Hash :=
  match leaves with
  | [] => Hash.zero
  | [leaf] => leaf
  | a :: b :: rest => merkleRootFromLeaves (merkleLevel (a :: b :: rest))
termination_by leaves.length
decreasing_by
  grind [length_merkleLevel]

end

/-! ## Rows, leaves and markers -/

/-- How the rows of a column family become leaves. -/
structure LeafKind (K : Type) where
  bytes : K → List UInt8
  bytes_inj : Function.Injective bytes
  path : K → BitVec 256
  leafOf : K → List UInt8 → Option Hash
  scanResets : Bool

/-- The rows, and what `CF_STATS`, the leaf cache and the node column family keep about them. -/
structure MerkleCf (K : Type) where
  rows : HashMap K (List UInt8)
  leaves : HashMap K Hash
  leafCount : Nat
  dirty : HashMap K Unit
  dirtyCount : Option Nat
  cachedRoot : Option Hash
  sparseRoot : Option Hash
  sparseLeafCount : Nat
  nodes : NodeCf

/-- A map with these entries. -/
def ofEntries {K V : Type} [DecidableEq K] (l : List (K × V)) : HashMap K V :=
  l.foldl (fun m e => m.put e.1 e.2) ∅

namespace MerkleCf

variable [DecidableEq K]

/-- The leaf of the row at a key. -/
def leafAt (kind : LeafKind K) (rows : HashMap K (List UInt8)) (key : K) : Option Hash :=
  (rows.get key).bind (kind.leafOf key)

/-- The leaves of the rows, in key order. -/
def scanLeaves (kind : LeafKind K) (rows : HashMap K (List UInt8)) : List (K × Hash) :=
  (rows.inOrder kind.bytes).filterMap fun row =>
    (kind.leafOf row.1 row.2).map fun leaf => (row.1, leaf)

/-- A leaf as an entry of the sparse tree (`collect_sparse_account_entries`,
    `collect_sparse_contract_entries`). -/
def sparseEntry (kind : LeafKind K) (e : K × Hash) : SparseLeafEntry :=
  ⟨kind.bytes e.1, kind.path e.1, e.2⟩

/-- `can_use_cached_subroot`. -/
def canUseCachedSubroot (s : MerkleCf K) : Bool :=
  decide (s.dirtyCount.getD 1 = 0) && s.dirty.isEmpty

section
variable [Crypto]

/-! ## The ordered commitment -/

variable (kind : LeafKind K) (s : MerkleCf K)

/-- The root over a leaf cache. -/
def orderedRoot (leaves : HashMap K Hash) : Hash :=
  merkleRootFromLeaves ((leaves.inOrder kind.bytes).map Prod.snd)

/-- The leaf cache with one dirty key read again. -/
def refreshLeaf (rows : HashMap K (List UInt8)) (leaves : HashMap K Hash)
    (key : K) : HashMap K Hash :=
  match leafAt kind rows key with
  | some leaf => leaves.put key leaf
  | none => leaves.remove key

/-- `compute_accounts_root_full_scan`, `compute_contract_storage_root_full_scan`.  Only the former
    resets the dirty counter, and only if there is a leaf. -/
def fullScan : Hash × MerkleCf K :=
  let leaves := (scanLeaves kind s.rows).map Prod.snd
  if leaves.isEmpty then (Hash.zero, s)
  else (merkleRootFromLeaves leaves,
    if kind.scanResets then { s with dirtyCount := some 0 } else s)

/-- `compute_accounts_root_cold_start`, `compute_contract_storage_root_cold_start` under the ordered
    schema: the leaf cache is rebuilt, the dirty markers stay. -/
def coldStart : Hash × MerkleCf K :=
  let leaves := scanLeaves kind s.rows
  let root := merkleRootFromLeaves (leaves.map Prod.snd)
  (root, { s with
    leaves := ofEntries leaves
    leafCount := leaves.length
    dirtyCount := some 0
    cachedRoot := some root })

/-- The incremental part of `compute_accounts_root`. -/
def foldDirty : Hash × MerkleCf K :=
  let leaves := s.dirty.keys.foldl (refreshLeaf kind s.rows) s.leaves
  let root := orderedRoot kind leaves
  (root, { s with leaves, dirty := ∅, dirtyCount := some 0, cachedRoot := some root })

/-- `compute_accounts_root`, `compute_contract_storage_root` under the ordered schema. -/
def computeOrderedRoot : Hash × MerkleCf K :=
  if s.leafCount = 0 then coldStart kind s
  else match s.canUseCachedSubroot, s.cachedRoot with
    | true, some root => (root, s)
    | _, _ => foldDirty kind s

/-! ## The sparse commitment -/

/-- `rebuild_sparse_accounts_commitment`, `rebuild_sparse_contract_commitment`. -/
def rebuildSparse : Except String (MerkleCf K) := do
  let leaves := scanLeaves kind s.rows
  let (root, overlay) ← sparseComputeRootFromEntries (leaves.map (sparseEntry kind))
  .ok { s with
    leaves := ofEntries leaves
    leafCount := leaves.length
    dirty := ∅
    dirtyCount := some 0
    cachedRoot := none
    sparseRoot := some root
    sparseLeafCount := leaves.length
    nodes := { s.nodes with nodes := overlay } }

/-- The change of the tree that a dirty key stands for. -/
def dirtyChange (rows : HashMap K (List UInt8)) (key : K) : SparseLeafChange :=
  ⟨kind.bytes key, kind.path key, leafAt kind rows key⟩

/-- The leaf count after one dirty key. -/
def countLeaf (count : Nat) (key : K) : Nat :=
  match (s.leaves.get key).isSome, (leafAt kind s.rows key).isSome with
  | false, true => U64.saturatingAdd count 1
  | true, false => U64.saturatingSub count 1
  | _, _ => count

/-- `compute_sparse_accounts_root`, `compute_sparse_contract_storage_root` once the sparse tree is
    ready. -/
def computeSparseRoot : Except String Hash × MerkleCf K :=
  let currentRoot := s.sparseRoot.getD Hash.zero
  if s.dirty.isEmpty && s.canUseCachedSubroot then (.ok currentRoot, s)
  else
    match sparseRootWithChanges s.nodes currentRoot (s.dirty.keys.map (dirtyChange kind s.rows)) with
    | .error e => (.error e, s)
    | .ok (root, stage) =>
        let leafCount := s.dirty.keys.foldl (countLeaf kind s) s.sparseLeafCount
        (.ok root, { s with
          leaves := s.dirty.keys.foldl (refreshLeaf kind s.rows) s.leaves
          leafCount
          dirty := ∅
          dirtyCount := some 0
          cachedRoot := none
          sparseRoot := some root
          sparseLeafCount := leafCount
          nodes := writeSparseNodeUpdate s.nodes stage })

/-! ## Staged rows -/

/-- The part of `compute_accounts_root_for_batch` and `compute_contract_storage_root_for_batch` after
    the leaf cache has been brought up to date: the staged leaves are merged into a scan of it. -/
def orderedRootForBatch (staged : HashMap K (Option Hash)) :
    Hash :=
  merkleRootFromLeaves
    ((mergeChanges kind.bytes (staged.inOrder kind.bytes) (s.leaves.inOrder kind.bytes)).map Prod.snd)

/-- The part of `compute_sparse_accounts_root_for_batch` and
    `compute_sparse_contract_storage_root_for_batch` after the tree has been brought up to date. -/
def sparseRootForBatch (canonicalRoot : Hash)
    (staged : HashMap K (Option Hash)) : Except String Hash :=
  if staged.isEmpty then .ok canonicalRoot
  else do
    let changes := staged.toList.map fun e =>
      (⟨kind.bytes e.1, kind.path e.1, e.2⟩ : SparseLeafChange)
    let (root, _) ← sparseRootWithChanges s.nodes canonicalRoot changes
    .ok root

end
end MerkleCf
end Lichen.State
