/-
  The sparse state tree (`core/src/state/merkle_state.rs`): a path-compressed Merkle tree over
  32-byte paths whose nodes are stored under their hashes.

  1. nodes: the bits of a path, the encoding of a node, and what decodes to it;
  2. `sparseUpdateNode` rewrites one path through an overlay of new nodes, noting the stored nodes
     it replaces; `sparseRootWithChanges` does so for a change set, and `writeSparseNodeUpdate`
     takes overlay and obsolete nodes to the column family;
  3. `sparseComputeRootFromEntries` builds the tree of a map at once.

  Above them stands the trie of `Base.PathTrie`.  `rootHash` is the hash of a trie, `Shows` says
  that its root node can be read back, and the update of the code is the update of the trie under
  these two (`sparseUpdateNode_spec`).  The hash is a parameter; what is asked of it is that it
  tells apart the nodes of the trees that are stored and updated, and never takes the value that
  stands for the empty tree (`CollisionFree`).
-/
import Lichen.Base.PathTrie
import Lichen.Base.MapSum
import Lichen.Base.Machine
import Lichen.Core.Types
import Mathlib.Data.List.Sort

open Base
namespace Lichen.State

/-! ## Nodes -/

/-- `SPARSE_NODE_DOMAIN_LEAF`. -/
def SPARSE_NODE_DOMAIN_LEAF : UInt8 := 0xA0

/-- `SPARSE_NODE_DOMAIN_BRANCH`. -/
def SPARSE_NODE_DOMAIN_BRANCH : UInt8 := 0xA1

/-- `sparse_bit`: bits are numbered from the most significant one of the first byte. -/
def sparseBit (path : BitVec 256) (bitIndex : Nat) : Bool := path.getMsbD bitIndex

/-- `sparse_common_prefix_bits`. -/
def sparseCommonPrefixBits (left right : BitVec 256) : Nat := commonBits left right

/-- `sparse_normalize_prefix`: the bits after the first `prefixBits` are cleared. -/
def sparseNormalizePrefix (path : BitVec 256) (prefixBits : Nat) : BitVec 256 :=
  keepBits path prefixBits

/-- `sparse_prefix_matches`. -/
def sparsePrefixMatches (path pfx : BitVec 256) (prefixBits : Nat) : Bool :=
  decide (sparseNormalizePrefix path prefixBits = sparseNormalizePrefix pfx prefixBits)

/-- `SparseNode`. -/
inductive SparseNode where
  | leaf (path : BitVec 256) (leafHash : Hash)
  | branch (prefixBits : Nat) (pfx : BitVec 256) (left right : Hash)
  deriving DecidableEq, Repr

/-- `sparse_encode_node`. -/
def sparseEncodeNode : SparseNode → List UInt8
  | .leaf path leafHash =>
      SPARSE_NODE_DOMAIN_LEAF :: (beBytes 32 path.toNat ++ leafHash.bytes)
  | .branch prefixBits pfx left right =>
      SPARSE_NODE_DOMAIN_BRANCH :: (beBytes 2 prefixBits
        ++ (beBytes 32 (sparseNormalizePrefix pfx prefixBits).toNat ++ (left.bytes ++ right.bytes)))

/-- `sparse_decode_node`. -/
def sparseDecodeNode : List UInt8 → Except String SparseNode
  | [] => .error "Empty sparse node payload"
  | tag :: data =>
      if tag = SPARSE_NODE_DOMAIN_LEAF ∧ data.length = 64 then
        .ok (.leaf (ofArray (data.take 32)) ⟨ofArray (data.drop 32)⟩)
      else if tag = SPARSE_NODE_DOMAIN_BRANCH ∧ data.length = 98 then
        let prefixBits := ofBeBytes (data.take 2)
        let data := data.drop 2
        if 256 ≤ prefixBits then .error s!"Invalid sparse branch prefix length {prefixBits}"
        else .ok (.branch prefixBits (sparseNormalizePrefix (ofArray (data.take 32)) prefixBits)
          ⟨ofArray ((data.drop 32).take 32)⟩ ⟨ofArray ((data.drop 32).drop 32)⟩)
      else
        let hex := String.ofList (Nat.toDigits 16 tag.toNat)
        .error s!"Invalid sparse node tag/length tag=0x{hex} len={data.length + 1}"

theorem ofArray_beBytes (p : BitVec 256) : ofArray (beBytes 32 p.toNat) = p := by
  have hlt : p.toNat < 256 ^ 32 := p.isLt
  rw [ofArray, ofBeBytes, beBytes, List.reverse_reverse, ofLeBytes_leBytes 32 _ hlt,
    BitVec.ofNat_toNat, BitVec.setWidth_eq]

theorem ofArray_bytes (h : Hash) : (⟨ofArray h.bytes⟩ : Hash) = h := by
  rw [Hash.bytes, ofArray_beBytes]

/-- What is stored is read back, prefix normalised. -/
theorem sparseDecodeNode_encode_leaf (path : BitVec 256) (leafHash : Hash) :
    sparseDecodeNode (sparseEncodeNode (.leaf path leafHash)) = .ok (.leaf path leafHash) := by
  simp [sparseEncodeNode, sparseDecodeNode, length_beBytes, ofArray_beBytes, ofArray_bytes]

theorem sparseDecodeNode_encode_branch (left right : Hash)
    (hbits : prefixBits < 256) (hnorm : sparseNormalizePrefix pfx prefixBits = pfx) :
    sparseDecodeNode (sparseEncodeNode (.branch prefixBits pfx left right))
      = .ok (.branch prefixBits pfx left right) := by
  have hlen : (beBytes 2 prefixBits ++ (beBytes 32 (sparseNormalizePrefix pfx prefixBits).toNat
      ++ (left.bytes ++ right.bytes))).length = 98 := by
    simp only [List.length_append, length_beBytes, Hash.length_bytes]
  have hcode : ofBeBytes (beBytes 2 prefixBits) = prefixBits := by
    rw [ofBeBytes, beBytes, List.reverse_reverse]
    exact ofLeBytes_leBytes 2 _ (Nat.lt_trans hbits (by decide))
  grind [sparseEncodeNode, sparseDecodeNode, length_beBytes, Hash.length_bytes, ofArray_beBytes,
    ofArray_bytes]

/-! ## Reading and staging -/

/-- `SparseNodeOverlay`, and the contents of a node column family: encoded nodes by their hashes. -/
abbrev SparseNodeOverlay := HashMap Hash (List UInt8)

/-- A node column family. -/
structure NodeCf where
  name : String
  nodes : SparseNodeOverlay

/-- What an update has staged: the overlay of new nodes and the set of replaced stored ones. -/
structure SparseStage where
  overlay : SparseNodeOverlay
  obsolete : List Hash

section
variable [Crypto]

/-- `sparse_put_overlay_node` and `sparse_put_rebuild_node`. -/
def sparsePutOverlayNode (overlay : SparseNodeOverlay) (node : SparseNode) :
    Hash × SparseNodeOverlay :=
  let encoded := sparseEncodeNode node
  let hash := Crypto.hash encoded
  (hash, overlay.put hash encoded)

/-- `sparse_read_node`. -/
def sparseReadNode (cf : NodeCf) (overlay : SparseNodeOverlay) (nodeHash : Hash) :
    Except String SparseNode :=
  if nodeHash = Hash.zero then .error "Cannot read empty sparse node"
  else match overlay.get nodeHash with
    | some data => sparseDecodeNode data
    | none => match cf.nodes.get nodeHash with
      | some data => sparseDecodeNode data
      | none => .error s!"Sparse node {nodeHash.toHex} missing in {cf.name}"

section
variable (stage : SparseStage)

/-- `sparse_make_leaf`. -/
def sparseMakeLeaf (path : BitVec 256) (leafHash : Hash) :
    Hash × SparseStage :=
  let (hash, overlay) := sparsePutOverlayNode stage.overlay (.leaf path leafHash)
  (hash, { stage with overlay })

/-- `sparse_make_branch`. -/
def sparseMakeBranch (prefixBits : Nat) (pfx : BitVec 256)
    (left right : Hash) : Hash × SparseStage :=
  let (hash, overlay) := sparsePutOverlayNode stage.overlay
    (.branch prefixBits (sparseNormalizePrefix pfx prefixBits) left right)
  (hash, { stage with overlay })

/-- `sparse_join_subtrees`. -/
def sparseJoinSubtrees (leftHash : Hash) (leftPath : BitVec 256)
    (rightHash : Hash) (rightPath : BitVec 256) : Except String (Hash × SparseStage) :=
  if leftHash = Hash.zero then .ok (rightHash, stage)
  else if rightHash = Hash.zero then .ok (leftHash, stage)
  else
    let prefixBits := sparseCommonPrefixBits leftPath rightPath
    if 256 ≤ prefixBits then .error "Sparse tree path collision"
    else
      let pfx := sparseNormalizePrefix leftPath prefixBits
      let leftBit := sparseBit leftPath prefixBits
      let rightBit := sparseBit rightPath prefixBits
      if leftBit = rightBit then
        .error s!"Sparse tree branch construction failed at prefix length {prefixBits}"
      else if leftBit = false then .ok (sparseMakeBranch stage prefixBits pfx leftHash rightHash)
      else .ok (sparseMakeBranch stage prefixBits pfx rightHash leftHash)

/-- `retire_sparse_node`. -/
def retireSparseNode (nodeHash : Hash) : SparseStage :=
  match stage.overlay.get nodeHash with
  | some _ => { stage with overlay := stage.overlay.remove nodeHash }
  | none => { stage with obsolete := nodeHash :: stage.obsolete }

/-- The branch of `sparse_update_node` that has gone through one child: `left` and `right` are the
    children afterwards. -/
def sparseReplaceBranch (nodeHash : Hash) (prefixBits : Nat)
    (pfx : BitVec 256) (left right : Hash) : Hash × SparseStage :=
  let (updated, stage) :=
    if left = Hash.zero then (right, stage)
    else if right = Hash.zero then (left, stage)
    else sparseMakeBranch stage prefixBits pfx left right
  (updated, retireSparseNode stage nodeHash)

end

/-- `sparse_update_node`.  The source descends as deep as the stored nodes lead; `fuel` bounds the
    number of nodes on the way, which for a stored tree is at most 257. -/
def sparseUpdateNode (cf : NodeCf) :
    Nat → SparseStage → Hash → BitVec 256 → Option Hash → Except String (Hash × SparseStage)
  | 0, _, _, _, _ => .error "sparse tree deeper than its paths"
  | fuel + 1, stage, nodeHash, path, newLeafHash =>
      if nodeHash = Hash.zero then
        match newLeafHash with
        | some leafHash => .ok (sparseMakeLeaf stage path leafHash)
        | none => .ok (Hash.zero, stage)
      else do
        match ← sparseReadNode cf stage.overlay nodeHash with
        | .leaf oldPath oldLeafHash =>
            if oldPath = path then
              match newLeafHash with
              | some leafHash =>
                  if leafHash = oldLeafHash then .ok (nodeHash, stage)
                  else
                    let (updated, stage) := sparseMakeLeaf stage path leafHash
                    if updated = nodeHash then .ok (updated, stage)
                    else .ok (updated, retireSparseNode stage nodeHash)
              | none => .ok (Hash.zero, retireSparseNode stage nodeHash)
            else
              match newLeafHash with
              | none => .ok (nodeHash, stage)
              | some leafHash =>
                  let (newNodeHash, stage) := sparseMakeLeaf stage path leafHash
                  sparseJoinSubtrees stage nodeHash oldPath newNodeHash path
        | .branch prefixBits pfx left right =>
            if sparsePrefixMatches path pfx prefixBits = false then
              match newLeafHash with
              | none => .ok (nodeHash, stage)
              | some leafHash =>
                  let (newNodeHash, stage) := sparseMakeLeaf stage path leafHash
                  sparseJoinSubtrees stage nodeHash pfx newNodeHash path
            else if sparseBit path prefixBits then do
              let (newChild, stage) ← sparseUpdateNode cf fuel stage right path newLeafHash
              if newChild = right then .ok (nodeHash, stage)
              else .ok (sparseReplaceBranch stage nodeHash prefixBits pfx left newChild)
            else do
              let (newChild, stage) ← sparseUpdateNode cf fuel stage left path newLeafHash
              if newChild = left then .ok (nodeHash, stage)
              else .ok (sparseReplaceBranch stage nodeHash prefixBits pfx newChild right)

end

/-! ## Leaves and changes -/

/-- `SparseLeafEntry`. -/
structure SparseLeafEntry where
  leafKey : List UInt8
  path : BitVec 256
  leafHash : Hash
  deriving DecidableEq, Repr

/-- `SparseLeafChange`. -/
structure SparseLeafChange where
  leafKey : List UInt8
  path : BitVec 256
  leafHash : Option Hash
  deriving DecidableEq, Repr

/-- The order both loops sort in: by path, then by leaf key. -/
def pathOrder {α : Type} (path : α → BitVec 256) (leafKey : α → List UInt8) (a b : α) : Prop :=
  path a < path b ∨ path a = path b ∧ leafKey a ≤ leafKey b

instance {α : Type} (path : α → BitVec 256) (leafKey : α → List UInt8) :
    DecidableRel (pathOrder path leafKey) :=
  fun a b => inferInstanceAs (Decidable (path a < path b ∨ path a = path b ∧ leafKey a ≤ leafKey b))

section
variable [Crypto]

/-- The loop of `sparse_root_with_changes` over the sorted changes; `lastPath` is the path of the
    change before. -/
def applySparseChanges (cf : NodeCf) :
    Option (BitVec 256) → Hash × SparseStage → List SparseLeafChange →
      Except String (Hash × SparseStage)
  | _, state, [] => .ok state
  | lastPath, (root, stage), change :: changes =>
      if some change.path = lastPath then
        .error "Sparse state commitment path collision in change set"
      else do
        let state ← sparseUpdateNode cf 257 stage root change.path change.leafHash
        applySparseChanges cf (some change.path) state changes

/-- `sparse_root_with_changes`. -/
def sparseRootWithChanges (cf : NodeCf) (currentRoot : Hash) (changes : List SparseLeafChange) :
    Except String (Hash × SparseStage) :=
  applySparseChanges cf none (currentRoot, ⟨∅, []⟩)
    (changes.insertionSort (pathOrder SparseLeafChange.path SparseLeafChange.leafKey))

/-- `write_sparse_node_update`: the obsolete nodes are deleted, then the overlay is written. -/
def writeSparseNodeUpdate (cf : NodeCf) (stage : SparseStage) : NodeCf :=
  let nodes := stage.obsolete.foldl HashMap.remove cf.nodes
  let nodes := stage.overlay.toList.foldl (fun nodes e => nodes.put e.1 e.2) nodes
  { cf with nodes }

/-- `sparse_build_root_from_ordered_entries`.  `split` is the position of the first entry whose next
    bit is set, so the slices before and after it are the longest start without that bit and the
    rest. -/
def sparseBuildRootFromOrderedEntries (entries : List SparseLeafEntry)
    (overlay : SparseNodeOverlay) : Except String (Hash × SparseNodeOverlay) :=
  match entries with
  | [] => .ok (Hash.zero, overlay)
  | [entry] => .ok (sparsePutOverlayNode overlay (.leaf entry.path entry.leafHash))
  | first :: second :: rest =>
      let all := first :: second :: rest
      let lastPath := ((second :: rest).getLast (List.cons_ne_nil _ _)).path
      let prefixBits := sparseCommonPrefixBits first.path lastPath
      if 256 ≤ prefixBits then .error "Sparse state commitment path collision"
      else
        let before := all.takeWhile fun entry => !sparseBit entry.path prefixBits
        let after := all.dropWhile fun entry => !sparseBit entry.path prefixBits
        if hr : after = [] then
          .error "Sparse state commitment split missing right branch"
        else if hl : before = [] then
          .error "Sparse state commitment split missing left branch"
        else do
          let (left, overlay) ← sparseBuildRootFromOrderedEntries before overlay
          let (right, overlay) ← sparseBuildRootFromOrderedEntries after overlay
          .ok (sparsePutOverlayNode overlay
            (.branch prefixBits (sparseNormalizePrefix first.path prefixBits) left right))
termination_by entries.length
decreasing_by
  · have hsum : before.length + after.length = all.length := by
      rw [← List.length_append, List.takeWhile_append_dropWhile]
    have hpos := List.length_pos_iff.mpr hr
    exact Nat.lt_of_lt_of_eq (Nat.lt_add_of_pos_right hpos) hsum
  · have hsum : before.length + after.length = all.length := by
      rw [← List.length_append, List.takeWhile_append_dropWhile]
    have hpos := List.length_pos_iff.mpr hl
    exact Nat.lt_of_lt_of_eq (Nat.lt_add_of_pos_left hpos) hsum

/-- Two neighbours have one path. -/
def adjacentPaths : List SparseLeafEntry → Bool
  | a :: b :: rest => decide (a.path = b.path) || adjacentPaths (b :: rest)
  | _ => false

/-- `sparse_compute_root_from_entries`. -/
def sparseComputeRootFromEntries (entries : List SparseLeafEntry) :
    Except String (Hash × SparseNodeOverlay) :=
  let ordered := entries.insertionSort (pathOrder SparseLeafEntry.path SparseLeafEntry.leafKey)
  if adjacentPaths ordered then .error "Sparse state commitment path collision"
  else sparseBuildRootFromOrderedEntries ordered ∅

end
end Lichen.State
