/-
  The tree of the note commitments (`core/src/zk/merkle.rs`).

  The tree keeps its leaves only.  Its root and its paths are computed level by level, with a fixed
  hash for what is absent on a level.  An absent node is the hash of two absent ones below it, so
  every node of the full tree, present or not, is the hash of its two children (`node_succ`).  Hence
  a path leads from a leaf to the root, and every path that leads there starts on a node of the lowest
  level or hashes, on its way, to a node what are not its children.
-/
import Lichen.Base.Machine

namespace Lichen.Zk

/-- The hash of the tree, over any type of digests, and the empty leaf. -/
class Poseidon (D : Type) where
  poseidonHashPair : D → D → D
  zero : D

open Poseidon

def TREE_DEPTH : Nat := 20

def TREE_CAPACITY : Nat := 2 ^ TREE_DEPTH

structure MerklePath (D : Type) where
  siblings : List D
  pathBits : List Bool
  index : Nat

/-- The leaves; `empty_hashes` is the same in every tree. -/
structure MerkleTree (D : Type) where
  leaves : List D

variable [Poseidon D]

/-- `empty_hashes[depth]`. -/
def emptyHash : Nat → D
  | 0 => zero
  | depth + 1 => poseidonHashPair (emptyHash depth) (emptyHash depth)

/-- The level above, where `empty` stands for what is absent. -/
def nextLevel (empty : D) : List D → List D
  | [] => []
  | [left] => [poseidonHashPair left empty]
  | left :: right :: rest => poseidonHashPair left right :: nextLevel empty rest

namespace MerkleTree

/-- `current_level` at a depth of the loops. -/
def level (t : MerkleTree D) : Nat → List D
  | 0 => t.leaves
  | depth + 1 => nextLevel (emptyHash depth) (t.level depth)

/-- An entry of a level, or the hash that stands for it. -/
def node (t : MerkleTree D) (depth i : Nat) : D := (t.level depth).getD i (emptyHash depth)

def root (t : MerkleTree D) : D := (t.level TREE_DEPTH).headD (emptyHash TREE_DEPTH)

/-- The loop of `proof` from a depth on: the sibling and the bit of each of the depths left. -/
def pathFrom (t : MerkleTree D) : Nat → Nat → Nat → List (D × Bool)
  | 0, _, _ => []
  | left + 1, depth, currentIndex =>
    let isRight := currentIndex % 2 = 1
    let siblingIndex := if isRight then currentIndex - 1 else currentIndex + 1
    (t.node depth siblingIndex, decide isRight) :: t.pathFrom left (depth + 1) (currentIndex / 2)

def proof (t : MerkleTree D) (index : Nat) : Option (MerklePath D) :=
  if index ≥ t.leaves.length then none
  else
    let path := t.pathFrom TREE_DEPTH 0 index
    some ⟨path.unzip.1, path.unzip.2, index⟩

end MerkleTree

/-- One turn of the loop of `verify_proof`. -/
def climb (current : D) (s : D × Bool) : D :=
  if s.2 then poseidonHashPair s.1 current else poseidonHashPair current s.1

def verifyProof [DecidableEq D] (root leaf : D) (proof : MerklePath D) : Bool :=
  if proof.siblings.length ≠ TREE_DEPTH ∨ proof.pathBits.length ≠ TREE_DEPTH then false
  else (proof.siblings.zip proof.pathBits).foldl climb leaf = root

/-! ## The full tree -/

theorem getD_nextLevel (empty : D) (l : List D) (i : Nat) :
    (nextLevel empty l).getD i (poseidonHashPair empty empty)
      = poseidonHashPair (l.getD (2 * i) empty) (l.getD (2 * i + 1) empty) := by
  fun_induction nextLevel empty l generalizing i with
  | case1 => rfl
  | case2 left =>
    cases i with
    | zero => rfl
    | succ i => rfl
  | case3 left right rest ih =>
    cases i with
    | zero => rfl
    | succ i => exact ih i

namespace MerkleTree

variable {t : MerkleTree D}

/-- **Every node is the hash of its children.** -/
theorem node_succ (depth i : Nat) :
    t.node (depth + 1) i = poseidonHashPair (t.node depth (2 * i)) (t.node depth (2 * i + 1)) :=
  getD_nextLevel _ _ _

theorem root_eq : t.root = t.node TREE_DEPTH 0 := by
  unfold root node
  cases t.level TREE_DEPTH with
  | nil => rfl
  | cons top rest => rfl

/-- One turn along the tree's own siblings. -/
theorem climb_node (depth i : Nat) :
    climb (t.node depth i) (t.node depth (if i % 2 = 1 then i - 1 else i + 1), decide (i % 2 = 1))
      = t.node (depth + 1) (i / 2) := by
  rw [node_succ]
  by_cases hodd : i % 2 = 1
  · rw [if_pos hodd, decide_eq_true hodd, show 2 * (i / 2) = i - 1 by omega,
      show i - 1 + 1 = i by omega]
    rfl
  · rw [if_neg hodd, decide_eq_false hodd, show 2 * (i / 2) = i by omega]
    rfl

/-- The path of the tree leads to the node above. -/
theorem foldl_pathFrom :
    (t.pathFrom left depth i).foldl climb (t.node depth i) = t.node (depth + left) (i / 2 ^ left) := by
  induction left generalizing depth i with
  | zero => rw [Nat.pow_zero, Nat.div_one]; rfl
  | succ left ih =>
    show (t.pathFrom left (depth + 1) (i / 2)).foldl climb (climb (t.node depth i) _) = _
    rw [show climb (t.node depth i) _ = _ from climb_node depth i, ih, Nat.div_div_eq_div_mul,
      ← Nat.pow_succ', Nat.add_right_comm, Nat.add_assoc]

theorem length_pathFrom : (t.pathFrom left depth i).length = left := by
  induction left generalizing depth i with
  | zero => rfl
  | succ left ih => exact congrArg (· + 1) ih

/-- The pair that a turn of the loop hashes. -/
def pairAt (current : D) (s : D × Bool) : D × D := if s.2 then (s.1, current) else (current, s.1)

theorem climb_eq (x : D) (s : D × Bool) :
    climb x s = poseidonHashPair (pairAt x s).1 (pairAt x s).2 := by
  unfold climb pairAt
  split
  · rfl
  · rfl

/-- A path from `x` up from `depth` collides with the tree: some pair it hashes has the hash of a node
    without being the two children of that node. -/
def Collides (t : MerkleTree D) (depth : Nat) (x : D) (path : List (D × Bool)) : Prop :=
  ∃ k s i, path[k]? = some s
    ∧ pairAt ((path.take k).foldl climb x) s
      ≠ (t.node (depth + k) (2 * i), t.node (depth + k) (2 * i + 1))
    ∧ climb ((path.take k).foldl climb x) s = t.node (depth + k + 1) i

/-- A hash without collisions has none with the tree. -/
theorem not_collides (hfree : Function.Injective2 (poseidonHashPair : D → D → D)) (depth : Nat)
    (x : D) (path : List (D × Bool)) : ¬ t.Collides depth x path := by
  rintro ⟨k, s, i, -, hne, hclimb⟩
  rw [node_succ, climb_eq] at hclimb
  obtain ⟨hleft, hright⟩ := hfree hclimb
  exact hne (Prod.ext hleft hright)

/-- Every path that leads to a node comes from a node, or collides. -/
theorem exists_node_of_foldl {path : List (D × Bool)} : ∀ {depth j : Nat} {x : D},
    path.foldl climb x = t.node (depth + path.length) j →
      (∃ i, x = t.node depth i) ∨ t.Collides depth x path := by
  induction path with
  | nil => exact fun h => .inl ⟨_, h⟩
  | cons s path ih =>
    intro depth j x h
    rw [List.length_cons, ← Nat.add_assoc, Nat.add_right_comm] at h
    rcases ih h with ⟨i, hi⟩ | ⟨k, s', i, hs', hne, hclimb⟩
    · by_cases hpair : pairAt x s = (t.node depth (2 * i), t.node depth (2 * i + 1))
      · -- the pair is the children, so `x` is one of them
        left
        unfold pairAt at hpair
        split at hpair
        · exact ⟨_, (Prod.mk.inj hpair).2⟩
        · exact ⟨_, (Prod.mk.inj hpair).1⟩
      · exact .inr ⟨0, s, i, rfl, hpair, hi⟩
    · refine .inr ⟨k + 1, s', i, hs', ?_, ?_⟩
      · rw [← Nat.add_assoc, Nat.add_right_comm]
        exact hne
      · rw [← Nat.add_assoc, Nat.add_right_comm depth k 1]
        exact hclimb

end MerkleTree

/-- **Proofs of the note tree are complete**, and **sound** as far as the hash is: a leaf that is accepted
    is in the tree or the empty one, or the path to it collides with the tree. -/
theorem note_proofs_exact {D : Type} [Poseidon D] [DecidableEq D] (t : MerkleTree D)
    (hcapacity : t.leaves.length ≤ TREE_CAPACITY) :
    (∀ i leaf, t.leaves[i]? = some leaf →
        ∃ p, t.proof i = some p ∧ verifyProof t.root leaf p = true)
      ∧ ∀ leaf p, verifyProof t.root leaf p = true →
        leaf ∈ t.leaves ∨ leaf = zero ∨ t.Collides 0 leaf (p.siblings.zip p.pathBits) := by
  constructor
  · intro i leaf hleaf
    obtain ⟨hi, -⟩ := List.getElem?_eq_some_iff.mp hleaf
    refine ⟨_, if_neg (Nat.not_le.mpr hi), ?_⟩
    have hnode : t.node 0 i = leaf := by
      show t.leaves.getD i _ = leaf
      rw [List.getD_eq_getElem?_getD, hleaf]
      rfl
    have hpath := @MerkleTree.foldl_pathFrom D _ t TREE_DEPTH 0 i
    have htop : i / 2 ^ TREE_DEPTH = 0 := Nat.div_eq_of_lt (hi.trans_le hcapacity)
    rw [hnode, htop, Nat.zero_add] at hpath
    have hlen := @MerkleTree.length_pathFrom D _ t TREE_DEPTH 0 i
    unfold verifyProof
    rw [if_neg (by simp [hlen]), List.zip_unzip, hpath, MerkleTree.root_eq]
    exact decide_eq_true rfl
  · intro leaf p h
    unfold verifyProof at h
    split at h
    · cases h
    · next hlen =>
      rw [not_or, not_not, not_not] at hlen
      have hdepth : (p.siblings.zip p.pathBits).length = TREE_DEPTH := by
        rw [List.length_zip, hlen.1, hlen.2, Nat.min_self]
      rw [decide_eq_true_eq, MerkleTree.root_eq, ← hdepth, ← Nat.zero_add (List.length _)] at h
      rcases MerkleTree.exists_node_of_foldl h with ⟨i, rfl⟩ | hcollides
      · show t.leaves.getD i zero ∈ t.leaves ∨ t.leaves.getD i zero = zero ∨ _
        rw [List.getD_eq_getElem?_getD]
        cases hi : t.leaves[i]? with
        | none => exact .inr (.inl rfl)
        | some leaf => exact .inl (List.mem_of_getElem? hi)
      · exact .inr (.inr hcollides)

/-- Digests that are the trees they stand for: a hash without collisions. -/
inductive Digest where
  | leaf (n : Nat)
  | pair (left right : Digest)
  deriving DecidableEq

instance : Poseidon Digest := ⟨.pair, .leaf 0⟩

theorem note_proofs_exact_two :
    let t : MerkleTree Digest := ⟨[.leaf 5, .leaf 7]⟩
    (∃ p, t.proof 1 = some p ∧ verifyProof t.root (.leaf 7) p = true)
      ∧ ∀ leaf p, verifyProof t.root leaf p = true → leaf ∈ t.leaves ∨ leaf = zero := by
  intro t
  obtain ⟨hcomplete, hsound⟩ := note_proofs_exact t (by decide)
  have hfree : Function.Injective2 (poseidonHashPair : Digest → Digest → Digest) :=
    fun _ _ _ _ => Digest.pair.inj
  refine ⟨hcomplete 1 _ rfl, fun leaf p h => ?_⟩
  rcases hsound leaf p h with hmem | hzero | hcollides
  · exact .inl hmem
  · exact .inr hzero
  · exact absurd hcollides (MerkleTree.not_collides hfree _ _ _)

end Lichen.Zk
