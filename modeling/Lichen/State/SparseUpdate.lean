/-
  The incremental update of the sparse state tree is the update of a trie.

  A stored tree is described by the trie it spells out: `rootHash` is the hash the code would give
  it, and a store `Holds` it when every node below the root can be read under its hash.  One update
  of the code, on a stage that holds a trie, returns the hash of the updated trie and a stage that
  holds it; of the other nodes only those of the old trie may be gone (`Rewrites`).  That is where
  the hash must tell nodes apart: a retired node is recognised by its hash alone.
-/
import Lichen.State.SparseTree

open Base
namespace Lichen.State
open SparseStage

/-! ## Tries and their hashes -/

/-- A sparse tree, written out. -/
abbrev SparseTrie := Trie 256 Hash

section
variable [Crypto]

/-- The hash of the root node. -/
def rootHash : SparseTrie → Hash
  | .leaf path leafHash => Crypto.hash (sparseEncodeNode (.leaf path leafHash))
  | .branch prefixBits pfx left right =>
      Crypto.hash (sparseEncodeNode (.branch prefixBits pfx (rootHash left) (rootHash right)))

/-- The root node. -/
def rootNode : SparseTrie → SparseNode
  | .leaf path leafHash => .leaf path leafHash
  | .branch prefixBits pfx left right => .branch prefixBits pfx (rootHash left) (rootHash right)

/-- The root of a tree that may be empty. -/
def optRoot : Option SparseTrie → Hash
  | none => Hash.zero
  | some t => rootHash t

/-- A node, with what is below it, of one of the trees. -/
def NodeOf (trees : Set SparseTrie) (t : SparseTrie) : Prop :=
  ∃ whole ∈ trees, whole.Canonical ∧ Trie.Sub t whole

/-- **The node hash is collision free and never the empty hash**, on the nodes of these trees. -/
structure CollisionFree (trees : Set SparseTrie) : Prop where
  encode_eq : ∀ s t : SparseTrie, NodeOf trees s → NodeOf trees t → rootHash s = rootHash t →
    sparseEncodeNode (rootNode s) = sparseEncodeNode (rootNode t)
  ne_zero : ∀ t : SparseTrie, NodeOf trees t → rootHash t ≠ Hash.zero

variable {trees : Set SparseTrie} {s t : SparseTrie}

variable {prefixBits : Nat} {pfx : BitVec 256} {l r : SparseTrie}

section
omit [Crypto]

theorem NodeOf.canonical (h : NodeOf trees t) : t.Canonical := by
  obtain ⟨whole, -, hcanonical, hsub⟩ := h
  exact hcanonical.sub hsub

theorem NodeOf.sub (h : NodeOf trees t) (hs : Trie.Sub s t) : NodeOf trees s := by
  obtain ⟨whole, hmem, hcanonical, hsub⟩ := h
  exact ⟨whole, hmem, hcanonical, hs.trans hsub⟩

theorem NodeOf.left (h : NodeOf trees (.branch prefixBits pfx l r)) : NodeOf trees l :=
  h.sub (.inr (.inl (.refl l)))

theorem NodeOf.right (h : NodeOf trees (.branch prefixBits pfx l r)) : NodeOf trees r :=
  h.sub (.inr (.inr (.refl r)))

end

/-- The root node of a canonical tree is read back from its encoding. -/
theorem NodeOf.decode (h : NodeOf trees t) :
    sparseDecodeNode (sparseEncodeNode (rootNode t)) = .ok (rootNode t) := by
  cases t with
  | leaf path leafHash => exact sparseDecodeNode_encode_leaf path leafHash
  | branch prefixBits pfx l r =>
    obtain ⟨hlt, hnorm, -⟩ := h.canonical
    exact sparseDecodeNode_encode_branch _ _ hlt hnorm

/-- Trees with one hash are one tree. -/
theorem CollisionFree.rootNode_eq (hfree : CollisionFree trees) (hs : NodeOf trees s)
    (ht : NodeOf trees t) (h : rootHash s = rootHash t) : rootNode s = rootNode t := by
  have hdec := hs.decode
  rw [hfree.encode_eq s t hs ht h, ht.decode] at hdec
  exact (Except.ok.inj hdec).symm

theorem CollisionFree.rootHash_inj (hfree : CollisionFree trees) (hs : NodeOf trees s)
    (ht : NodeOf trees t) (h : rootHash s = rootHash t) : s = t := by
  induction s generalizing t with
  | leaf path leafHash =>
    have hnode := hfree.rootNode_eq hs ht h
    cases t with
    | leaf path' leafHash' =>
      grind [rootNode]
    | branch prefixBits pfx l r => exact SparseNode.noConfusion hnode
  | branch prefixBits pfx l r ihl ihr =>
    have hnode := hfree.rootNode_eq hs ht h
    cases t with
    | leaf path' leafHash' => exact SparseNode.noConfusion hnode
    | branch prefixBits' pfx' l' r' =>
      grind [rootNode, NodeOf.left, NodeOf.right]

variable {q : BitVec 256} {new : Option Hash}

omit [Crypto] in
/-- The new leaf is a node of the updated tree. -/
theorem NodeOf.new_leaf (ht : t.Canonical) (hup : ∀ u, t.update q new = some u → NodeOf trees u)
    (hnew : new = some v) : NodeOf trees (.leaf q v) := by
  have hmem : (q, v) ∈ Trie.optEntries (t.update q new) :=
    (Trie.entries_update ht q new (q, v)).mpr (.inr ⟨rfl, hnew⟩)
  cases hu : t.update q new with
  | none =>
    rw [hu] at hmem
    exact (Trie.mem_optEntries_none.mp hmem).elim
  | some u =>
    rw [hu] at hmem
    exact (hup u hu).sub (Trie.sub_leaf (Trie.mem_optEntries_some.mp hmem))

/-! ## Stores that hold a tree -/

/-- The root node of `t` is found under its hash. -/
def Shows (store : Hash → Option (List UInt8)) (t : SparseTrie) : Prop :=
  store (rootHash t) = some (sparseEncodeNode (rootNode t))

/-- Every node of `t` is found under its hash. -/
def Holds (store : Hash → Option (List UInt8)) (t : SparseTrie) : Prop :=
  ∀ s, Trie.Sub s t → Shows store s

/-- What the column family will hold once the stage is written. -/
def SparseStage.view (cf : NodeCf) (stage : SparseStage) (hash : Hash) : Option (List UInt8) :=
  match stage.overlay.get hash with
  | some data => some data
  | none => if hash ∈ stage.obsolete then none else cf.nodes.get hash

variable {cf : NodeCf} {stage stage' : SparseStage}

theorem Holds.branch (h : Shows store (.branch prefixBits pfx l r)) (hl : Holds store l)
    (hr : Holds store r) : Holds store (.branch prefixBits pfx l r) := by
  rintro s (rfl | hs | hs)
  · exact h
  · exact hl s hs
  · exact hr s hs

/-- What the view shows is what the code reads. -/
theorem sparseReadNode_of_shows (hfree : CollisionFree trees) (ht : NodeOf trees t)
    (h : Shows (stage.view cf) t) :
    sparseReadNode cf stage.overlay (rootHash t) = .ok (rootNode t) := by
  unfold sparseReadNode
  rw [if_neg (hfree.ne_zero t ht)]
  grind [Shows, view, NodeOf.decode]

/-- Putting a node of a tree into the overlay. -/
def SparseStage.add (stage : SparseStage) (t : SparseTrie) : SparseStage :=
  { stage with overlay := stage.overlay.put (rootHash t) (sparseEncodeNode (rootNode t)) }

/-- A new node is shown. -/
theorem shows_add (stage : SparseStage) (t : SparseTrie) : Shows ((stage.add t).view cf) t := by
  unfold Shows view add
  rw [HashMap.get_put_self]

section
variable (hfree : CollisionFree trees) (hs : NodeOf trees s) (ht : NodeOf trees t)
  (h : Shows (stage.view cf) s)
include hfree hs ht h

/-- A new node hides none. -/
theorem Shows.add : Shows ((stage.add t).view cf) s := by
  by_cases hst : rootHash s = rootHash t
  · rw [hfree.rootHash_inj hs ht hst]
    exact shows_add stage t
  · unfold Shows view SparseStage.add at *
    rw [HashMap.get_put_ne _ _ hst]
    exact h

/-- Retiring a node hides no other. -/
theorem Shows.retire (hne : s ≠ t) : Shows ((retireSparseNode stage (rootHash t)).view cf) s := by
  grind [CollisionFree.rootHash_inj, Shows, view, retireSparseNode]

end

theorem sparseMakeLeaf_eq (stage : SparseStage) (path : BitVec 256) (leafHash : Hash) :
    sparseMakeLeaf stage path leafHash
      = (rootHash (.leaf path leafHash), stage.add (.leaf path leafHash)) := rfl

theorem sparseMakeBranch_eq (stage : SparseStage)
    (hnorm : keepBits pfx prefixBits = pfx) (l r : SparseTrie) :
    sparseMakeBranch stage prefixBits pfx (rootHash l) (rootHash r)
      = (rootHash (.branch prefixBits pfx l r), stage.add (.branch prefixBits pfx l r)) := by
  unfold sparseMakeBranch sparsePutOverlayNode sparseNormalizePrefix
  rw [hnorm]
  rfl

/-- Joining two different paths puts the branch over them. -/
theorem sparseJoinSubtrees_eq (hfree : CollisionFree trees) (hs : NodeOf trees s)
    (ht : NodeOf trees t) (hpq : p ≠ q) :
    sparseJoinSubtrees stage (rootHash s) p (rootHash t) q
      = .ok (rootHash (s.join p t q), stage.add (s.join p t q)) := by
  obtain ⟨-, hdiff⟩ := commonBits_lt hpq
  have hnorm := keepBits_keepBits p (commonBits p q)
  unfold sparseJoinSubtrees sparseCommonPrefixBits sparseNormalizePrefix sparseBit
  grind [CollisionFree.ne_zero, Trie.join, sparseMakeBranch_eq]

/-! ## One update -/

/-- **What an update of `t` into `u` does to the stage**: it holds `u`, and every node outside `t`
    is still there. -/
structure Rewrites (trees : Set SparseTrie) (cf : NodeCf) (t : SparseTrie)
    (u : Option SparseTrie) (stage stage' : SparseStage) : Prop where
  frame : ∀ s, NodeOf trees s → ¬ Trie.Sub s t → Shows (stage.view cf) s → Shows (stage'.view cf) s
  holds : ∀ v, u = some v → Holds (stage'.view cf) v

/-- The unchanged tree. -/
theorem Rewrites.refl (h : Holds (stage.view cf) t) : Rewrites trees cf t
    (some t) stage stage where
  frame := fun _ _ _ hs => hs
  holds := fun _ hv => Option.some.inj hv ▸ h

/-- A leaf beside the tree: two new nodes. -/
theorem Rewrites.join (hfree : CollisionFree trees) (ht : NodeOf trees t)
    (h : Holds (stage.view cf) t)
    (hleaf : NodeOf trees (.leaf q v)) (hjoin : NodeOf trees (t.join p (.leaf q v) q)) :
    Rewrites trees cf t (some (t.join p (.leaf q v) q)) stage
      ((stage.add (.leaf q v)).add (t.join p (.leaf q v) q)) := by
  have hkeep : ∀ s, NodeOf trees s → Shows (stage.view cf) s →
      Shows (((stage.add (.leaf q v)).add (t.join p (.leaf q v) q)).view cf) s :=
    fun s hs hshow => (hshow.add hfree hs hleaf).add hfree hs hjoin
  have hholds_t : Holds (((stage.add (.leaf q v)).add (t.join p (.leaf q v) q)).view cf) t :=
    fun s hs => hkeep s (ht.sub hs) (h s hs)
  have hholds_leaf : Holds (((stage.add (.leaf q v)).add (t.join p (.leaf q v) q)).view cf)
      (.leaf q v) := by
    rintro s rfl
    exact (shows_add stage (.leaf q v)).add hfree hleaf hjoin
  refine ⟨fun s hs _ hshow => hkeep s hs hshow, fun u hu => ?_⟩
  grind [shows_add, Trie.join, Holds.branch]

/-- The tree `t` gives way to `u`: nodes were added, then the root of `t` is retired. -/
theorem Rewrites.replace (hfree : CollisionFree trees) (ht : NodeOf trees t)
    (hu : NodeOf trees u) (hnsub : ¬ Trie.Sub t u) (hholds : Holds (stage'.view cf) u)
    (hframe : ∀ s, NodeOf trees s → ¬ Trie.Sub s t → Shows (stage.view cf) s →
      Shows (stage'.view cf) s) :
    Rewrites trees cf t (some u) stage (retireSparseNode stage' (rootHash t)) where
  frame := by
    intro s hs hns hshow
    refine (hframe s hs hns hshow).retire hfree hs ht ?_
    rintro rfl
    exact hns (.refl s)
  holds := by
    intro v hv s hsub
    rw [← Option.some.inj hv] at hsub
    refine (hholds s hsub).retire hfree (hu.sub hsub) ht ?_
    rintro rfl
    exact hnsub hsub

/-! ### The two sides of a branch -/

/-- A branch `t`, the side `old` an update goes into and the `other` one. -/
structure Sides (t old other : SparseTrie) : Prop where
  sub_old : ∀ s, Trie.Sub s old → Trie.Sub s t
  sub_other : ∀ s, Trie.Sub s other → Trie.Sub s t
  cover : ∀ s, Trie.Sub s t → s = t ∨ Trie.Sub s old ∨ Trie.Sub s other
  apart : ∀ s, Trie.Sub s other → ¬ Trie.Sub s old
  above_old : ¬ Trie.Sub t old
  above_other : ¬ Trie.Sub t other

section
variable (h : (Trie.branch prefixBits pfx l r).Canonical)
include h

section
omit [Crypto]

/-- A branch has entries with either value of its bit. -/
theorem not_sub_of_bit (hu : ∀ e ∈ u.entries, e.1.getMsbD prefixBits = b) :
    ¬ Trie.Sub (.branch prefixBits pfx l r) u := by
  intro _
  obtain ⟨⟨e, he, hclear⟩, ⟨f, hf, hset⟩⟩ := h.parts
  grind [Trie.Sub.mem_entries]

theorem apart_of_canonical (hl : Trie.Sub s l) (hr : Trie.Sub s r) : False := by
  obtain ⟨e, he⟩ := s.exists_entry
  have hclear := (h.mem_left.mp (hl.mem_entries he)).2
  have hset := (h.mem_right.mp (hr.mem_entries he)).2
  exact Bool.noConfusion (hclear.symm.trans hset)

theorem sides_right : Sides (.branch prefixBits pfx l r) r l where
  sub_old := fun s hs => Or.inr (Or.inr hs)
  sub_other := fun s hs => Or.inr (Or.inl hs)
  cover := by
    grind [Trie.Sub]
  apart := fun s hl hr => apart_of_canonical h hl hr
  above_old := not_sub_of_bit h fun e he => (h.mem_right.mp he).2
  above_other := not_sub_of_bit h fun e he => (h.mem_left.mp he).2

theorem sides_left : Sides (.branch prefixBits pfx l r) l r where
  sub_old := fun _ hs => .inr (.inl hs)
  sub_other := fun _ hs => .inr (.inr hs)
  cover := fun _ hs => hs
  apart := fun _ hr hl => apart_of_canonical h hl hr
  above_old := not_sub_of_bit h fun _ he => (h.mem_left.mp he).2
  above_other := not_sub_of_bit h fun _ he => (h.mem_right.mp he).2

end

end

variable {old other : SparseTrie}

omit [Crypto] in
/-- Two branches that share a side and differ are not below one another. -/
theorem Sides.not_sub (h : Sides t old other) (h' : Sides u v other) (hne : t ≠ u) :
    ¬ Trie.Sub t u := by
  intro hsub
  rcases h'.cover t hsub with heq | hv | hother
  · exact hne heq
  · exact h'.apart other (.refl other) (.trans (h.sub_other other (.refl other)) hv)
  · exact h.above_other hother

/-- The other side is held as before. -/
theorem Sides.holds_other (hsides : Sides t old other) (ht : NodeOf trees t)
    (h : Holds (stage.view cf) t)
    (hrew : Rewrites trees cf old u stage stage') : Holds (stage'.view cf) other := by
  intro s hs
  have hsub := hsides.sub_other s hs
  exact hrew.frame s (ht.sub hsub) (hsides.apart s hs) (h s hsub)

section
variable (hsides : Sides t old other) (hfree : CollisionFree trees) (ht : NodeOf trees t)
  (h : Holds (stage.view cf) t)
include hsides hfree ht h

/-- The side is gone: the other one takes the place of the branch. -/
theorem Sides.gone (hrew : Rewrites trees cf old none stage stage') :
    Rewrites trees cf t (some other) stage (retireSparseNode stage' (rootHash t)) :=
  .replace hfree ht (ht.sub (hsides.sub_other other (.refl other)))
    hsides.above_other (hsides.holds_other ht h hrew)
    fun s hs hns => hrew.frame s hs fun hold => hns (hsides.sub_old s hold)

/-- The side has changed: a new branch takes the place of the old one. -/
theorem Sides.changed (hrew : Rewrites trees cf old (some v) stage stage') (hu : NodeOf trees u)
    (hsides' : Sides u v other) (hnsub : ¬ Trie.Sub t u) :
    Rewrites trees cf t (some u) stage (retireSparseNode (stage'.add u) (rootHash t)) := by
  refine .replace hfree ht hu hnsub ?_ ?_
  · intro s hsub
    rcases hsides'.cover s hsub with rfl | hv | hother
    · exact shows_add stage' s
    · exact (hrew.holds v rfl s hv).add hfree (hu.sub hsub) hu
    · exact (hsides.holds_other ht h hrew s hother).add hfree (hu.sub hsub) hu
  · intro s hs hns hshow
    refine (hrew.frame s hs (fun hold => hns (hsides.sub_old s hold)) hshow).add hfree hs hu

end

/-- What the code makes of the two sides. -/
theorem sparseReplaceBranch_eq (hfree : CollisionFree trees) (stage : SparseStage)
    (nodeHash : Hash) (hnorm : keepBits pfx prefixBits = pfx) (hl : NodeOf trees l)
    (hr : NodeOf trees r) :
    sparseReplaceBranch stage nodeHash prefixBits pfx (rootHash l) (rootHash r)
        = (rootHash (.branch prefixBits pfx l r),
            retireSparseNode (stage.add (.branch prefixBits pfx l r)) nodeHash)
      ∧ sparseReplaceBranch stage nodeHash prefixBits pfx (rootHash l) Hash.zero
        = (rootHash l, retireSparseNode stage nodeHash)
      ∧ sparseReplaceBranch stage nodeHash prefixBits pfx Hash.zero (rootHash r)
        = (rootHash r, retireSparseNode stage nodeHash) := by
  grind [sparseReplaceBranch, CollisionFree.ne_zero, sparseMakeBranch_eq]

/-! ### The update -/

/-- **How an update at `q` goes**, one constructor for each way a node can be treated: it stays, it is
    a leaf that is dropped or replaced, it is joined by a new leaf, it is a branch that loses the side
    the update went into, or a branch one of whose sides has changed.  The stage takes the new nodes
    on the way up and retires the old ones. -/
inductive Traced (trees : Set SparseTrie) (q : BitVec 256) :
    SparseTrie → Option SparseTrie → SparseStage → SparseStage → Prop
  | same (t : SparseTrie) (stage : SparseStage) : Traced trees q t (some t) stage stage
  | dropped (value : Hash) (stage : SparseStage) :
      Traced trees q (.leaf q value) none stage (retireSparseNode stage (rootHash (.leaf q value)))
  | replaced {value v : Hash} (stage : SparseStage) (hne : v ≠ value)
      (hleaf : NodeOf trees (.leaf q v)) :
      Traced trees q (.leaf q value) (some (.leaf q v)) stage
        (retireSparseNode (stage.add (.leaf q v)) (rootHash (.leaf q value)))
  | joined {t : SparseTrie} {p : BitVec 256} {v : Hash} (stage : SparseStage)
      (hleaf : NodeOf trees (.leaf q v)) (hjoin : NodeOf trees (t.join p (.leaf q v) q)) :
      Traced trees q t (some (t.join p (.leaf q v) q)) stage
        ((stage.add (.leaf q v)).add (t.join p (.leaf q v) q))
  | gone {t old other : SparseTrie} {stage stage' : SparseStage} (hsides : Sides t old other)
      (h : Traced trees q old none stage stage') :
      Traced trees q t (some other) stage (retireSparseNode stage' (rootHash t))
  | changed {t u old v other : SparseTrie} {stage stage' : SparseStage}
      (hsides : Sides t old other) (hsides' : Sides u v other) (hu : NodeOf trees u) (hne : t ≠ u)
      (h : Traced trees q old (some v) stage stage') :
      Traced trees q t (some u) stage (retireSparseNode (stage'.add u) (rootHash t))

section
omit [Crypto]

/-- A leaf that joins a tree was not in it. -/
theorem leaf_not_sub_of_join
    (hjoin : (t.join p (.leaf q v) q).Canonical) : ¬ Trie.Sub (.leaf q v) t := by
  intro hsub
  unfold Trie.join at hjoin
  split at hjoin
  · exact apart_of_canonical hjoin (.refl _) hsub
  · exact apart_of_canonical hjoin hsub (.refl _)

theorem sub_join (t u : SparseTrie) (p q : BitVec 256) :
    Trie.Sub t (t.join p u q) ∧ Trie.Sub u (t.join p u q) := by
  grind [Trie.join, Trie.Sub.refl, Trie.Sub]

end

/-- A tree that stays leaves the stage alone. -/
theorem Traced.stage_eq
    (h : Traced trees q t u stage stage') (hu : u = some t) : stage' = stage := by
  cases h with
  | same => rfl
  | dropped value => simp at hu
  | replaced _ hne _ =>
    grind
  | @joined _ p v _ _ hjoin =>
    grind [sub_join, leaf_not_sub_of_join, NodeOf.canonical]
  | gone hsides _ =>
    have hother := Option.some.inj hu
    exact absurd (hother ▸ .refl _) hsides.above_other
  | changed _ _ _ hne _ => exact absurd (Option.some.inj hu).symm hne

section
variable (hfree : CollisionFree trees)
include hfree

/-- A traced update rewrites the tree. -/
theorem Traced.rewrites (htraced : Traced trees q t u stage stage') (ht : NodeOf trees t)
    (h : Holds (stage.view cf) t) : Rewrites trees cf t u stage stage' := by
  induction htraced with
  | same => exact .refl h
  | dropped value stage =>
    refine ⟨fun s hs hns hshow => hshow.retire hfree hs ht hns, fun v hv => ?_⟩
    simp at hv
  | @replaced value v stage hne hleaf =>
    have hnsub : ¬ Trie.Sub (.leaf q value : SparseTrie) (.leaf q v) := by
      intro hsub
      have heq : (Trie.leaf q value : SparseTrie) = .leaf q v := hsub
      rw [Trie.leaf.injEq] at heq
      exact hne heq.2.symm
    refine .replace hfree ht hleaf hnsub ?_ fun s hs _ hshow => hshow.add hfree hs hleaf
    rintro s rfl
    exact shows_add stage _
  | joined stage hleaf hjoin => exact .join hfree ht h hleaf hjoin
  | gone hsides _ ih =>
    have hold := ih (ht.sub (hsides.sub_old _ (.refl _))) fun s hs => h s (hsides.sub_old s hs)
    exact hsides.gone hfree ht h hold
  | changed hsides hsides' hu hne _ ih =>
    have hold := ih (ht.sub (hsides.sub_old _ (.refl _))) fun s hs => h s (hsides.sub_old s hs)
    exact hsides.changed hfree ht h hold hu hsides' (hsides.not_sub hsides' hne)

/-- A leaf is replaced, deleted, or joined by another one. -/
theorem sparseUpdateNode_leaf
    (ht : NodeOf trees (.leaf path value)) (hleaf : ∀ v, new = some v → NodeOf trees (.leaf q v))
    (hover : ∀ u, (Trie.leaf path value).update q new = some u → NodeOf trees u) (fuel : Nat)
    (h : Holds (stage.view cf) (.leaf path value)) :
    ∃ stage', sparseUpdateNode cf (fuel + 1) stage (rootHash (.leaf path value)) q new
        = .ok (optRoot ((Trie.leaf path value).update q new), stage')
      ∧ Traced trees q (.leaf path value) ((Trie.leaf path value).update q new) stage stage' := by
  have hread := sparseReadNode_of_shows hfree ht (h _ (.refl _))
  unfold sparseUpdateNode Trie.update
  rw [if_neg (hfree.ne_zero _ ht), hread]
  simp only [bind_ok, rootNode]
  by_cases hpath : path = q
  · subst hpath
    rw [if_pos rfl, if_pos rfl]
    cases new with
    | none => exact ⟨_, rfl, .dropped value stage⟩
    | some v =>
      dsimp only [Option.map_some]
      by_cases hval : v = value
      · subst hval
        rw [if_pos rfl]
        exact ⟨stage, rfl, .same _ stage⟩
      · have hhash : rootHash (.leaf path v) ≠ rootHash (.leaf path value) := by
          intro heq
          have hsame := hfree.rootHash_inj (hleaf v rfl) ht heq
          rw [Trie.leaf.injEq] at hsame
          exact hval hsame.2
        rw [if_neg hval, sparseMakeLeaf_eq]
        rw [if_neg hhash]
        exact ⟨_, rfl, .replaced stage hval (hleaf v rfl)⟩
  · rw [if_neg hpath, if_neg hpath]
    cases new with
    | none => exact ⟨stage, rfl, .same _ stage⟩
    | some v =>
      have hjoin := hover _ (by rw [Trie.update, if_neg hpath])
      dsimp only
      rw [sparseMakeLeaf_eq]
      rw [sparseJoinSubtrees_eq hfree ht (hleaf v rfl) hpath]
      exact ⟨_, rfl, .joined stage (hleaf v rfl) hjoin⟩

section
variable (ht : NodeOf trees t) (hup : ∀ u, t.update q new = some u → NodeOf trees u) {fuel : Nat}
  (hfuel : t.height ≤ fuel) (h : Holds (stage.view cf) t)
include ht hup hfuel h

/-- **`sparse_update_node` updates the tree**, in the way traced. -/
theorem sparseUpdateNode_traced : ∃ stage', sparseUpdateNode cf fuel stage (rootHash t) q new
        = .ok (optRoot (t.update q new), stage')
      ∧ Traced trees q t (t.update q new) stage stage' := by
  have hleaf : ∀ v, new = some v → NodeOf trees (.leaf q v) :=
    fun v hv => .new_leaf ht.canonical hup hv
  induction t generalizing fuel stage with
  | leaf path value =>
    obtain ⟨fuel, rfl⟩ : ∃ n, fuel = n + 1 := ⟨fuel - 1, by unfold Trie.height at hfuel; omega⟩
    exact sparseUpdateNode_leaf hfree ht hleaf hup fuel h
  | branch prefixBits pfx l r ihl ihr =>
    obtain ⟨fuel, rfl⟩ : ∃ n, fuel = n + 1 := ⟨fuel - 1, by unfold Trie.height at hfuel; omega⟩
    have hheight : l.height ≤ fuel ∧ r.height ≤ fuel := by
      unfold Trie.height at hfuel
      omega
    have hread := sparseReadNode_of_shows hfree ht (h _ (.refl _))
    have hnorm := ht.canonical.2.1
    unfold Trie.update at hup ⊢
    unfold sparseUpdateNode
    rw [if_neg (hfree.ne_zero _ ht), hread]
    simp only [bind_ok, rootNode]
    by_cases hpfx : keepBits q prefixBits = keepBits pfx prefixBits
    · rw [if_neg (not_not.mpr hpfx)] at hup ⊢
      have hmatch : sparsePrefixMatches q pfx prefixBits = true := decide_eq_true hpfx
      rw [hmatch, if_neg (by decide)]
      cases hbit : q.getMsbD prefixBits with
      | true =>
        have hbit' : sparseBit q prefixBits = true := hbit
        rw [hbit, if_pos rfl] at hup
        rw [hbit', if_pos rfl, if_pos rfl]
        have hsides := sides_right ht.canonical
        have hright : ∀ u, r.update q new = some u → NodeOf trees u := by
          intro u hu
          rw [hu] at hup
          exact (hup _ rfl).right
        obtain ⟨stage₁, hcall, htraced⟩ := ihr ht.right hright hheight.2
          fun s hs => h s (hsides.sub_old s hs)
        rw [hcall, bind_ok]
        cases hside : r.update q new with
        | none =>
          rw [hside] at htraced
          simp only [optRoot, Ne.symm (hfree.ne_zero r ht.right), if_false]
          rw [(sparseReplaceBranch_eq hfree stage₁ _ hnorm ht.left ht.right).2.1]
          exact ⟨_, rfl, .gone hsides htraced⟩
        | some r' =>
          rw [hside] at htraced hup
          have hr' := hright r' hside
          have ht' := hup _ rfl
          simp only [optRoot]
          by_cases heq : rootHash r' = rootHash r
          · simp only [heq, if_true]
            have hsame := hfree.rootHash_inj hr' ht.right heq
            subst hsame
            rw [htraced.stage_eq rfl]
            exact ⟨_, rfl, .same _ stage⟩
          · simp only [heq, if_false]
            rw [(sparseReplaceBranch_eq hfree stage₁ _ hnorm ht.left hr').1]
            refine ⟨_, rfl, .changed hsides (sides_right ht'.canonical) ht' ?_ htraced⟩
            intro hsame
            cases hsame
            exact heq rfl
      | false =>
        have hbit' : sparseBit q prefixBits = false := hbit
        rw [hbit, if_neg (by decide)] at hup
        rw [hbit', if_neg (by decide), if_neg (by decide)]
        have hsides := sides_left ht.canonical
        have hleft : ∀ u, l.update q new = some u → NodeOf trees u := by
          intro u hu
          rw [hu] at hup
          exact (hup _ rfl).left
        obtain ⟨stage₁, hcall, htraced⟩ := ihl ht.left hleft hheight.1
          fun s hs => h s (hsides.sub_old s hs)
        rw [hcall, bind_ok]
        cases hside : l.update q new with
        | none =>
          rw [hside] at htraced
          simp only [optRoot, Ne.symm (hfree.ne_zero l ht.left), if_false]
          rw [(sparseReplaceBranch_eq hfree stage₁ _ hnorm ht.left ht.right).2.2]
          exact ⟨_, rfl, .gone hsides htraced⟩
        | some l' =>
          rw [hside] at htraced hup
          have hl' := hleft l' hside
          have ht' := hup _ rfl
          simp only [optRoot]
          by_cases heq : rootHash l' = rootHash l
          · simp only [heq, if_true]
            have hsame := hfree.rootHash_inj hl' ht.left heq
            subst hsame
            rw [htraced.stage_eq rfl]
            exact ⟨_, rfl, .same _ stage⟩
          · simp only [heq, if_false]
            rw [(sparseReplaceBranch_eq hfree stage₁ _ hnorm hl' ht.right).1]
            refine ⟨_, rfl, .changed hsides (sides_left ht'.canonical) ht' ?_ htraced⟩
            intro hsame
            cases hsame
            exact heq rfl
    · rw [if_pos hpfx] at hup ⊢
      have hmatch : sparsePrefixMatches q pfx prefixBits = false := decide_eq_false hpfx
      rw [hmatch, if_pos rfl]
      have hne : pfx ≠ q := by
        rintro rfl
        exact hpfx rfl
      cases new with
      | none => exact ⟨stage, rfl, .same _ stage⟩
      | some v =>
        have hjoin := hup _ rfl
        dsimp only
        rw [sparseMakeLeaf_eq]
        rw [sparseJoinSubtrees_eq hfree ht (hleaf v rfl) hne]
        exact ⟨_, rfl, .joined stage (hleaf v rfl) hjoin⟩

/-- The same, in terms of what the stage holds. -/
theorem sparseUpdateNode_spec : ∃ stage', sparseUpdateNode cf fuel stage (rootHash t) q new
        = .ok (optRoot (t.update q new), stage')
      ∧ Rewrites trees cf t (t.update q new) stage stage' := by
  obtain ⟨stage', hcall, htraced⟩ := sparseUpdateNode_traced hfree ht hup hfuel h
  exact ⟨stage', hcall, htraced.rewrites hfree ht h⟩

end
end
end
end Lichen.State
