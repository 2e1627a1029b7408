/-
  The node store of the sparse state tree (`sparse_root_with_changes` and
  `write_sparse_node_update` in `core/src/state/merkle_state.rs`).

  An update leaves behind new nodes to write and old ones to delete.  The store is exact when it holds
  the nodes that can be reached from the root and no others, and an update keeps it exact.

  What could go wrong is in `retire_sparse_node`: a retired node that is found in the overlay is only
  taken out of the overlay, on the ground that it was made by the same update.  If the store had it
  too, it would stay there for ever.  The invariant that excludes this is `Tidy`: a node of the overlay
  that is also stored is marked obsolete already.  It holds because a node enters the overlay only when
  it cannot be seen (`Tidy.add`), and it turns retiring into hiding (`retire_view`).  One update then
  exchanges the nodes of the old tree for those of the new one and touches nothing else (`Exchanges`).
-/
import Lichen.State.SparseHistory

open Base HashMap
namespace Lichen.State
open SparseStage SparseLeafChange
section
variable [Crypto] {trees : Set SparseTrie} {s t : SparseTrie} {cf : NodeCf}
  {stage stage' : SparseStage}

/-! ## Overlay and store -/

/-- What the overlay shares with the store is marked obsolete. -/
def Tidy (cf : NodeCf) (stage : SparseStage) : Prop :=
  ∀ hash, (stage.overlay.get hash).isSome = true →
    cf.nodes.get hash = none ∨ hash ∈ stage.obsolete

theorem add_view (stage : SparseStage) (t : SparseTrie) (hash : Hash) : (stage.add t).view cf hash
      = if hash = rootHash t then some (sparseEncodeNode (rootNode t)) else stage.view cf hash := by
  grind [view, add]

omit [Crypto] in
/-- In a tidy stage, retiring a node hides it, and nothing else. -/
theorem retire_view (h : Tidy cf stage) (nodeHash hash : Hash) :
    (retireSparseNode stage nodeHash).view cf hash
      = if hash = nodeHash then none else stage.view cf hash := by
  unfold retireSparseNode
  cases hov : stage.overlay.get nodeHash with
  | some data =>
    unfold view
    rw [get_remove]
    by_cases hh : hash = nodeHash
    · rw [if_pos hh, if_pos hh, hh]
      -- the node leaves the overlay; the store does not show it either
      rcases h nodeHash (by rw [hov]; rfl) with hnone | hobsolete
      · rw [hnone]
        exact ite_self none
      · rw [if_pos hobsolete]
    · rw [if_neg hh, if_neg hh]
  | none =>
    grind [view]

/-- A node that cannot be seen may enter the overlay. -/
theorem Tidy.add (h : Tidy cf stage) (hnone : stage.view cf (rootHash t) = none) :
    Tidy cf (stage.add t) := by
  grind [add, view, Tidy]

omit [Crypto] in
theorem Tidy.retire (h : Tidy cf stage) (nodeHash : Hash) : Tidy cf
    (retireSparseNode stage nodeHash) := by
  intro hash hsome
  unfold retireSparseNode at hsome ⊢
  cases hov : stage.overlay.get nodeHash with
  | some data =>
    rw [hov] at hsome
    rw [HashMap.get_remove] at hsome
    by_cases hh : hash = nodeHash
    · rw [if_pos hh] at hsome
      exact absurd hsome (by decide)
    · rw [if_neg hh] at hsome
      exact h hash hsome
  | none =>
    rw [hov] at hsome
    exact (h hash hsome).imp id (List.mem_cons_of_mem _)

/-! ## One update -/

/-- `s` is a node of a tree that may be empty. -/
def OptSub (s : SparseTrie) (t : Option SparseTrie) : Prop := ∃ u, t = some u ∧ Trie.Sub s u

section
omit [Crypto]

theorem optSub_some : OptSub s (some t) ↔ Trie.Sub s t :=
  ⟨fun ⟨_, heq, hsub⟩ => Option.some.inj heq ▸ hsub, fun h => ⟨t, rfl, h⟩⟩

theorem not_optSub_none : ¬ OptSub s none := fun ⟨_, heq, _⟩ => absurd heq (by simp)

end

/-- **The nodes of `t` are exchanged for those of `u`**, as far as they differ. -/
structure Exchanges (cf : NodeCf) (t : SparseTrie) (u : Option SparseTrie)
    (stage stage' : SparseStage) : Prop where
  tidy : Tidy cf stage'
  gone : ∀ s, Trie.Sub s t → ¬ OptSub s u → stage'.view cf (rootHash s) = none
  frame : ∀ hash, (∀ s, Trie.Sub s t → hash ≠ rootHash s) → (∀ s, OptSub s u → hash ≠ rootHash s) →
    stage'.view cf hash = stage.view cf hash

section
variable (hfree : CollisionFree trees)
include hfree

/-- Two nodes enter beside the tree. -/
theorem exchanges_joined (htidy : Tidy cf stage) {v} (hleaf : NodeOf trees (.leaf q v))
    (hjoin : NodeOf trees (t.join p (.leaf q v) q))
    (hnew : ∀ s, Trie.Sub s (t.join p (.leaf q v) q) → ¬ Trie.Sub s t →
      stage.view cf (rootHash s) = none) :
    Exchanges cf t (some (t.join p (.leaf q v) q)) stage
      ((stage.add (.leaf q v)).add (t.join p (.leaf q v) q)) := by
  obtain ⟨hsub_t, hsub_leaf⟩ := sub_join t (.leaf q v) p q
  have hleaf_new := leaf_not_sub_of_join hjoin.canonical
  have hjoin_new : ¬ Trie.Sub (t.join p (.leaf q v) q) t := by
    intro hsub
    have hback : Trie.Sub (.leaf q v) t := .trans hsub_leaf hsub
    exact hleaf_new hback
  have hne : rootHash (t.join p (.leaf q v) q) ≠ rootHash (.leaf q v) := by
    intro heq
    have hsame := hfree.rootHash_inj hjoin hleaf heq
    rw [hsame] at hsub_t
    have hin : t = .leaf q v := hsub_t
    exact hleaf_new (hin ▸ .refl _)
  refine ⟨(htidy.add (hnew _ hsub_leaf hleaf_new)).add ?_, ?_, ?_⟩
  · rw [add_view, if_neg hne]
    exact hnew _ (.refl _) hjoin_new
  · intro s hs hns
    exact absurd (optSub_some.mpr (.trans hs hsub_t)) hns
  · intro _ _ hu
    rw [add_view, if_neg (hu _ (optSub_some.mpr (Trie.Sub.refl _))), add_view,
      if_neg (hu _ (optSub_some.mpr hsub_leaf))]

/-- **One update exchanges the nodes**, if those it will make cannot be seen yet. -/
theorem Traced.exchanges (htraced : Traced trees q t u stage stage') (ht : NodeOf trees t)
    (htidy : Tidy cf stage)
    (hnew : ∀ s, OptSub s u → ¬ Trie.Sub s t → stage.view cf (rootHash s) = none) :
    Exchanges cf t u stage stage' := by
  induction htraced with
  | same t stage =>
    exact ⟨htidy, fun s hs hns => absurd (optSub_some.mpr hs) hns, fun hash _ _ => rfl⟩
  | dropped value stage =>
    refine ⟨htidy.retire _, fun s hs _ => ?_, fun hash hold _ => ?_⟩
    · have hs' : s = .leaf q value := hs
      rw [retire_view htidy, if_pos (by rw [hs'])]
    · rw [retire_view htidy, if_neg (hold _ (Trie.Sub.refl _))]
  | @replaced value v stage hne hleaf =>
    have hnsub : ¬ Trie.Sub (.leaf q v : SparseTrie) (.leaf q value) := by
      intro hsub
      have heq : (Trie.leaf q v : SparseTrie) = .leaf q value := hsub
      rw [Trie.leaf.injEq] at heq
      exact hne heq.2
    have hadd := htidy.add (hnew _ (optSub_some.mpr (.refl _)) hnsub)
    refine ⟨hadd.retire _, fun s hs _ => ?_, fun hash hold hu => ?_⟩
    · have hs' : s = .leaf q value := hs
      rw [retire_view hadd, if_pos (by rw [hs'])]
    · rw [retire_view hadd, if_neg (hold _ (Trie.Sub.refl _)), add_view,
        if_neg (hu _ (optSub_some.mpr (Trie.Sub.refl _)))]
  | joined stage hleaf hjoin =>
    exact exchanges_joined hfree htidy hleaf hjoin fun s hs => hnew s (optSub_some.mpr hs)
  | @gone t old other stage stage' hsides _ ih =>
    have hex := ih (ht.sub (hsides.sub_old _ (.refl _))) htidy fun s hs => absurd hs not_optSub_none
    refine ⟨hex.tidy.retire _, fun s hs hns => ?_, fun hash hold hu => ?_⟩
    · rw [retire_view hex.tidy]
      split
      · rfl
      · next hne =>
        rcases hsides.cover s hs with rfl | hsold | hsother
        · exact absurd rfl hne
        · exact hex.gone s hsold not_optSub_none
        · exact absurd (optSub_some.mpr hsother) hns
    · rw [retire_view hex.tidy, if_neg (hold _ (Trie.Sub.refl _))]
      grind [Exchanges.frame, Sides.sub_old, not_optSub_none]
  | @changed t u old v other stage stage' hsides hsides' hu hne _ ih =>
    have hfresh := hsides'.not_sub hsides hne.symm
    have hold_over : NodeOf trees old := ht.sub (hsides.sub_old _ (.refl _))
    -- what the side will make is made by the branch, and is not in the branch
    have hex := ih hold_over htidy fun s hs hns => by
      have hsv := optSub_some.mp hs
      have hsu := hsides'.sub_old s hsv
      refine hnew s (optSub_some.mpr hsu) fun hst => ?_
      rcases hsides.cover s hst with rfl | hsold | hsother
      · exact hsides.not_sub hsides' hne hsu
      · exact hns hsold
      · exact hsides'.apart s hsother hsv
    -- the new branch is not seen yet: it is neither among the old nodes nor on the new side
    have hroot : stage'.view cf (rootHash u) = none := by
      rw [hex.frame (rootHash u)]
      · exact hnew u (optSub_some.mpr (.refl u)) hfresh
      · intro s hs heq
        have hsame := hfree.rootHash_inj hu (hold_over.sub hs) heq
        exact hfresh (hsame ▸ hsides.sub_old s hs)
      · intro s hs heq
        have hsv := optSub_some.mp hs
        have hsame := hfree.rootHash_inj hu (hu.sub (hsides'.sub_old s hsv)) heq
        exact hsides'.above_old (hsame ▸ hsv)
    have hadd := hex.tidy.add hroot
    refine ⟨hadd.retire _, fun s hs hns => ?_, fun hash hold hnot => ?_⟩
    · have hns' : ¬ Trie.Sub s u := fun h => hns (optSub_some.mpr h)
      rw [retire_view hadd]
      split
      · rfl
      · next hne =>
        have hsu : rootHash s ≠ rootHash u := by
          intro heq
          have hsame := hfree.rootHash_inj (ht.sub hs) hu heq
          exact hns' (hsame ▸ .refl s)
        rw [add_view, if_neg hsu]
        rcases hsides.cover s hs with rfl | hsold | hsother
        · exact absurd rfl hne
        · refine hex.gone s hsold fun hsv => hns' (hsides'.sub_old s (optSub_some.mp hsv))
        · exact absurd (hsides'.sub_other s hsother) hns'
    · rw [retire_view hadd, if_neg (hold _ (Trie.Sub.refl _)), add_view,
        if_neg (hnot _ (optSub_some.mpr (Trie.Sub.refl _)))]
      exact hex.frame hash (fun s hs => hold s (hsides.sub_old s hs))
        fun s hs => hnot s (optSub_some.mpr (hsides'.sub_old s (optSub_some.mp hs)))

/-! ## Exact stores -/

/-- Everything the store has is a node of the tree. -/
def Exact (store : Hash → Option (List UInt8)) (t : Option SparseTrie) : Prop :=
  ∀ hash, (store hash).isSome = true → ∃ s, OptSub s t ∧ hash = rootHash s

/-- A node that is not in the tree cannot be seen. -/
theorem Exact.unseen {t} (h : Exact store t) (ht : OptNodeOf trees t) (hs : NodeOf trees s)
    (hns : ¬ OptSub s t) : store (rootHash s) = none := by
  cases hstore : store (rootHash s) with
  | none => rfl
  | some data =>
    obtain ⟨r, hr, heq⟩ := h (rootHash s) (by rw [hstore]; rfl)
    obtain ⟨u, hu, hsub⟩ := hr
    have hsame := hfree.rootHash_inj hs ((ht u hu).sub hsub) heq
    exact absurd ⟨u, hu, hsame ▸ hsub⟩ hns

/-- What an update keeps: the tree is one of the given ones, every node of it is found, there are no
    other nodes, and the stage is tidy. -/
structure ExactStage (trees : Set SparseTrie) (cf : NodeCf) (t : Option SparseTrie)
    (stage : SparseStage) : Prop where
  isNode : OptNodeOf trees t
  holds : OptHolds (stage.view cf) t
  exact : Exact (stage.view cf) t
  tidy : Tidy cf stage

/-- The step: one change at the top. -/
theorem ExactStage.update {t} (h : ExactStage trees cf t stage) {q new}
    (hup : OptNodeOf trees (Trie.optUpdate t q new)) :
    ∃ stage', sparseUpdateNode cf 257 stage (optRoot t) q new
        = .ok (optRoot (Trie.optUpdate t q new), stage')
      ∧ ExactStage trees cf (Trie.optUpdate t q new) stage' := by
  cases t with
  | some t =>
    have ht := h.isNode t rfl
    have hheight := ht.canonical.height_le (n := 0) (p := 0) (Nat.zero_le _)
      fun e he i hi => absurd hi (Nat.not_lt_zero i)
    obtain ⟨stage', hcall, htraced⟩ := sparseUpdateNode_traced hfree ht hup hheight (h.holds t rfl)
    have hex := htraced.exchanges hfree ht h.tidy fun s hs hns => by
      obtain ⟨u, hu, hsub⟩ := hs
      exact h.exact.unseen hfree h.isNode ((hup u hu).sub hsub)
        fun hst => hns (optSub_some.mp hst)
    refine ⟨stage', hcall, hup, (htraced.rewrites hfree ht (h.holds t rfl)).holds, ?_, hex.tidy⟩
    intro hash hsome
    by_contra hnone
    push Not at hnone
    by_cases hold : ∃ s, Trie.Sub s t ∧ hash = rootHash s
    · obtain ⟨s, hs, rfl⟩ := hold
      have hgone := hex.gone s hs fun hu => hnone s hu rfl
      rw [hgone] at hsome
      exact absurd hsome (by decide)
    · push Not at hold
      rw [hex.frame hash hold hnone] at hsome
      obtain ⟨s, hs, rfl⟩ := h.exact hash hsome
      exact hold s (optSub_some.mp hs) rfl
  | none =>
    cases new with
    | none => exact ⟨stage, rfl, h⟩
    | some v =>
      have hunseen : stage.view cf (rootHash (.leaf q v)) = none :=
        h.exact.unseen hfree h.isNode (hup _ rfl) not_optSub_none
      refine ⟨stage.add (.leaf q v), rfl, hup, ?_, ?_, h.tidy.add hunseen⟩
      · intro u hu
        rw [Trie.optUpdate, Option.map_some, Option.some.injEq] at hu
        rw [← hu]
        rintro s rfl
        exact shows_add stage _
      · intro hash hsome
        refine ⟨.leaf q v, optSub_some.mpr (.refl _), ?_⟩
        by_contra hne
        rw [add_view, if_neg hne] at hsome
        obtain ⟨s, hs, -⟩ := h.exact hash hsome
        exact not_optSub_none hs

/-! ## Reachable nodes -/

/-- The nodes that can be reached from the root by reading the store. -/
inductive ReachableNode (cf : NodeCf) (root : Hash) : Hash → Prop
  | root (h : root ≠ Hash.zero) : ReachableNode cf root root
  | left {hash left right : Hash} {prefixBits : Nat} {pfx : BitVec 256}
      (h : ReachableNode cf root hash)
      (hread : sparseReadNode cf ∅ hash = .ok (.branch prefixBits pfx left right)) :
      ReachableNode cf root left
  | right {hash left right : Hash} {prefixBits : Nat} {pfx : BitVec 256}
      (h : ReachableNode cf root hash)
      (hread : sparseReadNode cf ∅ hash = .ok (.branch prefixBits pfx left right)) :
      ReachableNode cf root right

/-- Reading the store itself, without overlay. -/
theorem sparseReadNode_of_holds (hs : NodeOf trees s)
    (h : Shows cf.nodes.get s) : sparseReadNode cf ∅ (rootHash s) = .ok (rootNode s) := by
  have hempty : Shows ((⟨∅, []⟩ : SparseStage).view cf) s := by
    exact h
  exact sparseReadNode_of_shows hfree hs hempty

/-- In a store that holds a tree, the reachable nodes are the nodes of the tree. -/
theorem reachable_iff {t} (ht : OptNodeOf trees t)
    (h : OptHolds cf.nodes.get t) (hash : Hash) :
    ReachableNode cf (optRoot t) hash ↔ ∃ s, OptSub s t ∧ hash = rootHash s := by
  -- a branch that is read is one of the tree
  have hbranch : ∀ u s, t = some u → Trie.Sub s u → ∀ {bits pfx left right},
      sparseReadNode cf ∅ (rootHash s) = .ok (.branch bits pfx left right) →
      ∃ l r, s = .branch bits pfx l r ∧ rootHash l = left ∧ rootHash r = right := by
    intro u s hu hsub bits pfx left right hread
    rw [sparseReadNode_of_holds hfree ((ht u hu).sub hsub) (h u hu s hsub),
      Except.ok.injEq] at hread
    cases s with
    | leaf path value => exact SparseNode.noConfusion hread
    | branch _ _ l r =>
      cases hread
      exact ⟨l, r, rfl, rfl, rfl⟩
  constructor
  · intro hreach
    induction hreach with
    | root hne =>
      cases t with
      | none => exact absurd rfl hne
      | some t => exact ⟨t, optSub_some.mpr (.refl t), rfl⟩
    | left _ hread ih =>
      obtain ⟨s, ⟨u, hu, hsub⟩, rfl⟩ := ih
      obtain ⟨l, r, rfl, rfl, -⟩ := hbranch u s hu hsub hread
      exact ⟨l, ⟨u, hu, .trans (Trie.sub_left _ _ l r) hsub⟩, rfl⟩
    | right _ hread ih =>
      obtain ⟨s, ⟨u, hu, hsub⟩, rfl⟩ := ih
      obtain ⟨l, r, rfl, -, rfl⟩ := hbranch u s hu hsub hread
      exact ⟨r, ⟨u, hu, .trans (Trie.sub_right _ _ l r) hsub⟩, rfl⟩
  · rintro ⟨s, ⟨u, rfl, hsub⟩, rfl⟩
    -- down the tree: a reachable tree has reachable nodes
    have hdown : ∀ w, Trie.Sub w u → ReachableNode cf (optRoot (some u)) (rootHash w) →
        ∀ s, Trie.Sub s w → ReachableNode cf (optRoot (some u)) (rootHash s) := by
      intro w
      induction w with
      | leaf path value =>
        simp [Trie.Sub, optRoot, rootHash]
      | branch bits pfx l r ihl ihr =>
        intro hw hreach s hs
        have hread := sparseReadNode_of_holds hfree ((ht u rfl).sub hw) (h u rfl _ hw)
        rcases hs with rfl | hs | hs
        · exact hreach
        · exact ihl (.trans (Trie.sub_left bits pfx l r) hw) (.left hreach hread) s hs
        · exact ihr (.trans (Trie.sub_right bits pfx l r) hw) (.right hreach hread) s hs
    exact hdown u (.refl u) (.root (hfree.ne_zero u (ht u rfl))) s hsub

end

/-! ## Change sets -/

/-- The trees a change set goes through, one change after the other in the order of the paths. -/
def changeTrees (t : Option SparseTrie) (changes : List SparseLeafChange) : Set SparseTrie :=
  {u | ∃ first rest, changes.insertionSort (pathOrder path leafKey) = first ++ rest
    ∧ changeAll t first = some u}

/-- A store that holds a canonical tree under `root`, node by node, and whose keys are exactly the
    hashes that can be reached from the root. -/
structure StoresExactly (cf : NodeCf) (root : Hash) (t : Option SparseTrie) : Prop where
  root_eq : root = optRoot t
  canonical : Trie.OptCanonical t
  holds : OptHolds cf.nodes.get t
  keys : ∀ hash, cf.nodes.containsKey hash = true ↔ ReachableNode cf root hash

/-- **The node store never loses or leaks nodes.**  From a store that holds exactly the nodes
    reachable from its root, a change set without a path twice succeeds, and once its overlay is
    written and its obsolete nodes are deleted the store again holds exactly the nodes reachable from
    the new root; the tree they make is that of the changed leaves. -/
theorem sparse_store_exact (cf : NodeCf) (root : Hash) (t : Option SparseTrie)
    (changes : List SparseLeafChange) (hfree : CollisionFree (changeTrees t changes))
    (h : StoresExactly cf root t) (hnd : DistinctChanges changes) :
    ∃ root' stage, sparseRootWithChanges cf root changes = .ok (root', stage)
      ∧ ∃ t', StoresExactly (writeSparseNodeUpdate cf stage) root' t'
        ∧ ∀ m, Spells t m → Spells t' (mapAfter m changes) := by
  have hway : ∀ first rest, changes.insertionSort (pathOrder path leafKey) = first ++ rest →
      OptNodeOf (changeTrees t changes) (changeAll t first) := fun first rest heq u hu =>
    ⟨u, ⟨first, rest, heq, hu⟩, canonical_changeAll first h.canonical u hu, .refl u⟩
  have hover : OptNodeOf (changeTrees t changes) t := hway [] _ rfl
  have hperm := List.perm_insertionSort (pathOrder path leafKey) changes
  have hnd' : DistinctChanges (changes.insertionSort (pathOrder path leafKey)) :=
    (hperm.map _).nodup_iff.mpr hnd
  have hview : (⟨∅, []⟩ : SparseStage).view cf = cf.nodes.get := by
    funext hash
    unfold SparseStage.view
    exact if_neg List.not_mem_nil
  have hstart : ExactStage (changeTrees t changes) cf t ⟨∅, []⟩ := by
    refine ⟨hover, by rw [hview]; exact h.holds, fun hash hsome => ?_, fun hash hsome => ?_⟩
    · rw [hview] at hsome
      have hreach := (h.keys hash).mp hsome
      rw [h.root_eq] at hreach
      exact (reachable_iff hfree hover h.holds hash).mp hreach
    · rw [get_empty] at hsome
      exact absurd hsome (by decide)
  obtain ⟨stage', hcall, hend⟩ := applySparseChanges_run (I := ExactStage (changeTrees t changes) cf)
    (fun t stage q new hup hI => hI.update hfree hup)
    hnd' (fun c _ => Option.some_ne_none c.path) hway hstart
  have hget : (writeSparseNodeUpdate cf stage').nodes.get = stage'.view cf :=
    funext fun hash => get_writeSparseNodeUpdate cf stage' hash
  have hholds : OptHolds (writeSparseNodeUpdate cf stage').nodes.get _ := hget ▸ hend.holds
  refine ⟨_, stage', ?_, _, ⟨rfl, hend.isNode.canonical, hholds, fun hash => ?_⟩, fun m hm => ?_⟩
  · unfold sparseRootWithChanges
    rw [h.root_eq]
    exact hcall
  · rw [reachable_iff hfree hend.isNode hholds hash]
    unfold HashMap.containsKey
    rw [hget]
    refine ⟨hend.exact hash, ?_⟩
    rintro ⟨s, ⟨u, hu, hsub⟩, rfl⟩
    have hshows : stage'.view cf (rootHash s) = _ := hend.holds u hu s hsub
    rw [hshows]
    rfl
  · rw [← mapAfter_perm hperm hnd]
    exact hm.changeAll hnd' h.canonical

end

/-- The high leaf comes and the low one goes. -/
def swapLeaves : List SparseLeafChange :=
  [⟨[], highLeaf.path, some highLeaf.leafHash⟩, ⟨[], lowLeaf.path, none⟩]

theorem changeTrees_swapLeaves : ∀ t ∈ changeTrees (some lowTree) swapLeaves,
    ∀ e ∈ t.entries, LowOrHigh e := by
  rintro t ⟨first, rest, hsort, ht⟩
  -- the low leaf goes first, then the high one comes
  have hsorted : swapLeaves.insertionSort (pathOrder path leafKey)
      = [⟨[], lowLeaf.path, none⟩, ⟨[], highLeaf.path, some highLeaf.leafHash⟩] := by decide
  rw [hsorted] at hsort
  match first with
  | [] =>
    cases ht
    exact fun e he => .inl (Trie.mem_entries_leaf.mp he)
  | [a] =>
    cases hsort
    exact nomatch (show (none : Option SparseTrie) = some t from ht)
  | [a, b] =>
    cases hsort
    cases (show some (Trie.leaf highLeaf.path highLeaf.leafHash) = some t from ht)
    exact fun e he => .inr (Trie.mem_entries_leaf.mp he)
  | a :: b :: c :: first => exact nomatch hsort

theorem storesExactly_lowStore :
    @StoresExactly lengthHash lowStore (@rootHash lengthHash lowTree) (some lowTree) := by
  let _ := lengthHash
  have hcanonical : Trie.OptCanonical (some lowTree) := fun u hu => Option.some.inj hu ▸ trivial
  have hover : OptNodeOf (changeTrees (some lowTree) swapLeaves) (some lowTree) :=
    fun u hu => ⟨u, ⟨[], _, rfl, hu⟩, hcanonical u hu, .refl u⟩
  have hholds : OptHolds lowStore.nodes.get (some lowTree) := by
    intro u hu s hs
    rw [← Option.some.inj hu] at hs
    rw [show s = lowTree from hs]
    exact HashMap.get_put_self _ _ _
  refine ⟨rfl, hcanonical, hholds, fun hash => ?_⟩
  have hreach := reachable_iff (collisionFree_lengthHash changeTrees_swapLeaves) hover hholds hash
  rw [optRoot] at hreach
  rw [hreach]
  have hget : lowStore.nodes.get hash = if hash = rootHash lowTree
      then some (sparseEncodeNode (rootNode lowTree)) else none := HashMap.get_put ∅ _ _ _
  unfold HashMap.containsKey
  rw [hget]
  constructor
  · intro hsome
    by_cases hh : hash = rootHash lowTree
    · exact ⟨lowTree, optSub_some.mpr (.refl _), hh⟩
    · rw [if_neg hh] at hsome
      exact absurd hsome (by decide)
  · rintro ⟨s, hs, rfl⟩
    rw [show s = lowTree from optSub_some.mp hs, if_pos rfl]
    rfl

theorem sparse_store_exact_swapLeaves :
    letI := lengthHash
    ∃ root' stage, sparseRootWithChanges lowStore (rootHash lowTree) swapLeaves = .ok (root', stage)
      ∧ ∃ t', StoresExactly (writeSparseNodeUpdate lowStore stage) root' t'
        ∧ ∀ m, Spells (some lowTree) m → Spells t' (mapAfter m swapLeaves) := by
  let _ := lengthHash
  exact sparse_store_exact lowStore (rootHash lowTree) (some lowTree) swapLeaves
    (collisionFree_lengthHash changeTrees_swapLeaves) storesExactly_lowStore (by decide)

end Lichen.State
