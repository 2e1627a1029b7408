/-
  What the caches of a committed column family are worth.

  The leaf cache, the cached root and the sparse tree all lag behind the rows; the dirty markers say
  where.  `Kept` is that bargain: outside the marked keys, every cache agrees with the rows.  Each
  computation of a root, ordered or sparse, pays the debt off and returns the root of the rows, as
  a scan from scratch would give it (`sectionRoot`); a staged overlay gives the root of the
  overlaid rows.

  1. scans: the leaves of the rows, as a map and as a list in key order;
  2. `Kept`, and what the ordered root makes of it;
  3. the sparse tree: a change set per key, the rebuild, the incremental root;
  4. staged rows and their commit.
-/
import Lichen.State.StateRoot

open Base HashMap
namespace Lichen.State
open List
variable {K : Type} {kind : LeafKind K}
namespace MerkleCf

/-- The change of the tree for a new leaf at a key. -/
def keyChange (kind : LeafKind K) (e : K × Option Hash) : SparseLeafChange :=
  ⟨kind.bytes e.1, kind.path e.1, e.2⟩

/-- A change set over keys, read at a path it does not have. -/
theorem mapAfter_of_not_mem {changes : List (K × Option Hash)} (m : LeafMap)
    (h : ∀ e ∈ changes, kind.path e.1 ≠ path) :
    mapAfter m (changes.map (keyChange kind)) path = m path := by
  grind [keyChange, mapAfter]

variable [DecidableEq K]

/-! ## Scans -/

theorem mem_scanLeaves {rows e} : e ∈ scanLeaves kind rows ↔ leafAt kind rows e.1 = some e.2 := by
  unfold scanLeaves leafAt
  rw [mem_filterMap, Option.bind_eq_some_iff]
  constructor
  · rintro ⟨row, hrow, hleaf⟩
    obtain ⟨leaf, hof, rfl⟩ := Option.map_eq_some_iff.mp hleaf
    exact ⟨row.2, mem_inOrder.mp hrow, hof⟩
  · rintro ⟨value, hget, hof⟩
    exact ⟨(e.1, value), mem_inOrder.mpr hget, by rw [hof]; rfl⟩

omit [DecidableEq K] in
theorem ascends_scanLeaves (kind : LeafKind K) (rows : HashMap K (List UInt8)) :
    Ascends kind.bytes (scanLeaves kind rows) := by
  refine List.Pairwise.filterMap _ ?_ (ascends_inOrder kind.bytes_inj rows)
  simp_all

/-- A map with the leaves of the rows, read in order, is the scan of the rows. -/
theorem inOrder_eq_scanLeaves {rows} {leaves : HashMap K Hash}
    (h : ∀ k, leaves.get k = leafAt kind rows k) :
    leaves.inOrder kind.bytes = scanLeaves kind rows := by
  refine (eq_inOrder kind.bytes_inj (ascends_scanLeaves kind rows) fun e => ?_).symm
  rw [mem_scanLeaves, h]

theorem scanLeaves_congr {rows rows'} (h : ∀ k, leafAt kind rows k = leafAt kind rows' k) :
    scanLeaves kind rows = scanLeaves kind rows' := by
  refine (ascends_scanLeaves kind rows).eq_of_mem_iff (ascends_scanLeaves kind rows') fun e => ?_
  rw [mem_scanLeaves, mem_scanLeaves, h]

omit [DecidableEq K] in
theorem nodup_scanLeaves (kind : LeafKind K) (rows : HashMap K (List UInt8)) :
    ((scanLeaves kind rows).map Prod.fst).Nodup := by
  refine pairwise_map.mpr ((ascends_scanLeaves kind rows).imp fun {a b} hlt heq => ?_)
  exact ne_of_bytes_lt hlt heq

theorem get_ofEntries_scanLeaves (kind : LeafKind K) (rows : HashMap K (List UInt8)) (k : K) :
    (ofEntries (scanLeaves kind rows)).get k = leafAt kind rows k := by
  obtain ⟨hin, hout⟩ := get_foldl_put_entries Prod.fst Prod.snd (scanLeaves kind rows)
    ∅ (nodup_scanLeaves kind rows)
  unfold ofEntries
  cases hleaf : leafAt kind rows k with
  | some v => exact hin (k, v) (mem_scanLeaves.mpr hleaf)
  | none =>
    rw [hout k ?_, get_empty]
    intro hmem
    obtain ⟨e, he, rfl⟩ := mem_map.mp hmem
    rw [mem_scanLeaves.mp he] at hleaf
    simp at hleaf

/-- The leaf hash of each path. -/
def rowMap (kind : LeafKind K) (rows : HashMap K (List UInt8)) : LeafMap :=
  leafMap ((scanLeaves kind rows).map (sparseEntry kind))

theorem exists_key_of_rowMap {rows} (h : rowMap kind rows path = some leaf) :
    ∃ k, kind.path k = path ∧ leafAt kind rows k = some leaf := by
  obtain ⟨entry, hfind, rfl⟩ := Option.map_eq_some_iff.mp h
  obtain ⟨e, he, rfl⟩ := mem_map.mp (mem_of_find?_eq_some hfind)
  have hpath : (sparseEntry kind e).path = path := by simpa using List.find?_some hfind
  exact ⟨e.1, hpath, mem_scanLeaves.mp he⟩

/-- The trees of these maps, and those that an update from one to another goes through. -/
def versionTrees (versions : Set LeafMap) : Set SparseTrie :=
  {t | ∃ m ∈ versions, ∃ m' ∈ versions, t ∈ updateTrees m m'}

/-! ## Markers -/

theorem not_mem_keys_of_isEmpty {V : Type} {m : HashMap K V} (h : m.isEmpty = true) (k : K) :
    k ∉ m.keys := by
  rw [not_mem_keys_iff]
  exact isEmpty_iff.mp h k

theorem get_refreshLeaf (rows : HashMap K (List UInt8)) (leaves : HashMap K Hash) (key k : K) :
    (refreshLeaf kind rows leaves key).get k
      = if k = key then leafAt kind rows k else leaves.get k := by
  unfold refreshLeaf
  grind

/-- The dirty keys are read again, the others stay. -/
theorem get_foldl_refreshLeaf (rows : HashMap K (List UInt8)) (keys : List K) (k : K) :
    ∀ leaves : HashMap K Hash, (keys.foldl (refreshLeaf kind rows) leaves).get k
      = if k ∈ keys then leafAt kind rows k else leaves.get k := by
  induction keys with
  | nil => exact fun leaves => rfl
  | cons key keys ih =>
    intro leaves
    grind [get_refreshLeaf]

theorem mem_dirty_foldl_stage (keys : List K) (k : K) : ∀ s : MerkleCf K,
    k ∈ (keys.foldl stageDirtyMarker s).dirty.keys ↔ k ∈ keys ∨ k ∈ s.dirty.keys := by
  induction keys with
  | nil => simp
  | cons key keys ih =>
    grind [stageDirtyMarker]

/-- The markers do not depend on the rows, nor the rows on the markers. -/
theorem foldl_stage_rows (keys : List K) (rows : HashMap K (List UInt8)) : ∀ s : MerkleCf K,
    keys.foldl stageDirtyMarker { s with rows } = { keys.foldl stageDirtyMarker s with rows } := by
  induction keys with
  | nil => exact fun s => rfl
  | cons key keys ih => exact fun s => ih (s.stageDirtyMarker key)

variable [Crypto]

/-! ## Roots of the rows -/

/-- The ordered root of the rows. -/
def scanRoot (kind : LeafKind K) (rows : HashMap K (List UInt8)) : Hash :=
  merkleRootFromLeaves ((scanLeaves kind rows).map Prod.snd)

/-- The sparse root of the rows. -/
def treeRoot (kind : LeafKind K) (rows : HashMap K (List UInt8)) : Hash :=
  match sparseComputeRootFromEntries ((scanLeaves kind rows).map (sparseEntry kind)) with
  | .ok (root, _) => root
  | .error _ => Hash.zero

/-- **The root of the rows**, from scratch. -/
def sectionRoot (kind : LeafKind K) (sparse : Bool) (rows : HashMap K (List UInt8)) : Hash :=
  if sparse then treeRoot kind rows else scanRoot kind rows

theorem orderedRoot_eq {rows} {leaves : HashMap K Hash}
    (h : ∀ k, leaves.get k = leafAt kind rows k) : orderedRoot kind leaves = scanRoot kind rows := by
  unfold orderedRoot scanRoot
  rw [inOrder_eq_scanLeaves h]

theorem sectionRoot_congr (sparse : Bool) {rows rows'}
    (h : ∀ k, leafAt kind rows k = leafAt kind rows' k) :
    sectionRoot kind sparse rows = sectionRoot kind sparse rows' := by
  unfold sectionRoot treeRoot scanRoot
  rw [scanLeaves_congr h]

/-! ## The bargain -/

/-- The keys that occur and the versions of the leaves.  Where sparse trees are in use, the paths of
    the keys are distinct and the node hash tells the nodes of the trees apart; the ordered root asks
    nothing of the hash. -/
structure Scope (kind : LeafKind K) where
  keys : Set K
  versions : Set LeafMap
  empty : rowMap kind ∅ ∈ versions
  sparse : Prop
  path_inj : sparse → Set.InjOn kind.path keys
  free : sparse → CollisionFree (versionTrees versions)

/-- The rows stay within the scope. -/
structure Scope.Admits (scope : Scope kind) (rows : HashMap K (List UInt8)) : Prop where
  keys : ∀ k value, rows.get k = some value → k ∈ scope.keys
  version : rowMap kind rows ∈ scope.versions

theorem Scope.Admits.mem_keys {scope : Scope kind} {rows} (h : scope.Admits rows)
    (hleaf : leafAt kind rows k = some leaf) : k ∈ scope.keys := by
  obtain ⟨value, hget, -⟩ := Option.bind_eq_some_iff.mp hleaf
  exact h.keys k value hget

theorem Scope.admits_empty (scope : Scope kind) : scope.Admits ∅ :=
  ⟨fun k value h => absurd h (by simp), scope.empty⟩

/-- The column family holds a tree that agrees with the rows at every key of `fresh`, and has no
    leaves but at keys of the scope. -/
def Follows (scope : Scope kind) (cf : NodeCf) (root : Hash) (rows : HashMap K (List UInt8))
    (fresh : Set K) : Prop :=
  ∃ m t, KeepsTree (versionTrees scope.versions) cf root m t ∧ m ∈ scope.versions
    ∧ (∀ k ∈ scope.keys, k ∈ fresh → m (kind.path k) = leafAt kind rows k)
    ∧ ∀ path leaf, m path = some leaf → ∃ k ∈ scope.keys, kind.path k = path

/-- **Outside the dirty keys, the caches agree with the rows.**  The leaf cache counts once it has
    been built (`leafCount`) or the sparse tree is ready, the tree once it is ready. -/
structure Kept (scope : Scope kind) (ready : Bool) (s : MerkleCf K) : Prop where
  rows : scope.Admits s.rows
  dirty : ∀ k ∈ s.dirty.keys, k ∈ scope.keys
  cache : s.leafCount ≠ 0 ∨ ready = true →
    ∀ k, k ∉ s.dirty.keys → s.leaves.get k = leafAt kind s.rows k
  cached : s.dirty.isEmpty = true → ∀ root, s.cachedRoot = some root → root = scanRoot kind s.rows
  tree : ready = true → scope.sparse
    ∧ Follows scope s.nodes (s.sparseRoot.getD Hash.zero) s.rows {k | k ∉ s.dirty.keys}

variable {scope : Scope kind} {ready : Bool} {s : MerkleCf K}

theorem Kept.get_refreshed (h : Kept scope ready s) (hcount : s.leafCount ≠ 0 ∨ ready = true)
    (k : K) : (s.dirty.keys.foldl (refreshLeaf kind s.rows) s.leaves).get k
      = leafAt kind s.rows k := by
  grind [get_foldl_refreshLeaf, cache]

/-- Nothing about the rows depends on how stale the tree is allowed to be. -/
theorem Follows.mono {cf root rows}
    (h : Follows scope cf root rows fresh) (hsub : fresh' ⊆ fresh) :
    Follows scope cf root rows fresh' := by
  grind [Follows]

/-! ## The ordered root -/

/-- **The ordered root** is that of the rows; afterwards the leaf cache is right everywhere.  The
    dirty markers are dropped, so a sparse tree that is ready must have been brought up to date. -/
theorem computeOrderedRoot_spec (h : Kept scope ready s)
    (hshadow : ready = true → s.dirty.isEmpty = true) :
    (computeOrderedRoot kind s).1 = scanRoot kind s.rows
      ∧ (computeOrderedRoot kind s).2.rows = s.rows
      ∧ Kept scope ready (computeOrderedRoot kind s).2
      ∧ ∀ k, (computeOrderedRoot kind s).2.leaves.get k = leafAt kind s.rows k := by
  have hcold : (coldStart kind s).1 = scanRoot kind s.rows ∧ (coldStart kind s).2.rows = s.rows
      ∧ Kept scope ready (coldStart kind s).2
      ∧ ∀ k, (coldStart kind s).2.leaves.get k = leafAt kind s.rows k :=
    ⟨rfl, rfl, ⟨h.rows, h.dirty, fun _ k _ => get_ofEntries_scanLeaves kind s.rows k,
      fun _ root hroot => (Option.some.inj hroot).symm, h.tree⟩,
      get_ofEntries_scanLeaves kind s.rows⟩
  have hfold : s.leafCount ≠ 0 → (foldDirty kind s).1 = scanRoot kind s.rows
      ∧ (foldDirty kind s).2.rows = s.rows ∧ Kept scope ready (foldDirty kind s).2
      ∧ ∀ k, (foldDirty kind s).2.leaves.get k = leafAt kind s.rows k := by
    intro hcount
    have hleaves := h.get_refreshed (.inl hcount)
    refine ⟨orderedRoot_eq hleaves, rfl, ⟨h.rows, fun k hk => absurd hk not_mem_nil,
      fun _ k _ => hleaves k, ?_, fun hready => ?_⟩, hleaves⟩
    · intro _ root hroot
      cases hroot
      exact orderedRoot_eq hleaves
    · obtain ⟨hs, hfollows⟩ := h.tree hready
      exact ⟨hs, hfollows.mono fun k _ => not_mem_keys_of_isEmpty (hshadow hready) k⟩
  unfold computeOrderedRoot
  grind [canUseCachedSubroot, Kept.cached, Kept.cache, not_mem_keys_of_isEmpty]

/-! ## The sparse root -/

section
omit [DecidableEq K]

/-- Distinct keys have distinct paths. -/
theorem nodup_paths {scope : Scope kind} (hs : scope.sparse) {V : Type} {l : List (K × V)}
    (hkeys : ∀ e ∈ l, e.1 ∈ scope.keys) (hnd : (l.map Prod.fst).Nodup) :
    (l.map fun e => kind.path e.1).Nodup := by
  refine List.Nodup.map_on ?_ (List.Nodup.of_map _ hnd)
  intro a ha b hb heq
  exact inj_on_of_nodup_map hnd ha hb (scope.path_inj hs (hkeys a ha) (hkeys b hb) heq)

variable {scope : Scope kind} (hs : scope.sparse) {changes : List (K × Option Hash)}
  (hkeys : ∀ e ∈ changes, e.1 ∈ scope.keys) (hnd : (changes.map Prod.fst).Nodup)
include hs hkeys hnd

theorem distinct_keyChange : DistinctChanges (changes.map (keyChange kind)) := by
  unfold DistinctChanges
  rw [map_map]
  exact nodup_paths hs hkeys hnd

/-- A change set over keys, read at a key it has. -/
theorem mapAfter_path_of_mem (m : LeafMap) (he : e ∈ changes) :
    mapAfter m (changes.map (keyChange kind)) (kind.path e.1) = e.2 := by
  have hfind : ((changes.map (keyChange kind)).find? fun change => change.path = kind.path e.1)
      = some (keyChange kind e) :=
    (find?_eq_some_iff_of_nodup (distinct_keyChange hs hkeys hnd)).mpr ⟨mem_map_of_mem he, rfl⟩
  unfold mapAfter
  rw [hfind]
  rfl

end

section
variable (hs : scope.sparse) {rows : HashMap K (List UInt8)} (h : scope.Admits rows)
include hs h

theorem distinct_sparseEntry : DistinctEntries ((scanLeaves kind rows).map (sparseEntry kind)) := by
  unfold DistinctEntries
  rw [map_map]
  exact nodup_paths hs (fun e he => h.mem_keys (mem_scanLeaves.mp he)) (nodup_scanLeaves kind rows)

/-- The leaf hashes of the rows, at a path. -/
theorem rowMap_eq_some :
    rowMap kind rows path = some leaf ↔ ∃ k, kind.path k = path ∧ leafAt kind rows k = some leaf := by
  refine ⟨exists_key_of_rowMap, ?_⟩
  rintro ⟨k, rfl, hleaf⟩
  unfold rowMap
  rw [leafMap_eq_some (distinct_sparseEntry hs h), map_map, mem_map]
  exact ⟨(k, leaf), mem_scanLeaves.mpr hleaf, rfl⟩

/-- A map with the leaves of the rows and no others is that of the rows. -/
theorem eq_rowMap {m : LeafMap}
    (hfresh : ∀ k ∈ scope.keys, m (kind.path k) = leafAt kind rows k)
    (hsupport : ∀ path leaf, m path = some leaf → ∃ k ∈ scope.keys, kind.path k = path) :
    m = rowMap kind rows := by
  refine funext fun path => Option.ext fun leaf => ?_
  rw [rowMap_eq_some hs h]
  constructor
  · grind
  · rintro ⟨k, rfl, hleaf⟩
    exact (hfresh k (h.mem_keys hleaf)).trans hleaf

/-- **The tree of the rows, from scratch.** -/
theorem treeRoot_spec (name : String) :
    ∃ t overlay, sparseComputeRootFromEntries ((scanLeaves kind rows).map (sparseEntry kind))
        = .ok (treeRoot kind rows, overlay)
      ∧ KeepsTree (versionTrees scope.versions) ⟨name, overlay⟩ (treeRoot kind rows)
        (rowMap kind rows) t := by
  obtain ⟨t, overlay, hcall, hcanonical, hspells, hgains⟩ :=
    sparseComputeRootFromEntries_spec (distinct_sparseEntry hs h)
  have hnode : OptNodeOf (versionTrees scope.versions) t :=
    .of_spells (fun u hu => ⟨_, h.version, _, h.version, 0, hu⟩) hcanonical hspells
  have hroot : treeRoot kind rows = optRoot t := by
    unfold treeRoot
    rw [hcall]
  exact ⟨t, overlay, hroot ▸ hcall, hroot, hnode, hspells, (hgains _ (scope.free hs) hnode).2⟩

end

/-- A tree that follows the rows everywhere has their root. -/
theorem Follows.root_eq (hs : scope.sparse) {cf root rows}
    (h : Follows scope cf root rows Set.univ) (hrows : scope.Admits rows) :
    root = treeRoot kind rows := by
  obtain ⟨m, t, hkeeps, -, hfresh, hsupport⟩ := h
  obtain ⟨u, overlay, -, hfresh'⟩ := treeRoot_spec hs hrows ""
  have hmap := eq_rowMap hs hrows (fun k hk => hfresh k hk trivial) hsupport
  have htu := hkeeps.spells.unique (hmap ▸ hfresh'.spells) hkeeps.isNode.canonical
    hfresh'.isNode.canonical
  rw [hkeeps.root_eq, hfresh'.root_eq, htu]

/-- **One change set** over keys: the tree follows any rows that have the new leaves at the changed
    keys and the old leaves elsewhere. -/
theorem Follows.changes (hs : scope.sparse) {cf : NodeCf} {root rows rows'}
    {fresh} (h : Follows scope cf root rows fresh) (hrows' : scope.Admits rows')
    (changes : List (K × Option Hash)) (hkeys : ∀ e ∈ changes, e.1 ∈ scope.keys)
    (hnd : (changes.map Prod.fst).Nodup) (hnew : ∀ e ∈ changes, leafAt kind rows' e.1 = e.2)
    (hold : ∀ k, k ∉ changes.map Prod.fst → k ∈ fresh ∧ leafAt kind rows' k = leafAt kind rows k) :
    ∃ cf' root', applyChangeSet cf root (changes.map (keyChange kind)) = .ok (cf', root')
      ∧ Follows scope cf' root' rows' Set.univ := by
  obtain ⟨m, t, hkeeps, hm, hfresh, hsupport⟩ := h
  have hfresh' : ∀ k ∈ scope.keys,
      mapAfter m (changes.map (keyChange kind)) (kind.path k) = leafAt kind rows' k := by
    intro k hk
    by_cases hmem : k ∈ changes.map Prod.fst
    · obtain ⟨e, he, rfl⟩ := mem_map.mp hmem
      rw [mapAfter_path_of_mem hs hkeys hnd m he, hnew e he]
    · obtain ⟨hin, hsame⟩ := hold k hmem
      rw [mapAfter_of_not_mem, hfresh k hk hin, hsame]
      intro e he heq
      exact hmem (scope.path_inj hs (hkeys e he) hk heq ▸ mem_map_of_mem he)
  have hsupport' : ∀ path leaf, mapAfter m (changes.map (keyChange kind)) path = some leaf →
      ∃ k ∈ scope.keys, kind.path k = path := by
    intro path leaf hleaf
    by_cases hpath : ∃ e ∈ changes, kind.path e.1 = path
    · grind
    · grind [mapAfter_of_not_mem]
  -- the changed map is the next version
  have hversion := eq_rowMap hs hrows' hfresh' hsupport' ▸ hrows'.version
  obtain ⟨cf', root', t', hcall, hkeeps'⟩ := hkeeps.changes (scope.free hs)
    (distinct_keyChange hs hkeys hnd) fun u hu => ⟨m, hm, _, hversion, hu⟩
  exact ⟨cf', root', hcall, _, t', hkeeps', hversion, fun k hk _ => hfresh' k hk, hsupport'⟩

/-- The rebuilt column family: everything is fresh. -/
theorem rebuildSparse_spec (hs : scope.sparse) (h : Kept scope ready s) :
    ∃ s', rebuildSparse kind s = .ok s' ∧ s'.rows = s.rows ∧ Kept scope true s' := by
  obtain ⟨t, overlay, hcall, hkeeps⟩ := treeRoot_spec hs h.rows s.nodes.name
  unfold rebuildSparse
  dsimp only
  rw [hcall, bind_ok]
  refine ⟨_, rfl, rfl, h.rows, fun k hk => absurd hk not_mem_nil,
    fun _ k _ => get_ofEntries_scanLeaves kind s.rows k, fun _ root hroot => absurd hroot (by simp),
    fun _ => ⟨hs, _, t, hkeeps, h.rows.version, fun k hk _ => ?_, fun path leaf hleaf => ?_⟩⟩
  · apply Option.ext
    intro leaf
    rw [rowMap_eq_some hs h.rows]
    constructor
    · rintro ⟨k', hpath, hleaf⟩
      rw [← scope.path_inj hs (h.rows.mem_keys hleaf) hk hpath]
      exact hleaf
    · exact fun hleaf => ⟨k, rfl, hleaf⟩
  · obtain ⟨k, hpath, hat⟩ := (rowMap_eq_some hs h.rows).mp hleaf
    exact ⟨k, h.rows.mem_keys hat, hpath⟩

/-- What is left clean by an incremental update. -/
structure Settled (scope : Scope kind) (s s' : MerkleCf K) : Prop where
  rows : s'.rows = s.rows
  kept : Kept scope true s'
  clean : s'.dirty.isEmpty = true

/-- **The sparse root** of a ready tree is that of the rows; no key stays dirty. -/
theorem computeSparseRoot_spec (h : Kept scope true s) :
    (computeSparseRoot kind s).1 = .ok (treeRoot kind s.rows)
      ∧ Settled scope s (computeSparseRoot kind s).2
      ∧ (computeSparseRoot kind s).2.sparseRoot.getD Hash.zero = treeRoot kind s.rows := by
  obtain ⟨hs, htree⟩ := h.tree rfl
  unfold computeSparseRoot
  dsimp only
  split
  · next hclean =>
    have hempty : s.dirty.isEmpty = true := (Bool.and_eq_true_iff.mp hclean).1
    have hroot := (htree.mono fun k _ => not_mem_keys_of_isEmpty hempty k).root_eq hs h.rows
    exact ⟨congrArg Except.ok hroot, ⟨rfl, h, hempty⟩, hroot⟩
  · have hchanges : s.dirty.keys.map (dirtyChange kind s.rows)
        = (s.dirty.keys.map fun k => (k, leafAt kind s.rows k)).map (keyChange kind) := by
      rw [map_map]
      rfl
    have hfst : (s.dirty.keys.map fun k => (k, leafAt kind s.rows k)).map Prod.fst
        = s.dirty.keys := by
      rw [map_map]
      exact map_id _
    obtain ⟨cf', root', hcall, hfollows⟩ := htree.changes hs h.rows
      (s.dirty.keys.map fun k => (k, leafAt kind s.rows k))
      (fun e he => by
        obtain ⟨k, hk, rfl⟩ := mem_map.mp he
        exact h.dirty k hk)
      (hfst.symm ▸ HashMap.keys_nodup s.dirty)
      (fun e he => by
        obtain ⟨k, hk, rfl⟩ := mem_map.mp he
        rfl)
      (fun k hk => ⟨by rw [hfst] at hk; exact hk, rfl⟩)
    have hroot := hfollows.root_eq hs h.rows
    unfold applyChangeSet at hcall
    rw [← hchanges, bind_eq_ok] at hcall
    obtain ⟨⟨root, stage⟩, hcall, hpair⟩ := hcall
    cases hpair
    rw [hcall]
    refine ⟨congrArg Except.ok hroot, ⟨rfl, ⟨h.rows, fun k hk => absurd hk not_mem_nil,
      fun _ k _ => h.get_refreshed (.inr rfl) k, fun _ root hroot => absurd hroot (by simp),
      fun _ => ⟨hs, hfollows.mono (Set.subset_univ _)⟩⟩, rfl⟩, hroot⟩

/-! ## Staged rows -/

/-- The leaves of `rows'` are those of `rows` with staged leaves laid over them. -/
def Overlays (kind : LeafKind K) (staged : HashMap K (Option Hash))
    (rows rows' : HashMap K (List UInt8)) : Prop :=
  ∀ k, leafAt kind rows' k = match staged.get k with
    | some new => new
    | none => leafAt kind rows k

section

theorem Overlays.sectionRoot_eq {staged}
    {rows rows'} (h : Overlays kind staged rows rows') (sparse : Bool)
    (hempty : staged.isEmpty = true) :
    sectionRoot kind sparse rows = sectionRoot kind sparse rows' := by
  refine sectionRoot_congr sparse fun k => ?_
  rw [h k, isEmpty_iff.mp hempty k]

/-- The ordered root of a proposal, over a leaf cache that is right everywhere. -/
theorem orderedRootForBatch_eq {staged}
    {rows rows' : HashMap K (List UInt8)} (hcache : ∀ k, s.leaves.get k = leafAt kind rows k)
    (h : Overlays kind staged rows rows') :
    orderedRootForBatch kind s staged = scanRoot kind rows' := by
  unfold orderedRootForBatch scanRoot
  rw [mergeChanges_eq kind.bytes_inj (ofEntries (scanLeaves kind rows')) fun k => ?_,
    inOrder_eq_scanLeaves (get_ofEntries_scanLeaves kind rows')]
  rw [get_ofEntries_scanLeaves, h k, hcache]
  cases staged.get k <;> rfl

/-- The sparse root of a proposal, over a tree that is up to date. -/
theorem sparseRootForBatch_eq {staged} (hkept : Kept scope true s) (hclean : s.dirty.isEmpty = true)
    {rows' : HashMap K (List UInt8)}
    (h : Overlays kind staged s.rows rows') (hrows' : scope.Admits rows')
    (hkeys : ∀ k ∈ staged.keys, k ∈ scope.keys) :
    sparseRootForBatch kind s (s.sparseRoot.getD Hash.zero) staged = .ok (treeRoot kind rows') := by
  obtain ⟨hs, htree⟩ := hkept.tree rfl
  have hfollows : Follows scope s.nodes (s.sparseRoot.getD Hash.zero) s.rows Set.univ :=
    htree.mono fun k _ => not_mem_keys_of_isEmpty hclean k
  unfold sparseRootForBatch
  split
  · next hempty =>
    rw [hfollows.root_eq hs hkept.rows]
    exact congrArg Except.ok (h.sectionRoot_eq true hempty)
  · obtain ⟨cf', root', hcall, hfollows'⟩ := hfollows.changes hs hrows' staged.toList
      (fun e he => hkeys e.1 (mem_keys_of_get (mem_toList.mp he)))
      (toList_map_fst staged ▸ keys_nodup staged)
      (fun e he => by
        have hget : staged.get e.1 = some e.2 := mem_toList.mp he
        rw [h e.1, hget])
      (fun k hk => by
        rw [toList_map_fst, not_mem_keys_iff] at hk
        refine ⟨trivial, ?_⟩
        rw [h k, hk])
    unfold applyChangeSet at hcall
    rw [bind_eq_ok] at hcall
    obtain ⟨⟨root, stage⟩, hcall, hpair⟩ := hcall
    cases hpair
    rw [← hfollows'.root_eq hs hrows']
    exact bind_eq_ok.mpr ⟨_, hcall, rfl⟩

end

/-! ## Commits -/

theorem Kept.mark (h : Kept scope ready s) (hkey : key ∈ scope.keys) :
    Kept scope ready (s.stageDirtyMarker key) := by
  have hold : ∀ k, k ∉ (s.stageDirtyMarker key).dirty.keys → k ∉ s.dirty.keys :=
    fun k hk hold => hk ((mem_keys_put _ _ _ _).mpr (.inr hold))
  refine ⟨h.rows, ?_, fun hcount k hk => h.cache hcount k (hold k hk), ?_,
    fun hready => ⟨(h.tree hready).1, (h.tree hready).2.mono hold⟩⟩
  · intro k hk
    rcases (mem_keys_put _ _ _ _).mp hk with rfl | hk
    · exact hkey
    · exact h.dirty k hk
  · intro hempty
    have hnone := isEmpty_iff.mp hempty key
    grind [stageDirtyMarker]

section
variable (h : Kept scope ready s) {rows : HashMap K (List UInt8)} (hrows : scope.Admits rows)
include h hrows

/-- Rows may change where they are marked. -/
theorem Kept.rewrite (hsame : ∀ k, k ∉ s.dirty.keys → rows.get k = s.rows.get k) :
    Kept scope ready { s with rows } := by
  have hleaf : ∀ k, k ∉ s.dirty.keys → leafAt kind s.rows k = leafAt kind rows k := by
    intro k hk
    unfold leafAt
    rw [hsame k hk]
  refine ⟨hrows, h.dirty, fun hcount k hk => (h.cache hcount k hk).trans (hleaf k hk), ?_, ?_⟩
  · intro hempty root hroot
    rw [h.cached hempty root hroot]
    exact sectionRoot_congr false fun k => hleaf k (not_mem_keys_of_isEmpty hempty k)
  · intro hready
    obtain ⟨hs, m, t, hkeeps, hm, hfresh, hsupport⟩ := h.tree hready
    exact ⟨hs, m, t, hkeeps, hm, fun k hk hin => (hfresh k hk hin).trans (hleaf k hin), hsupport⟩

/-- **A commit keeps the bargain**: it marks every key whose row it writes. -/
theorem Kept.commit {keys : List K} (hkeys : ∀ k ∈ keys, k ∈ scope.keys)
    (hsame : ∀ k, k ∉ keys → rows.get k = s.rows.get k) :
    Kept scope ready (keys.foldl stageDirtyMarker { s with rows }) := by
  have hmarked : ∀ (keys : List K) (s : MerkleCf K), Kept scope ready s →
      (∀ k ∈ keys, k ∈ scope.keys) → Kept scope ready (keys.foldl stageDirtyMarker s)
        ∧ (keys.foldl stageDirtyMarker s).rows = s.rows := by
    intro keys
    induction keys with
    | nil => exact fun s h _ => ⟨h, rfl⟩
    | cons key keys ih =>
      grind [mark, stageDirtyMarker]
  grind [foldl_stage_rows, rewrite, mem_dirty_foldl_stage]

end
end MerkleCf
end Lichen.State
