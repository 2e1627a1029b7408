/-
  The sparse state tree forgets its history.

  A finite map from paths to leaf hashes has one canonical trie.  The code reaches it in two ways:
  `sparseComputeRootFromEntries` builds it from the sorted entries, and a series of change sets
  rewrites the stored tree of another map into it.  Both end in the hash of that trie, so the root
  depends on the map alone (`sparse_history_independent`).

  1. `Spells` connects a trie with a map; one change set, sorted or not, is one change of the map;
  2. the loop over a sorted change set is a fold of trie updates, and what it stages is written out
     as the new stored tree (`Stored`);
  3. the recursive build from sorted entries gives the trie of these entries.
-/
import Lichen.State.SparseUpdate
import Mathlib.Data.List.TakeWhile

open Base HashMap
namespace Lichen.State
open SparseLeafEntry List

/-! ## Maps and change sets -/

/-- The leaf hash at each path. -/
abbrev LeafMap := BitVec 256 → Option Hash

/-- The leaf hash the entries give a path. -/
def leafMap (entries : List SparseLeafEntry) (path : BitVec 256) : Option Hash :=
  (entries.find? fun entry => entry.path = path).map SparseLeafEntry.leafHash

/-- The map after a change set. -/
def mapAfter (m : LeafMap) (changes : List SparseLeafChange)
    (path : BitVec 256) : Option Hash :=
  match changes.find? fun change => change.path = path with
  | some change => change.leafHash
  | none => m path

/-- No path is changed twice. -/
def DistinctChanges (changes : List SparseLeafChange) : Prop :=
  (changes.map SparseLeafChange.path).Nodup

/-- The entries are a map. -/
def DistinctEntries (entries : List SparseLeafEntry) : Prop :=
  (entries.map SparseLeafEntry.path).Nodup

instance (changes : List SparseLeafChange) : Decidable (DistinctChanges changes) :=
  inferInstanceAs (Decidable (List.Nodup _))

instance (entries : List SparseLeafEntry) : Decidable (DistinctEntries entries) :=
  inferInstanceAs (Decidable (List.Nodup _))

/-- In a list with distinct keys, a lookup finds what is there. -/
theorem find?_eq_some_iff_of_nodup {α β : Type} [DecidableEq β] {key} {l : List α}
    (hnd : (l.map key).Nodup) {k : β} {a : α} :
    l.find? (fun x => key x = k) = some a ↔ a ∈ l ∧ key a = k := by
  constructor
  · intro h
    exact ⟨mem_of_find?_eq_some h, by simpa using List.find?_some h⟩
  · rintro ⟨hmem, hkey⟩
    have hsome : (l.find? fun x => key x = k).isSome := by
      rw [List.find?_isSome]
      exact ⟨a, hmem, decide_eq_true hkey⟩
    obtain ⟨b, hb⟩ := Option.isSome_iff_exists.mp hsome
    have hbmem := mem_of_find?_eq_some hb
    have hbkey : key b = k := by simpa using List.find?_some hb
    rw [hb, inj_on_of_nodup_map hnd hbmem hmem (hbkey.trans hkey.symm)]

theorem leafMap_eq_some {entries} (h : DistinctEntries entries)
    {path : BitVec 256} {v : Hash} :
    leafMap entries path = some v
      ↔ (path, v) ∈ entries.map fun entry => (entry.path, entry.leafHash) := by
  unfold leafMap
  rw [Option.map_eq_some_iff, mem_map]
  constructor
  · grind
  · rintro ⟨entry, hmem, hpair⟩
    rw [Prod.mk.injEq] at hpair
    exact ⟨entry, (find?_eq_some_iff_of_nodup h).mpr ⟨hmem, hpair.1⟩, hpair.2⟩

/-- The order in which distinct changes come does not matter. -/
theorem mapAfter_perm {changes sorted : List SparseLeafChange} (hperm : sorted.Perm changes)
    (hnd : DistinctChanges changes) (m : LeafMap) :
    mapAfter m sorted = mapAfter m changes := by
  have hnd' : DistinctChanges sorted := (hperm.map _).nodup_iff.mpr hnd
  have hfind : ∀ path, (sorted.find? fun change => change.path = path)
      = changes.find? fun change => change.path = path := by
    intro path
    apply Option.ext
    intro change
    rw [find?_eq_some_iff_of_nodup hnd', find?_eq_some_iff_of_nodup hnd, hperm.mem_iff]
  funext path
  unfold mapAfter
  rw [hfind]

theorem find?_path_eq_none {changes : List SparseLeafChange} (h : ∀ c ∈ changes, c.path ≠ p) :
    (changes.find? fun change => change.path = p) = none := by
  simpa using h

/-- One change after the other. -/
theorem mapAfter_cons (hnd : DistinctChanges (change :: changes)) (m : LeafMap) :
    mapAfter m (change :: changes)
      = mapAfter (fun path => if path = change.path then change.leafHash else m path) changes := by
  unfold DistinctChanges at hnd
  rw [map_cons, nodup_cons] at hnd
  funext path
  unfold mapAfter
  by_cases hpath : change.path = path
  · have hnone : (changes.find? fun c => c.path = path) = none :=
      find?_path_eq_none fun c hc heq => hnd.1 ((heq.trans hpath.symm) ▸ mem_map_of_mem hc)
    rw [List.find?_cons_of_pos (by rw [decide_eq_true_eq]; exact hpath), hnone]
    dsimp only
    rw [if_pos hpath.symm]
  · rw [List.find?_cons_of_neg (by rw [decide_eq_true_eq]; exact hpath)]
    cases changes.find? fun c => c.path = path with
    | some c => rfl
    | none =>
      dsimp only
      rw [if_neg fun h => hpath h.symm]

/-- The trie of a map. -/
def Spells (t : Option SparseTrie) (m : LeafMap) : Prop :=
  ∀ path v, (path, v) ∈ Trie.optEntries t ↔ m path = some v

/-- A map has one tree. -/
theorem Spells.unique (h : Spells t m) (h' : Spells u m) (ht : Trie.OptCanonical t)
    (hu : Trie.OptCanonical u) : t = u :=
  ht.eq_of_entries hu fun e => (h e.1 e.2).trans (h' e.1 e.2).symm

theorem Spells.update (h : Spells t m)
    (hcanon : Trie.OptCanonical t) (q : BitVec 256) (new : Option Hash) :
    Spells (Trie.optUpdate t q new) fun path => if path = q then new else m path := by
  intro path v
  rw [Trie.entries_optUpdate hcanon q new (path, v), h path v]
  by_cases hpath : path = q
  · simp [hpath]
  · simp [hpath]

/-! ## Sorting -/

instance {α : Type} (path : α → BitVec 256) (leafKey : α → List UInt8) :
    Std.Total (pathOrder path leafKey) where
  total a b := by
    grind [pathOrder]

instance {α : Type} (path : α → BitVec 256) (leafKey : α → List UInt8) :
    IsTrans α (pathOrder path leafKey) where
  trans a b c := by
    grind [pathOrder]

/-- Sorted by path, each path once. -/
def Ascending {α : Type} (path : α → BitVec 256) (l : List α) : Prop :=
  l.Pairwise fun a b => (path a).toNat < (path b).toNat

theorem ascending_insertionSort {α : Type} {path} {leafKey : α → List UInt8}
    {l : List α} (hnd : (l.map path).Nodup) :
    Ascending path (l.insertionSort (pathOrder path leafKey)) := by
  have hsorted := pairwise_insertionSort (pathOrder path leafKey) l
  have hperm := perm_insertionSort (pathOrder path leafKey) l
  have hnd' : ((l.insertionSort (pathOrder path leafKey)).map path).Nodup :=
    (hperm.map path).nodup_iff.mpr hnd
  have hne : (l.insertionSort (pathOrder path leafKey)).Pairwise fun a b => path a ≠ path b :=
    pairwise_map.mp hnd'
  refine (hsorted.and hne).imp fun {a b} hab => ?_
  rcases hab.1 with hlt | ⟨heq, -⟩
  · exact hlt
  · exact absurd heq hab.2

/-! ## The trees of an update -/

/-- From `m` to `m'`, with the paths below `n` done. -/
def partway (n : Nat) (m m' : LeafMap) (path : BitVec 256) : Option Hash :=
  if path.toNat < n then m' path else m path

/-- **The trees an update from `m` to `m'` goes through**: it makes its changes in the order of the
    paths. -/
def updateTrees (m m' : LeafMap) : Set SparseTrie :=
  {t | ∃ n, Spells (some t) (partway n m m')}

/-- The leaves on the way are those of the two maps. -/
theorem leaf_of_updateTrees {P : BitVec 256 × Hash → Prop} (h : t ∈ updateTrees m m')
    (hm : ∀ p v, m p = some v → P (p, v)) (hm' : ∀ p v, m' p = some v → P (p, v)) :
    ∀ e ∈ t.entries, P e := by
  obtain ⟨n, hspells⟩ := h
  intro e he
  have hv := (hspells e.1 e.2).mp he
  unfold partway at hv
  split at hv
  · exact hm' e.1 e.2 hv
  · exact hm e.1 e.2 hv

/-- The first of the sorted changes lead partway. -/
theorem mapAfter_first (hasc : Ascending SparseLeafChange.path (first ++ rest))
    (m : LeafMap) : ∃ n, mapAfter m first
      = partway n m (mapAfter m (first ++ rest)) := by
  cases rest with
  | nil =>
    refine ⟨2 ^ 256, funext fun path => ?_⟩
    rw [append_nil]
    exact (if_pos path.isLt).symm
  | cons next rest =>
    obtain ⟨-, hrest, hbefore⟩ := pairwise_append.mp hasc
    refine ⟨next.path.toNat, funext fun path => ?_⟩
    unfold partway
    split
    · next hlt =>
      -- the rest starts above the path
      have hnone : ((next :: rest).find? fun change => change.path = path) = none := by
        refine find?_path_eq_none fun change hmem heq => ?_
        subst heq
        rcases mem_cons.mp hmem with rfl | hmem
        · exact lt_irrefl _ hlt
        · exact lt_asymm hlt ((pairwise_cons.mp hrest).1 change hmem)
      unfold mapAfter
      rw [find?_append, hnone, Option.or_none]
    · next hge =>
      have hnone : (first.find? fun change => change.path = path) = none :=
        find?_path_eq_none fun change hmem heq => hge (heq ▸ hbefore change hmem next mem_cons_self)
      show (match first.find? fun change => change.path = path with
        | some change => change.leafHash
        | none => m path) = m path
      rw [hnone]

section
variable [Crypto] {trees : Set SparseTrie} {cf : NodeCf} {stage : SparseStage}

/-! ## Change sets on a stored tree -/

/-- The tree may be empty; otherwise it is a node of one of the trees. -/
def OptNodeOf (trees : Set SparseTrie) (t : Option SparseTrie) : Prop :=
  ∀ u, t = some u → NodeOf trees u

/-- The tree may be empty; otherwise all its nodes are found. -/
def OptHolds (store : Hash → Option (List UInt8)) (t : Option SparseTrie) : Prop :=
  ∀ u, t = some u → Holds store u

section
omit [Crypto]

variable {t : Option SparseTrie}

theorem OptNodeOf.canonical (h : OptNodeOf trees t) : Trie.OptCanonical t :=
  fun u hu => (h u hu).canonical

/-- The canonical tree of a map, if the trees of that map are among the given ones. -/
theorem OptNodeOf.of_spells (hin : ∀ u, Spells (some u) m → u ∈ trees) (ht : Trie.OptCanonical t)
    (hm : Spells t m) : OptNodeOf trees t :=
  fun u hu => ⟨u, hin u (hu ▸ hm), ht u hu, .refl u⟩

end

/-- One change, at the top: the depth of a tree over 256-bit paths is at most 257. -/
theorem sparseUpdateNode_top (hfree : CollisionFree trees) (ht : OptNodeOf trees t)
    (hup : OptNodeOf trees (Trie.optUpdate t q new)) (h : OptHolds (stage.view cf) t) :
    ∃ stage', sparseUpdateNode cf 257 stage (optRoot t) q new
        = .ok (optRoot (Trie.optUpdate t q new), stage')
      ∧ OptHolds (stage'.view cf) (Trie.optUpdate t q new) := by
  cases t with
  | some t =>
    have hheight := (ht t rfl).canonical.height_le (n := 0) (p := 0) (Nat.zero_le _)
      fun e he i hi => absurd hi (Nat.not_lt_zero i)
    obtain ⟨stage', hcall, hrew⟩ := sparseUpdateNode_spec hfree (ht t rfl) hup hheight (h t rfl)
    exact ⟨stage', hcall, hrew.holds⟩
  | none =>
    unfold sparseUpdateNode Trie.optUpdate
    rw [optRoot, if_pos rfl]
    cases new with
    | none => exact ⟨stage, rfl, fun u hu => absurd hu (by simp)⟩
    | some v =>
      refine ⟨stage.add (.leaf q v), rfl, fun u hu => ?_⟩
      rw [Option.map_some, Option.some.injEq] at hu
      rw [← hu]
      rintro s rfl
      exact shows_add stage _

/-- The tree after a list of changes. -/
def changeAll (t : Option SparseTrie) (changes : List SparseLeafChange) : Option SparseTrie :=
  changes.foldl (fun t change => Trie.optUpdate t change.path change.leafHash) t

/-- **The loop over changes**: what one change keeps, the loop keeps.  `P` holds of every tree on the
    way. -/
theorem applySparseChanges_run {P : Option SparseTrie → Prop}
    {I : Option SparseTrie → SparseStage → Prop}
    (hstep : ∀ t stage q new, P (Trie.optUpdate t q new) → I t stage →
      ∃ stage', sparseUpdateNode cf 257 stage (optRoot t) q new
          = .ok (optRoot (Trie.optUpdate t q new), stage')
        ∧ I (Trie.optUpdate t q new) stage') :
    ∀ {lastPath : Option (BitVec 256)} {t : Option SparseTrie} {stage : SparseStage},
      DistinctChanges changes → (∀ change ∈ changes, some change.path ≠ lastPath) →
      (∀ first rest, changes = first ++ rest → P (changeAll t first)) → I t stage →
      ∃ stage', applySparseChanges cf lastPath (optRoot t, stage) changes
          = .ok (optRoot (changeAll t changes), stage') ∧ I (changeAll t changes) stage' := by
  induction changes with
  | nil =>
    intro lastPath t stage _ _ _ h
    exact ⟨stage, rfl, h⟩
  | cons change changes ih =>
    intro lastPath t stage hnd _ hP h
    obtain ⟨stage₁, hcall, h₁⟩ := hstep t stage change.path change.leafHash
      (hP [change] changes rfl) h
    unfold DistinctChanges at hnd
    rw [map_cons, nodup_cons] at hnd
    have hlast' : ∀ c ∈ changes, some c.path ≠ some change.path := by
      intro c hc heq
      exact hnd.1 (Option.some.inj heq ▸ mem_map_of_mem hc)
    obtain ⟨stage', hrest, h'⟩ := ih hnd.2 hlast'
      (fun first rest heq => hP (change :: first) rest (congrArg (change :: ·) heq)) h₁
    grind [applySparseChanges, changeAll]

omit [Crypto] in
theorem canonical_changeAll (changes : List SparseLeafChange) : ∀ {t : Option SparseTrie},
    Trie.OptCanonical t → Trie.OptCanonical (changeAll t changes) := by
  induction changes with
  | nil => exact fun h => h
  | cons change changes ih => exact fun h => ih (h.update change.path change.leafHash)

omit [Crypto] in
/-- The tree after the changes spells the changed map. -/
theorem Spells.changeAll :
    ∀ {t : Option SparseTrie} {m : LeafMap}, DistinctChanges changes →
      Trie.OptCanonical t → Spells t m → Spells (changeAll t changes) (mapAfter m changes) := by
  induction changes with
  | nil =>
    intro t m _ _ hm
    exact hm
  | cons change changes ih =>
    intro t m hnd ht hm
    rw [mapAfter_cons hnd]
    unfold DistinctChanges at hnd
    rw [map_cons, nodup_cons] at hnd
    exact ih hnd.2 (ht.update change.path change.leafHash)
      (hm.update ht change.path change.leafHash)

/-- **The loop over sorted changes.** -/
theorem applySparseChanges_spec (hfree : CollisionFree trees)
    (hasc : Ascending SparseLeafChange.path changes) (hnd : DistinctChanges changes)
    (hlast : ∀ change ∈ changes, some change.path ≠ lastPath) (ht : OptNodeOf trees t)
    (hm : Spells t m) (hin : updateTrees m (mapAfter m changes) ⊆ trees)
    (h : OptHolds (stage.view cf) t) :
    ∃ stage', applySparseChanges cf lastPath (optRoot t, stage) changes
        = .ok (optRoot (changeAll t changes), stage')
      ∧ OptHolds (stage'.view cf) (changeAll t changes) ∧ OptNodeOf trees (changeAll t changes)
      ∧ Spells (changeAll t changes) (mapAfter m changes) := by
  have hway : ∀ first rest, changes = first ++ rest → OptNodeOf trees (changeAll t first) := by
    rintro first rest rfl
    obtain ⟨n, hn⟩ := mapAfter_first hasc m
    have hnd' : DistinctChanges first := hnd.sublist ((sublist_append_left first rest).map _)
    refine .of_spells (fun u hu => hin ⟨n, hu⟩) (canonical_changeAll first ht.canonical) ?_
    rw [← hn]
    exact hm.changeAll hnd' ht.canonical
  obtain ⟨stage', hcall, hover, hholds⟩ := applySparseChanges_run (P := OptNodeOf trees)
    (I := fun t stage => OptNodeOf trees t ∧ OptHolds (stage.view cf) t)
    (fun t stage q new hup hI => by
      obtain ⟨stage', hcall, hholds⟩ := sparseUpdateNode_top hfree hI.1 hup hI.2
      exact ⟨stage', hcall, hup, hholds⟩)
    hnd hlast hway ⟨ht, h⟩
  exact ⟨stage', hcall, hholds, hover, hm.changeAll hnd ht.canonical⟩

omit [Crypto] in
/-- What is written is what the stage showed. -/
theorem get_writeSparseNodeUpdate (cf : NodeCf) (stage : SparseStage) (hash : Hash) :
    (writeSparseNodeUpdate cf stage).nodes.get hash = stage.view cf hash := by
  have hremove : ∀ (l : List Hash) (m : SparseNodeOverlay),
      (l.foldl HashMap.remove m).get hash = if hash ∈ l then none else m.get hash := by
    intro l
    induction l with
    | nil =>
      intro m
      rfl
    | cons a l ih =>
      grind
  have hnd : (stage.overlay.toList.map Prod.fst).Nodup := by
    rw [toList_map_fst]
    exact keys_nodup _
  have hput := get_foldl_put_entries Prod.fst Prod.snd stage.overlay.toList
    (stage.obsolete.foldl HashMap.remove cf.nodes) hnd
  grind [writeSparseNodeUpdate, SparseStage.view, toList_map_fst]

/-- The column family holds the tree of the map `m`, under the given root. -/
structure KeepsTree (trees : Set SparseTrie) (cf : NodeCf) (root : Hash)
    (m : LeafMap) (t : Option SparseTrie) : Prop where
  root_eq : root = optRoot t
  isNode : OptNodeOf trees t
  spells : Spells t m
  holds : OptHolds cf.nodes.get t

/-- One change set on a stored tree, written back. -/
def applyChangeSet (cf : NodeCf) (root : Hash) (changes : List SparseLeafChange) :
    Except String (NodeCf × Hash) := do
  let (root, stage) ← sparseRootWithChanges cf root changes
  .ok (writeSparseNodeUpdate cf stage, root)

/-- **One change set takes the stored tree of a map to that of the changed map.** -/
theorem KeepsTree.changes (hfree : CollisionFree trees)
    (h : KeepsTree trees cf root m t) {changes}
    (hnd : DistinctChanges changes) (hin : updateTrees m (mapAfter m changes) ⊆ trees) :
    ∃ cf' root' t', applyChangeSet cf root changes = .ok (cf', root')
      ∧ KeepsTree trees cf' root' (mapAfter m changes) t' := by
  have hperm := perm_insertionSort
    (pathOrder SparseLeafChange.path SparseLeafChange.leafKey) changes
  have hstart : OptHolds ((⟨∅, []⟩ : SparseStage).view cf) t := by
    intro u hu s hs
    have hshow := h.holds u hu s hs
    exact hshow
  have hnd' : DistinctChanges
      (changes.insertionSort (pathOrder SparseLeafChange.path SparseLeafChange.leafKey)) :=
    (hperm.map _).nodup_iff.mpr hnd
  rw [← mapAfter_perm hperm hnd] at hin ⊢
  obtain ⟨stage', hcall, hholds, hover, hspells⟩ := applySparseChanges_spec hfree
    (ascending_insertionSort hnd) hnd' (fun c _ => Option.some_ne_none c.path) h.isNode h.spells hin
    hstart
  refine ⟨writeSparseNodeUpdate cf stage', _, _, ?_, ⟨rfl, hover, hspells, ?_⟩⟩
  · unfold applyChangeSet sparseRootWithChanges
    rw [h.root_eq, hcall]
    rfl
  · intro u hu s hs
    have hshow := hholds u hu s hs
    unfold Shows at *
    rw [get_writeSparseNodeUpdate]
    exact hshow

/-! ## Building from scratch -/

theorem shows_put (overlay : SparseNodeOverlay) (t : SparseTrie) :
    Shows (overlay.put (rootHash t) (sparseEncodeNode (rootNode t))).get t :=
  get_put_self _ _ _

theorem Shows.put (hfree : CollisionFree trees) {overlay : SparseNodeOverlay}
    (hs : NodeOf trees s) (ht : NodeOf trees t) (h : Shows overlay.get s) :
    Shows (overlay.put (rootHash t) (sparseEncodeNode (rootNode t))).get s := by
  grind [CollisionFree.rootHash_inj, Shows]

/-- The pairs of a list of entries. -/
def leafPairs (entries : List SparseLeafEntry) : List (BitVec 256 × Hash) :=
  entries.map fun entry => (entry.path, entry.leafHash)

omit [Crypto] in
/-- Sorted entries split at the first difference of the outermost paths: before it the bit is
    clear, after it the bit is set, and neither part is empty. -/
theorem split_ascending (hasc : Ascending path (first :: second :: rest)) :
    let last := (second :: rest).getLast (cons_ne_nil _ _)
    let n := commonBits first.path last.path
    let before := (first :: second :: rest).takeWhile fun entry => !sparseBit entry.path n
    let after := (first :: second :: rest).dropWhile fun entry => !sparseBit entry.path n
    n < 256 ∧ before ≠ [] ∧ after ≠ []
      ∧ (∀ entry ∈ before, Agree n entry.path first.path ∧ entry.path.getMsbD n = false)
      ∧ ∀ entry ∈ after, Agree n entry.path first.path ∧ entry.path.getMsbD n = true := by
  intro last n before after
  have hb : before = (first :: second :: rest).takeWhile fun entry => !sparseBit entry.path n := rfl
  have ha : after = (first :: second :: rest).dropWhile fun entry => !sparseBit entry.path n := rfl
  clear_value before after
  have hlastmem : last ∈ second :: rest := getLast_mem _
  have hfirst : ∀ entry ∈ first :: second :: rest, first.path.toNat ≤ entry.path.toNat := by
    intro entry hentry
    rcases mem_cons.mp hentry with rfl | htail
    · exact le_refl _
    · exact le_of_lt ((pairwise_cons.mp hasc).1 entry htail)
  have hlast : ∀ entry ∈ first :: second :: rest, entry.path.toNat ≤ last.path.toNat := by
    have hconcat : (first :: second :: rest).dropLast ++ [last] = first :: second :: rest :=
      dropLast_append_getLast (cons_ne_nil _ _)
    intro entry hentry
    have hasc' := hasc
    unfold Ascending at hasc'
    rw [← hconcat, pairwise_append] at hasc'
    rw [← hconcat, mem_append, mem_singleton] at hentry
    rcases hentry with hmem | rfl
    · exact le_of_lt (hasc'.2.2 entry hmem last (mem_singleton.mpr rfl))
    · exact le_refl _
  have hne : first.path ≠ last.path := by
    intro heq
    have hlt := (pairwise_cons.mp hasc).1 last hlastmem
    rw [heq] at hlt
    exact lt_irrefl _ hlt
  obtain ⟨hn, hdiff⟩ : n < 256 ∧ first.path.getMsbD n ≠ last.path.getMsbD n := commonBits_lt hne
  have hagree : ∀ entry ∈ first :: second :: rest, Agree n first.path entry.path :=
    fun entry hentry => (agree_commonBits first.path last.path).between (hfirst entry hentry)
      (hlast entry hentry)
  have hmono : first.path.getMsbD n = true → last.path.getMsbD n = true :=
    getMsbD_mono (agree_commonBits first.path last.path) (hfirst last (mem_cons_of_mem _ hlastmem))
  have hfirstbit : first.path.getMsbD n = false := by
    cases hbit : first.path.getMsbD n with
    | false => rfl
    | true => exact absurd (hbit.trans (hmono hbit).symm) hdiff
  have hlastbit : last.path.getMsbD n = true := by
    cases hbit : last.path.getMsbD n with
    | true => rfl
    | false => exact absurd (hfirstbit.trans hbit.symm) hdiff
  have happend : before ++ after = first :: second :: rest := by
    rw [hb, ha, takeWhile_append_dropWhile]
  have hbefore : ∀ entry ∈ before, entry.path.getMsbD n = false := by
    intro entry hentry
    rw [hb] at hentry
    have hclear := mem_takeWhile_imp hentry
    simpa [sparseBit] using hclear
  have hsub : ∀ entry ∈ after, entry ∈ first :: second :: rest := by
    intro entry hentry
    rw [← happend]
    exact mem_append_right _ hentry
  have hafter_ne : after ≠ [] := by
    intro hnil
    have hlastmem' : last ∈ before := by
      rw [hnil, append_nil] at happend
      rw [happend]
      exact mem_cons_of_mem _ hlastmem
    have hclear := hbefore last hlastmem'
    rw [hlastbit] at hclear
    exact Bool.noConfusion hclear
  have hbefore_ne : before ≠ [] := by
    have hpos : (!sparseBit first.path n) = true := by
      unfold sparseBit
      rw [hfirstbit]
      rfl
    rw [hb, takeWhile_cons, if_pos hpos]
    exact cons_ne_nil _ _
  -- the first of the later part has the bit
  have hhead : (after.head hafter_ne).path.getMsbD n = true := by
    have hstop := head_dropWhile_not (fun entry : SparseLeafEntry => !sparseBit entry.path n)
      (ha ▸ hafter_ne)
    simp only [← ha, Bool.not_eq_false'] at hstop
    exact hstop
  refine ⟨hn, hbefore_ne, hafter_ne, fun entry hentry => ?_, fun entry hentry => ?_⟩
  · have hmem : entry ∈ first :: second :: rest := by
      rw [← happend]
      exact mem_append_left _ hentry
    exact ⟨(hagree entry hmem).symm, hbefore entry hentry⟩
  · refine ⟨(hagree entry (hsub entry hentry)).symm, ?_⟩
    -- and later paths are larger
    obtain ⟨x, xs, rfl⟩ := exists_cons_of_ne_nil hafter_ne
    have hasc_after : Ascending path (x :: xs) := by
      have hasc' := hasc
      unfold Ascending at hasc' ⊢
      rw [← happend, pairwise_append] at hasc'
      exact hasc'.2.1
    rcases mem_cons.mp hentry with rfl | htail
    · exact hhead
    · have hlt := (pairwise_cons.mp hasc_after).1 entry htail
      have hboth : Agree n x.path entry.path :=
        (hagree x (hsub x mem_cons_self)).symm.trans (hagree entry (hsub entry hentry))
      exact getMsbD_mono hboth (le_of_lt hlt) hhead

/-- The overlay has taken in the nodes of the tree, and has lost none, as far as the hash tells nodes
    apart. -/
def Gains (overlay overlay' : SparseNodeOverlay) (t : Option SparseTrie) : Prop :=
  ∀ trees, CollisionFree trees → OptNodeOf trees t →
    (∀ s, NodeOf trees s → Shows overlay.get s → Shows overlay'.get s) ∧ OptHolds overlay'.get t

/-- **Building the tree of sorted entries.** -/
theorem sparseBuildRootFromOrderedEntries_spec :
    ∀ (k : Nat) (entries : List SparseLeafEntry) (overlay : SparseNodeOverlay), entries.length ≤ k →
      Ascending path entries →
      ∃ t overlay', sparseBuildRootFromOrderedEntries entries overlay = .ok (optRoot t, overlay')
        ∧ Trie.OptCanonical t ∧ Trie.optEntries t = leafPairs entries
        ∧ Gains overlay overlay' t := by
  intro k
  induction k with
  | zero =>
    intro entries overlay hlen _
    rw [length_eq_zero_iff.mp (Nat.le_zero.mp hlen)]
    exact ⟨none, overlay, by unfold sparseBuildRootFromOrderedEntries; rfl,
      fun u hu => absurd hu (by simp), rfl,
      fun _ _ _ => ⟨fun s _ h => h, fun u hu => absurd hu (by simp)⟩⟩
  | succ k ih =>
    intro entries overlay _ hasc
    match entries with
    | [] =>
      simp_all
    | [entry] =>
      refine ⟨some (.leaf entry.path entry.leafHash), _,
        by unfold sparseBuildRootFromOrderedEntries; rfl, fun u hu => Option.some.inj hu ▸ trivial,
        rfl, fun trees hfree hleaf => ⟨fun s hs h => h.put hfree hs (hleaf _ rfl), fun u hu => ?_⟩⟩
      cases hu
      rintro s rfl
      exact shows_put overlay _
    | first :: second :: rest =>
      obtain ⟨hn, hbefore_ne, hafter_ne, hbefore, hafter⟩ := split_ascending hasc
      unfold sparseBuildRootFromOrderedEntries
      unfold sparseCommonPrefixBits sparseNormalizePrefix
      dsimp only
      rw [if_neg (not_le.mpr hn), dif_neg hafter_ne, dif_neg hbefore_ne]
      generalize hnbits : commonBits first.path
        ((second :: rest).getLast (cons_ne_nil _ _)).path = n at *
      have happend := takeWhile_append_dropWhile
        (p := fun entry : SparseLeafEntry => !sparseBit entry.path n)
        (l := first :: second :: rest)
      generalize hb : (first :: second :: rest).takeWhile
        (fun entry => !sparseBit entry.path n) = before at *
      generalize ha : (first :: second :: rest).dropWhile
        (fun entry => !sparseBit entry.path n) = after at *
      have hlens : before.length ≤ k ∧ after.length ≤ k := by
        have hsum := congrArg List.length happend
        rw [length_append] at hsum
        have hbpos := length_pos_iff.mpr hbefore_ne
        have hapos := length_pos_iff.mpr hafter_ne
        omega
      have hpairs : leafPairs before ++ leafPairs after = leafPairs (first :: second :: rest) := by
        rw [← happend]
        exact (map_append ..).symm
      have hascs : Ascending path before
          ∧ Ascending path after := by
        have hasc' := hasc
        unfold Ascending at hasc' ⊢
        rw [← happend, pairwise_append] at hasc'
        exact ⟨hasc'.1, hasc'.2.1⟩
      obtain ⟨l, overlay₁, hcall₁, hl, hle, hgains₁⟩ := ih before overlay hlens.1 hascs.1
      obtain ⟨r, overlay₂, hcall₂, hr, hre, hgains₂⟩ := ih after overlay₁ hlens.2 hascs.2
      rw [hcall₁, bind_ok, hcall₂, bind_ok]
      obtain ⟨l, rfl⟩ : ∃ u, l = some u := by
        cases l with
        | some u => exact ⟨u, rfl⟩
        | none => exact absurd (map_eq_nil_iff.mp hle.symm) hbefore_ne
      obtain ⟨r, rfl⟩ : ∃ u, r = some u := by
        cases r with
        | some u => exact ⟨u, rfl⟩
        | none => exact absurd (map_eq_nil_iff.mp hre.symm) hafter_ne
      have hle' : l.entries = leafPairs before := hle
      have hre' : r.entries = leafPairs after := hre
      have hcanonical : (Trie.branch n (keepBits first.path n) l r).Canonical := by
        refine ⟨hn, keepBits_keepBits _ _, hl l rfl, hr r rfl, ?_, ?_⟩
        · intro e he
          rw [hle'] at he
          obtain ⟨entry, hentry, rfl⟩ := mem_map.mp he
          grind [agree_keepBits, Agree]
        · intro e he
          rw [hre'] at he
          obtain ⟨entry, hentry, rfl⟩ := mem_map.mp he
          exact ⟨(hafter entry hentry).1.trans (agree_keepBits _ _).symm, (hafter entry hentry).2⟩
      refine ⟨some (.branch n (keepBits first.path n) l r), _, rfl,
        fun u hu => Option.some.inj hu ▸ hcanonical, ?_, fun trees hfree hnode => ?_⟩
      · rw [← hpairs, ← hle', ← hre']
        rfl
      have ht := hnode _ rfl
      obtain ⟨hframe₁, hholds₁⟩ := hgains₁ trees hfree fun u hu => Option.some.inj hu ▸ ht.left
      obtain ⟨hframe₂, hholds₂⟩ := hgains₂ trees hfree fun u hu => Option.some.inj hu ▸ ht.right
      refine ⟨?_, ?_⟩
      · intro s hs hshow
        exact (hframe₂ s hs (hframe₁ s hs hshow)).put hfree hs ht
      · intro u hu
        cases hu
        refine .branch (shows_put overlay₂ _) ?_ ?_
        · intro s hs
          exact (hframe₂ s (ht.left.sub hs) (hholds₁ l rfl s hs)).put hfree (ht.left.sub hs) ht
        · intro s hs
          exact (hholds₂ r rfl s hs).put hfree (ht.right.sub hs) ht

section
omit [Crypto]

variable {entries : List SparseLeafEntry}

theorem adjacentPaths_of_ascending
    (h : Ascending path entries) : adjacentPaths entries = false := by
  induction entries with
  | nil => rfl
  | cons a rest ih =>
    cases rest with
    | nil => rfl
    | cons b rest =>
      have hlt := (pairwise_cons.mp h).1 b mem_cons_self
      have hne : a.path ≠ b.path := by
        intro heq
        rw [heq] at hlt
        exact lt_irrefl _ hlt
      unfold adjacentPaths
      rw [decide_eq_false hne, ih (pairwise_cons.mp h).2]
      rfl

end

/-- **The tree of a map, from scratch.** -/
theorem sparseComputeRootFromEntries_spec (hnd : DistinctEntries entries) :
    ∃ t overlay, sparseComputeRootFromEntries entries = .ok (optRoot t, overlay)
      ∧ Trie.OptCanonical t ∧ Spells t (leafMap entries) ∧ Gains ∅ overlay t := by
  have hperm := perm_insertionSort (pathOrder path leafKey) entries
  have hasc : Ascending path (entries.insertionSort (pathOrder path leafKey)) :=
    ascending_insertionSort hnd
  have hpairs := hperm.map fun entry => (entry.path, entry.leafHash)
  obtain ⟨t, overlay, hcall, hcanonical, hentries, hgains⟩ :=
    sparseBuildRootFromOrderedEntries_spec _ _ ∅ (le_refl _) hasc
  refine ⟨t, overlay, ?_, hcanonical, ?_, hgains⟩
  · unfold sparseComputeRootFromEntries
    dsimp only
    rw [adjacentPaths_of_ascending hasc, if_neg (by decide), hcall]
  · intro path v
    rw [hentries, leafMap_eq_some hnd]
    exact hpairs.mem_iff

/-! ## Histories -/

/-- The column family holds the tree that the entries build, and `root` is its root. -/
def StoredTree (cf : NodeCf) (root : Hash) (entries : List SparseLeafEntry) : Prop :=
  ∃ overlay, sparseComputeRootFromEntries entries = .ok (root, overlay)
    ∧ ∀ hash data, overlay.get hash = some data → cf.nodes.get hash = some data

theorem StoredTree.keeps (hfree : CollisionFree trees) (h : StoredTree cf root entries)
    (hnd : DistinctEntries entries) (hin : ∀ u, Spells (some u) (leafMap entries) → u ∈ trees) :
    ∃ t, KeepsTree trees cf root (leafMap entries) t := by
  obtain ⟨overlay, hcall, hsub⟩ := h
  obtain ⟨t, overlay', hcall', hcanonical, hspells, hgains⟩ := sparseComputeRootFromEntries_spec hnd
  rw [hcall, Except.ok.injEq, Prod.mk.injEq] at hcall'
  obtain ⟨hroot, rfl⟩ := hcall'
  have hnode : OptNodeOf trees t := .of_spells hin hcanonical hspells
  exact ⟨t, hroot, hnode, hspells, fun u hu s hs => hsub _ _ ((hgains trees hfree hnode).2 u hu s hs)⟩

/-- A map and the change sets made to it, each without a path twice. -/
structure History where
  entries : List SparseLeafEntry
  changeSets : List (List SparseLeafChange)
  entries_distinct : DistinctEntries entries
  changes_distinct : ∀ changes ∈ changeSets, DistinctChanges changes

namespace History

/-- The map after the first `j` change sets. -/
def mapAt (a : History) (j : Nat) : LeafMap :=
  (a.changeSets.take j).foldl mapAfter (leafMap a.entries)

/-- Every tree the history goes through. -/
def allTrees (a : History) : Set SparseTrie :=
  {t | ∃ j, t ∈ updateTrees (a.mapAt j) (a.mapAt (j + 1))}

/-- The map in the end. -/
def final (a : History) : LeafMap :=
  a.changeSets.foldl mapAfter (leafMap a.entries)

/-- The change sets applied one after the other to a stored tree. -/
def run (a : History) (cf : NodeCf) (root : Hash) : Except String (NodeCf × Hash) :=
  tryFold (fun state changes => applyChangeSet state.1 state.2 changes) (cf, root) a.changeSets

end History

/-- **A run of change sets** keeps the tree of the changing map. -/
theorem KeepsTree.run (hfree : CollisionFree trees) :
    ∀ {cf : NodeCf} {root : Hash} {m : LeafMap} {t : Option SparseTrie},
      KeepsTree trees cf root m t → (∀ changes ∈ changeSets, DistinctChanges changes) →
      (∀ j, updateTrees ((changeSets.take j).foldl mapAfter m)
        ((changeSets.take (j + 1)).foldl mapAfter m) ⊆ trees) →
      ∃ cf' root' t',
        tryFold (fun state changes => applyChangeSet state.1 state.2 changes) (cf, root) changeSets
            = .ok (cf', root')
          ∧ KeepsTree trees cf' root' (changeSets.foldl mapAfter m) t' := by
  induction changeSets with
  | nil =>
    intro cf root m t h _ _
    exact ⟨cf, root, t, rfl, h⟩
  | cons changes changeSets ih =>
    intro cf root m t h hnd hin
    obtain ⟨cf₁, root₁, t₁, hcall, h₁⟩ := h.changes hfree (hnd changes mem_cons_self) (hin 0)
    obtain ⟨cf', root', t', hrest, h'⟩ := ih h₁ (fun c hc => hnd c (mem_cons_of_mem _ hc))
      fun j => hin (j + 1)
    exact ⟨cf', root', t', tryFold_cons_eq_ok.mpr ⟨_, hcall, hrest⟩, h'⟩

/-- One history, with any trees that contain its own. -/
theorem History.keeps (a : History) (hfree : CollisionFree trees) (hsub : a.allTrees ⊆ trees)
    (h : StoredTree cf root a.entries) :
    ∃ cf' root' t', a.run cf root = .ok (cf', root') ∧ KeepsTree trees cf' root' a.final t' := by
  obtain ⟨t, hkeeps⟩ := h.keeps hfree a.entries_distinct fun u hu => hsub ⟨0, 0, hu⟩
  exact hkeeps.run hfree a.changes_distinct fun j u hu => hsub ⟨j, hu⟩

/-- **The sparse state tree is history independent.**  Two histories that end in one map end in one
    root, and it is the root computed from scratch for that map. -/
theorem sparse_history_independent (a b : History) (cfa cfb : NodeCf) (roota rootb : Hash)
    (hfree : CollisionFree (a.allTrees ∪ b.allTrees)) (ha : StoredTree cfa roota a.entries)
    (hb : StoredTree cfb rootb b.entries) (hfinal : a.final = b.final)
    (fresh : List SparseLeafEntry) (hfresh : DistinctEntries fresh)
    (hmap : leafMap fresh = a.final) :
    ∃ root cfa' cfb' overlay, a.run cfa roota = .ok (cfa', root) ∧ b.run cfb rootb = .ok (cfb', root)
      ∧ sparseComputeRootFromEntries fresh = .ok (root, overlay) := by
  obtain ⟨cfa', root, t, hruna, hkeepa⟩ := a.keeps hfree Set.subset_union_left ha
  obtain ⟨cfb', root', t', hrunb, hkeepb⟩ := b.keeps hfree Set.subset_union_right hb
  obtain ⟨u, overlay, hcall, hcanonical, hspells, -⟩ := sparseComputeRootFromEntries_spec hfresh
  rw [hmap] at hspells
  have hta := hkeepa.spells.unique hspells hkeepa.isNode.canonical hcanonical
  have htb := hkeepb.spells.unique (hfinal ▸ hspells) hkeepb.isNode.canonical hcanonical
  refine ⟨root, cfa', cfb', overlay, hruna, ?_, ?_⟩
  · rw [hrunb, hkeepb.root_eq, htb, ← hta, ← hkeepa.root_eq]
  · rw [hcall, ← hta, ← hkeepa.root_eq]

end

/-! ### Two short histories -/

/-- A hash that tells the nodes over two leaves apart: the length and the second byte. -/
@[reducible] def lengthHash : Crypto :=
  { Crypto.plain with
    hash := fun bytes => ⟨BitVec.ofNat 256 (256 * bytes.length + (bytes.getD 1 0).toNat)⟩ }

/-- The leaf at the path of zeros. -/
def lowLeaf : SparseLeafEntry := ⟨[], 0, ⟨7⟩⟩

/-- A leaf at a path that starts with a set bit. -/
def highLeaf : SparseLeafEntry := ⟨[], BitVec.ofNat 256 (2 ^ 255), ⟨8⟩⟩

def lowTree : SparseTrie := .leaf lowLeaf.path lowLeaf.leafHash

def highTree : SparseTrie := .leaf highLeaf.path highLeaf.leafHash

/-- An entry of the two leaves. -/
def LowOrHigh (e : BitVec 256 × Hash) : Prop :=
  e = (lowLeaf.path, lowLeaf.leafHash) ∨ e = (highLeaf.path, highLeaf.leafHash)

/-- The high leaf is inserted beside the low one, which is then deleted. -/
def insertDelete : History where
  entries := [lowLeaf]
  changeSets := [[⟨[], highLeaf.path, some highLeaf.leafHash⟩], [⟨[], lowLeaf.path, none⟩]]
  entries_distinct := by decide
  changes_distinct := by decide

/-- The high leaf is inserted into the empty tree. -/
def insertOnly : History where
  entries := []
  changeSets := [[⟨[], highLeaf.path, some highLeaf.leafHash⟩]]
  entries_distinct := by decide
  changes_distinct := by decide

/-- The two histories never have other leaves. -/
theorem leaf_of_mapAt (h : insertDelete.mapAt j p = some v ∨ insertOnly.mapAt j p = some v) :
    LowOrHigh (p, v) := by
  unfold History.mapAt at h
  rcases j with _ | _ | j
  all_goals
    simp only [insertDelete, insertOnly, take_zero, take_succ_cons, take_nil, foldl_cons, foldl_nil,
      mapAfter, leafMap, find?_cons, find?_nil] at h
    grind [LowOrHigh]

section
variable {trees : Set SparseTrie} (htrees : ∀ t ∈ trees, ∀ e ∈ t.entries, LowOrHigh e)
include htrees

/-- The trees over two leaves. -/
theorem nodeOf_two_leaves (h : NodeOf trees t) :
    t = lowTree ∨ t = highTree ∨ t = .branch 0 0 lowTree highTree := by
  have hmem : ∀ e ∈ t.entries, LowOrHigh e := by
    obtain ⟨whole, hin, -, hsub⟩ := h
    exact fun e he => htrees whole hin e (hsub.mem_entries he)
  have hboth : (Trie.branch 0 0 lowTree highTree : SparseTrie).Canonical := by
    refine ⟨by decide, by decide, trivial, trivial, fun e he => ?_, fun e he => ?_⟩
    · rw [Trie.mem_entries_leaf.mp he]
      exact ⟨fun i hi => absurd hi (Nat.not_lt_zero i), by decide⟩
    · rw [Trie.mem_entries_leaf.mp he]
      exact ⟨fun i hi => absurd hi (Nat.not_lt_zero i), by decide⟩
  by_cases hlow : (lowLeaf.path, lowLeaf.leafHash) ∈ t.entries
  · by_cases hhigh : (highLeaf.path, highLeaf.leafHash) ∈ t.entries
    · refine .inr (.inr (h.canonical.eq_of_entries hboth fun e => ?_))
      rw [Trie.mem_entries_branch, lowTree, highTree, Trie.mem_entries_leaf, Trie.mem_entries_leaf]
      constructor
      · exact hmem e
      · rintro (rfl | rfl)
        · exact hlow
        · exact hhigh
    · refine .inl (h.canonical.eq_leaf (e := (lowLeaf.path, lowLeaf.leafHash)) fun e he => ?_)
      exact (hmem e he).resolve_right fun hh => hhigh (hh ▸ he)
  · refine .inr (.inl (h.canonical.eq_leaf (e := (highLeaf.path, highLeaf.leafHash)) fun e he => ?_))
    exact (hmem e he).resolve_left fun hl => hlow (hl ▸ he)

theorem collisionFree_lengthHash : @CollisionFree lengthHash trees := by
  let _ := lengthHash
  refine ⟨fun s t hs ht h => ?_, fun t ht => ?_⟩
  · rcases nodeOf_two_leaves htrees hs with rfl | rfl | rfl <;>
      rcases nodeOf_two_leaves htrees ht with rfl | rfl | rfl <;>
      first | rfl | exact absurd h (by decide)
  · rcases nodeOf_two_leaves htrees ht with rfl | rfl | rfl <;> decide

end

/-- A column family with the node of the low leaf. -/
def lowStore : NodeCf :=
  ⟨"account_merkle_nodes",
    (@sparsePutOverlayNode lengthHash ∅ (.leaf lowLeaf.path lowLeaf.leafHash)).2⟩

theorem storedTree_lowLeaf :
    @StoredTree lengthHash lowStore (@rootHash lengthHash lowTree)
      [lowLeaf] := by
  let _ := lengthHash
  refine ⟨_, ?_, fun hash data h => h⟩
  exact sparseBuildRootFromOrderedEntries.eq_def [lowLeaf] ∅

theorem storedTree_nil : @StoredTree lengthHash ⟨"account_merkle_nodes", ∅⟩ Hash.zero [] := by
  let _ := lengthHash
  refine ⟨∅, ?_, fun hash data h => h⟩
  exact sparseBuildRootFromOrderedEntries.eq_def [] ∅

theorem sparse_history_independent_insertDelete :
    letI := lengthHash
    ∃ root cfa' cfb' overlay,
      insertDelete.run lowStore (rootHash lowTree) = .ok (cfa', root)
        ∧ insertOnly.run ⟨"account_merkle_nodes", ∅⟩ Hash.zero = .ok (cfb', root)
        ∧ sparseComputeRootFromEntries [highLeaf] = .ok (root, overlay) := by
  let _ := lengthHash
  have hfinal : ∀ path, insertDelete.final path = leafMap [highLeaf] path := by
    intro path
    by_cases hlow : lowLeaf.path = path <;> by_cases hhigh : highLeaf.path = path <;>
      simp [History.final, insertDelete, mapAfter, leafMap, hlow, hhigh]
    exact absurd (hlow.trans hhigh.symm) (by decide)
  have hfinal' : ∀ path, insertOnly.final path = leafMap [highLeaf] path := by
    intro path
    by_cases hhigh : highLeaf.path = path <;>
      simp [History.final, insertOnly, mapAfter, leafMap, hhigh]
  refine sparse_history_independent insertDelete insertOnly _ _ _ _
    (collisionFree_lengthHash ?_) storedTree_lowLeaf storedTree_nil
    (funext fun path => (hfinal path).trans (hfinal' path).symm) [highLeaf] (by decide)
    (funext fun path => (hfinal path).symm)
  rintro t (⟨j, ht⟩ | ⟨j, ht⟩)
  · exact leaf_of_updateTrees ht (fun _ _ h => leaf_of_mapAt (.inl h))
      fun _ _ h => leaf_of_mapAt (.inl h)
  · exact leaf_of_updateTrees ht (fun _ _ h => leaf_of_mapAt (.inr h))
      fun _ _ h => leaf_of_mapAt (.inr h)

end Lichen.State
