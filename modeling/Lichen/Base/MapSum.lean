/-
  Iterating a finite map and summing over it.

  `toList` is what a `for (k, v) in &map` loop goes through.  A sum over a map does not depend on
  the order of iteration, so it is stated by what an update adds and what it replaces: writing `v`
  at `k` changes the sum by `f k v` less the share of what stood at `k` before.
-/
import Mathlib.Algebra.BigOperators.Ring.List
import Mathlib.Algebra.Order.BigOperators.Group.List
import Mathlib.Algebra.Order.Ring.Int
import Mathlib.Algebra.Order.Ring.Nat
import Lichen.Base.HashMap

namespace Base
open List
namespace HashMap
variable {V W : Type} [DecidableEq K]

/-- The entries in iteration order. -/
def toList (m : HashMap K V) : List (K × V) := m.entries.map fun s => (s.1, s.2)

/-- `len`. -/
def size (m : HashMap K V) : Nat := m.toList.length

/-- `is_empty`. -/
def isEmpty (m : HashMap K V) : Bool := m.toList.isEmpty

/-- The entries of `later` over those of `earlier`. -/
def overlay (earlier later : HashMap K V) : HashMap K V :=
  later.toList.foldl (fun m e => m.put e.1 e.2) earlier

section
variable (m : HashMap K V)

/-- A map with some values replaced and some entries deleted. -/
def edit (edits : HashMap K (Option V)) : HashMap K V :=
  edits.toList.foldl
    (fun m e =>
      match e.2 with
      | some v => m.put e.1 v
      | none => m.remove e.1)
    m

/-- `values().map(f).sum()`, over the entries. -/
def sumBy (f : K → V → Nat) : Nat := (m.toList.map fun e => f e.1 e.2).sum

/-- What `k` contributes to such a sum. -/
def share (f : K → V → Nat) (k : K) : Nat := ((m.get k).map (f k)).getD 0

/-- The map of all `f k v`. -/
def mapValues (f : K → V → W) : HashMap K W :=
  ⟨m.entries.map fun s => ⟨s.1, f s.1 s.2⟩, by
    have h := m.nodupKeys
    rw [List.NodupKeys, List.keys] at h ⊢
    rw [List.map_map]
    exact h⟩

/-- `retain`. -/
def retain (p : K → V → Bool) : HashMap K V :=
  ⟨m.entries.filter fun s => p s.1 s.2, m.nodupKeys.sublist List.filter_sublist⟩

end

/-! ## Entries -/

variable {m : HashMap K V} {k : K}

@[grind =] theorem mem_toList : (k, v) ∈ m.toList ↔ m.get k = some v := by
  unfold toList
  rw [mem_map]
  constructor
  · rintro ⟨s, hs, heq⟩
    cases heq
    exact (mem_dlookup_iff m.nodupKeys).mpr hs
  · intro h
    exact ⟨⟨k, v⟩, (mem_dlookup_iff m.nodupKeys).mp h, rfl⟩

theorem forall_mem_toList {P : K × V → Prop} :
    (∀ e ∈ m.toList, P e) ↔ ∀ k v, m.get k = some v → P (k, v) := by
  grind

section
omit [DecidableEq K]

theorem toList_map_fst (m : HashMap K V) : m.toList.map Prod.fst = m.keys := by
  unfold toList
  rw [map_map]
  rfl

theorem toList_nodup (m : HashMap K V) : m.toList.Nodup := by
  refine List.Nodup.of_map Prod.fst ?_
  rw [toList_map_fst]
  exact m.keys_nodup

@[simp] theorem toList_empty : (∅ : HashMap K V).toList = [] := rfl

end

theorem isEmpty_iff : m.isEmpty = true ↔ ∀ k, m.get k = none := by
  unfold isEmpty
  rw [List.isEmpty_iff]
  constructor
  · intro h k
    cases hk : m.get k with
    | none => rfl
    | some v =>
      have hmem : (k, v) ∈ m.toList := mem_toList.mpr hk
      rw [h] at hmem
      exact absurd hmem not_mem_nil
  · intro h
    refine eq_nil_iff_forall_not_mem.mpr ?_
    rintro ⟨k, v⟩ he
    rw [mem_toList, h k] at he
    simp at he

theorem isEmpty_eq_false_of_get (h : m.get k = some v) : m.isEmpty = false := by
  rw [Bool.eq_false_iff]
  intro hm
  rw [isEmpty_iff.mp hm k] at h
  simp at h

/-- Two maps that answer every lookup alike hold the same entries. -/
theorem toList_perm_of_get {n : HashMap K V} (h : ∀ k, m.get k = n.get k) :
    m.toList.Perm n.toList := by
  refine (perm_ext_iff_of_nodup m.toList_nodup n.toList_nodup).mpr ?_
  rintro ⟨k, v⟩
  rw [mem_toList, mem_toList, h k]

@[grind =] theorem get_mapValues (m : HashMap K V) (f : K → V → W) (k : K) :
    (m.mapValues f).get k = (m.get k).map (f k) := by
  cases hk : m.get k with
  | some v =>
    have hmem : (k, v) ∈ m.toList := mem_toList.mpr hk
    have hin : (k, f k v) ∈ (m.mapValues f).toList := by
      unfold toList mapValues at *
      simp only [map_map, mem_map, Function.comp_apply] at hmem ⊢
      obtain ⟨s, hs, heq⟩ := hmem
      cases heq
      exact ⟨s, hs, rfl⟩
    exact mem_toList.mp hin
  | none =>
    cases hf : (m.mapValues f).get k with
    | none => rfl
    | some w =>
      have hmem : (k, w) ∈ (m.mapValues f).toList := mem_toList.mpr hf
      unfold toList mapValues at hmem
      simp only [map_map, mem_map, Function.comp_apply] at hmem
      obtain ⟨s, hs, heq⟩ := hmem
      have hk' : s.1 = k := (Prod.mk.inj heq).1
      have hget : m.get s.1 = some s.2 := mem_toList.mp (mem_map.mpr ⟨s, hs, rfl⟩)
      rw [hk', hk] at hget
      simp at hget

@[grind =] theorem get_retain (m : HashMap K V) (p : K → V → Bool) (k : K) :
    (m.retain p).get k = (m.get k).filter (p k) := by
  have hmem : ∀ v, (m.retain p).get k = some v ↔ m.get k = some v ∧ p k v = true := by
    intro v
    rw [← mem_toList, ← mem_toList]
    unfold toList retain
    simp only [mem_map, mem_filter]
    constructor
    · rintro ⟨s, ⟨hs, hp⟩, heq⟩
      cases heq
      exact ⟨⟨s, hs, rfl⟩, hp⟩
    · rintro ⟨⟨s, hs, heq⟩, hp⟩
      cases heq
      exact ⟨s, ⟨hs, hp⟩, rfl⟩
  refine Option.ext fun v => ?_
  rw [hmem, Option.filter_eq_some_iff]

/-! ## Sums -/

theorem share_of_get (h : m.get k = some v) : m.share f k = f k v := by
  unfold share
  rw [h]
  rfl

theorem share_of_none (h : m.get k = none) : m.share f k = 0 := by
  unfold share
  rw [h]
  rfl

omit [DecidableEq K] in
@[simp] theorem sumBy_empty (f : K → V → Nat) : (∅ : HashMap K V).sumBy f = 0 := rfl

theorem sumBy_congr_get {n : HashMap K V} (h : ∀ k, m.get k = n.get k) : m.sumBy f = n.sumBy f :=
  ((toList_perm_of_get h).map _).sum_eq

theorem sumBy_congr (h : ∀ k v, m.get k = some v → f k v = g k v) : m.sumBy f = m.sumBy g := by
  unfold sumBy
  congr 1
  refine map_congr_left ?_
  rintro ⟨k, v⟩ he
  exact h k v (mem_toList.mp he)

/-- Removing a key takes its share out. -/
theorem sumBy_remove (m : HashMap K V) (f : K → V → Nat) (k : K) :
    (m.remove k).sumBy f + m.share f k = m.sumBy f := by
  cases hk : m.get k with
  | none =>
    grind [share_of_none, sumBy_congr_get]
  | some v =>
    rw [share_of_get hk]
    have hmem : k ∈ m.entries.keys := mem_keys_of_get hk
    obtain ⟨b, l₁, l₂, -, heq, her⟩ := exists_of_kerase hmem
    have hb : b = v := by
      have hin : (k, b) ∈ m.toList := by
        unfold toList
        rw [heq]
        simp
      rw [mem_toList, hk] at hin
      exact (Option.some.inj hin).symm
    subst hb
    have hentries : (m.remove k).entries = l₁ ++ l₂ := her
    grind [sumBy, toList]

theorem get_remove_self (m : HashMap K V) (k : K) : (m.remove k).get k = none := by
  rw [get_remove, if_pos rfl]

theorem get_remove_ne (m : HashMap K V) (h : k' ≠ k) : (m.remove k).get k' = m.get k' := by
  rw [get_remove, if_neg h]

theorem remove_of_none (h : m.get k = none) : m.remove k = m := by
  have hk : k ∉ AList.keys m := (not_mem_keys_iff m k).mpr h
  exact AList.ext (kerase_of_notMem_keys hk)

theorem sumBy_put_of_none (f : K → V → Nat) (v : V)
    (h : m.get k = none) : (m.put k v).sumBy f = f k v + m.sumBy f := by
  have hk : k ∉ m.entries.keys := (not_mem_keys_iff m k).mpr h
  have hentries : (m.put k v).entries = ⟨k, v⟩ :: m.entries := AList.entries_insert_of_notMem hk
  unfold sumBy toList
  rw [hentries]
  simp

/-- Writing a key adds its new share in place of the old one. -/
theorem sumBy_put (m : HashMap K V) (f : K → V → Nat) (k : K) (v : V) :
    (m.put k v).sumBy f + m.share f k = m.sumBy f + f k v := by
  have hput : (m.put k v).sumBy f = ((m.remove k).put k v).sumBy f := by
    refine sumBy_congr_get fun k' => ?_
    rw [get_put, get_put, get_remove]
    split <;> rfl
  rw [hput, sumBy_put_of_none f v (get_remove_self m k), ← sumBy_remove m f k]
  omega

theorem share_le_sumBy (m : HashMap K V) (f : K → V → Nat) (k : K) : m.share f k ≤ m.sumBy f := by
  have h := sumBy_remove m f k
  omega

theorem le_sumBy_of_get (f : K → V → Nat) (h : m.get k = some v) : f k v ≤ m.sumBy f := by
  rw [← share_of_get (f := f) h]
  exact share_le_sumBy m f k

theorem sumBy_le_sumBy (h : ∀ k v, m.get k = some v → f k v ≤ g k v) : m.sumBy f ≤ m.sumBy g := by
  refine sum_le_sum ?_
  rintro ⟨k, v⟩ he
  exact h k v (mem_toList.mp he)

section
omit [DecidableEq K]

theorem sumBy_add (m : HashMap K V) (f g : K → V → Nat) :
    m.sumBy (fun k v => f k v + g k v) = m.sumBy f + m.sumBy g := by
  exact sum_map_add

theorem sumBy_mul (m : HashMap K V) (f : K → V → Nat) (c : Nat) :
    m.sumBy (fun k v => f k v * c) = m.sumBy f * c := by
  exact sum_map_mul_right m.toList (fun e => f e.1 e.2) c

theorem sumBy_mapValues (m : HashMap K V) (f : K → V → W) (g : K → W → Nat) :
    (m.mapValues f).sumBy g = m.sumBy fun k v => g k (f k v) := by
  unfold sumBy toList mapValues
  simp only [map_map]
  rfl

end

variable {l : List K}

/-- Distinct keys take no more than the whole sum. -/
theorem sum_share_le (f : K → V → Nat) (hl : l.Nodup) (m : HashMap K V) :
    (l.map (m.share f)).sum ≤ m.sumBy f := by
  induction l generalizing m with
  | nil => exact Nat.zero_le _
  | cons k l ih =>
    obtain ⟨hk, hl⟩ := nodup_cons.mp hl
    have hrest : l.map (m.share f) = l.map ((m.remove k).share f) := by
      refine map_congr_left fun k' hk' => ?_
      have hne : k' ≠ k := fun heq => hk (heq ▸ hk')
      unfold share
      rw [get_remove_ne m hne]
    grind [sumBy_remove]

/-- Distinct keys that leave nothing out take the whole sum. -/
theorem sum_share_eq (f : K → V → Nat) (hl : l.Nodup) (m : HashMap K V)
    (hout : ∀ k, k ∉ l → m.share f k = 0) : (l.map (m.share f)).sum = m.sumBy f := by
  induction l generalizing m with
  | nil =>
    have hzero : m.sumBy f = m.sumBy fun _ _ => 0 := sumBy_congr fun k v hv => by
        rw [← share_of_get (f := f) hv]
        exact hout k not_mem_nil
    rw [hzero]
    simp [sumBy]
  | cons k l ih =>
    obtain ⟨hk, hl⟩ := nodup_cons.mp hl
    have hshare : ∀ k', k' ≠ k → (m.remove k).share f k' = m.share f k' := by
      intro k' hne
      unfold share
      rw [get_remove_ne m hne]
    have hrest : l.map (m.share f) = l.map ((m.remove k).share f) :=
      map_congr_left fun k' hk' => (hshare k' fun heq => hk (heq ▸ hk')).symm
    grind [share_of_none, sumBy_remove]

theorem sumBy_share_le (m : HashMap K V) (f : K → V → Nat) (n : HashMap K W) :
    n.sumBy (fun k _ => m.share f k) ≤ m.sumBy f := by
  have hsum : n.sumBy (fun k _ => m.share f k) = (n.keys.map (m.share f)).sum := by
    rw [← toList_map_fst, map_map]
    rfl
  rw [hsum]
  exact sum_share_le f n.keys_nodup m

theorem sumBy_eq_share (m : HashMap K V) (f : K → V → Nat) :
    m.sumBy f = m.sumBy fun k _ => m.share f k :=
  sumBy_congr fun _ _ hv => (share_of_get hv).symm

/-- Two maps with the same share at every key have the same sum. -/
theorem sumBy_eq_of_share {n : HashMap K W}
    (h : ∀ k, m.share f k = n.share g k) : m.sumBy f = n.sumBy g := by
  refine le_antisymm ?_ ?_
  · rw [sumBy_eq_share m f]
    simp only [h]
    exact sumBy_share_le n g m
  · rw [sumBy_eq_share n g]
    simp only [← h]
    exact sumBy_share_le m f n

section
variable (hl : l.Nodup) (h : ∀ k, (m.get k).isSome = true ↔ k ∈ l)
include hl h

/-- A map whose keys are those of a list. -/
theorem keys_perm : m.keys.Perm l :=
  (perm_ext_iff_of_nodup m.keys_nodup hl).mpr fun k => (m.mem_keys_iff k).trans (h k)

theorem sumBy_of_keys (f : K → Nat) : m.sumBy (fun k _ => f k) = (l.map f).sum := by
  have hsum : m.sumBy (fun k _ => f k) = (m.keys.map f).sum := by
    rw [← toList_map_fst, map_map]
    rfl
  rw [hsum]
  exact ((keys_perm hl h).map f).sum_eq

theorem size_of_keys : m.size = l.length := by
  rw [← (keys_perm hl h).length_eq, ← toList_map_fst, length_map]
  rfl

end

theorem size_le_of_keys (h : ∀ k v, m.get k = some v → k ∈ l) : m.size ≤ l.length := by
  have hsub : m.keys ⊆ l := by
    intro k hk
    obtain ⟨v, hv⟩ := Option.isSome_iff_exists.mp ((m.mem_keys_iff k).mp hk)
    exact h k v hv
  have hle := (subperm_of_subset m.keys_nodup hsub).length_le
  rwa [← toList_map_fst, length_map] at hle

omit [DecidableEq K] in
theorem size_eq_sumBy (m : HashMap K V) : m.size = m.sumBy fun _ _ => 1 := by
  simp [size, sumBy]

/-- Two weights that differ at one key only. -/
theorem sumBy_update (m : HashMap K V) (h : ∀ k' v, k' ≠ k → f k' v = g k' v) :
    m.sumBy f + m.share g k = m.sumBy g + m.share f k := by
  have hrest : (m.remove k).sumBy f = (m.remove k).sumBy g := by
    refine sumBy_congr fun k' v hv => h k' v ?_
    rintro rfl
    rw [get_remove_self] at hv
    simp at hv
  have hf := sumBy_remove m f k
  have hg := sumBy_remove m g k
  omega

/-- The sum of signed values. -/
def total (m : HashMap K Int) : Int := (m.toList.map Prod.snd).sum

omit [DecidableEq K] in
/-- The positive values less the negative ones. -/
theorem total_eq_sub (m : HashMap K Int) :
    m.total = (m.sumBy fun _ v => v.toNat : Nat) - (m.sumBy fun _ v => (-v).toNat : Nat) := by
  unfold total sumBy
  induction m.toList with
  | nil => rfl
  | cons e l ih =>
    simp only [map_cons, sum_cons, ih]
    omega

theorem total_put (m : HashMap K Int) (k : K) (v : Int) :
    (m.put k v).total + (m.get k).getD 0 = m.total + v := by
  have hpos := sumBy_put m (fun _ v => v.toNat) k v
  have hneg := sumBy_put m (fun _ v => (-v).toNat) k v
  rw [total_eq_sub, total_eq_sub]
  unfold share at hpos hneg
  cases hk : m.get k <;> grind

theorem put_put (m : HashMap K V) (k : K) (v v' : V) : (m.put k v).put k v' = m.put k v' :=
  AList.insert_insert m

end HashMap
end Base
