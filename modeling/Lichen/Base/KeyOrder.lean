/-
  Maps read in the order of their keys, as a sorted column family is.

  `inOrder bytes m` lists the entries by the bytes of their keys.  The list depends on the map
  only (`inOrder_congr`), and merging a sorted list of changes into it, as an iterator would, is
  reading the changed map in order (`mergeChanges_eq`).
-/
import Lichen.Base.MapSum
import Mathlib.Data.List.Sort

namespace Base
open HashMap
variable {K V : Type} {bytes : K → List UInt8}

/-- Entries by ascending key. -/
def keyOrder {X : Type} (bytes : K → List UInt8) (a b : K × X) : Prop := bytes a.1 ≤ bytes b.1

instance {X : Type} (bytes : K → List UInt8) : DecidableRel (keyOrder (X := X) bytes) :=
  fun a b => inferInstanceAs (Decidable (bytes a.1 ≤ bytes b.1))

instance {X : Type} (bytes : K → List UInt8) : Std.Total (keyOrder (X := X) bytes) where
  total a b := List.le_total (bytes a.1) (bytes b.1)

instance {X : Type} (bytes : K → List UInt8) : IsTrans (K × X) (keyOrder bytes) where
  trans _ _ _ hab hbc := List.le_trans hab hbc

/-- Keys strictly ascending. -/
def Ascends {X : Type} (bytes : K → List UInt8) (l : List (K × X)) : Prop :=
  l.Pairwise fun a b => bytes a.1 < bytes b.1

variable {X : Type}

/-- A strictly ascending list is determined by its members. -/
theorem Ascends.eq_of_mem_iff {l l' : List (K × X)} (h : Ascends bytes l)
    (h' : Ascends bytes l') (hmem : ∀ e, e ∈ l ↔ e ∈ l') : l = l' := by
  have hnd : ∀ {l : List (K × X)}, Ascends bytes l → l.Nodup := fun hl => by
    refine List.Pairwise.imp ?_ hl
    rintro a b hlt rfl
    exact List.lt_irrefl _ hlt
  refine List.Perm.eq_of_pairwise ?_ h h' ((List.perm_ext_iff_of_nodup (hnd h) (hnd h')).mpr hmem)
  intro a b _ _ hab hba
  exact absurd (List.lt_trans hab hba) (List.lt_irrefl _)

variable {l : List (K × X)}

/-- Sorting a list with distinct keys makes it ascend. -/
theorem ascends_insertionSort (hinj : Function.Injective bytes)
    (hnd : (l.map Prod.fst).Nodup) : Ascends bytes (l.insertionSort (keyOrder bytes)) := by
  have hperm := List.perm_insertionSort (keyOrder bytes) l
  have hne : (l.insertionSort (keyOrder bytes)).Pairwise fun a b => a.1 ≠ b.1 :=
    List.pairwise_map.mp ((hperm.map Prod.fst).nodup_iff.mpr hnd)
  refine ((List.pairwise_insertionSort (keyOrder bytes) l).and hne).imp fun {a b} hab => ?_
  by_contra hlt
  exact hab.2 (hinj (List.le_antisymm hab.1 (List.not_lt.mp hlt)))

variable [DecidableEq K]

namespace HashMap

/-- The entries of a map, by ascending key. -/
def inOrder (bytes : K → List UInt8) (m : HashMap K V) : List (K × V) :=
  m.toList.insertionSort (keyOrder bytes)

theorem mem_inOrder {m : HashMap K V} : e ∈ m.inOrder bytes ↔ m.get e.1 = some e.2 := by
  unfold inOrder
  rw [List.mem_insertionSort]
  exact mem_toList

section
variable (hinj : Function.Injective bytes)
include hinj

omit [DecidableEq K] in
theorem ascends_inOrder (m : HashMap K V) : Ascends bytes (m.inOrder bytes) := by
  refine ascends_insertionSort hinj ?_
  rw [toList_map_fst]
  exact keys_nodup m

/-- An ascending list with the entries of a map is that map in order. -/
theorem eq_inOrder {m : HashMap K V} {l}
    (hasc : Ascends bytes l) (hmem : ∀ e, e ∈ l ↔ m.get e.1 = some e.2) : l = m.inOrder bytes :=
  hasc.eq_of_mem_iff (ascends_inOrder hinj m) fun e => (hmem e).trans mem_inOrder.symm

theorem inOrder_congr {m n : HashMap K V}
    (h : ∀ k, m.get k = n.get k) : m.inOrder bytes = n.inOrder bytes :=
  eq_inOrder hinj (ascends_inOrder hinj m) fun e => by rw [mem_inOrder, h]

end
end HashMap

/-! ## Merging changes into an ordered scan -/

/-- The scan of `rows` with the sorted `changes` laid over it: a change takes the place of the row
    with its key, or comes before the first row with a larger one. -/
def mergeChanges (bytes : K → List UInt8) :
    List (K × Option V) → List (K × V) → List (K × V)
  | [], rows => rows
  | changes, [] => changes.filterMap fun c => c.2.map fun v => (c.1, v)
  | (k, new) :: changes, (k', v) :: rows =>
      let taken := (new.map fun v => (k, v)).toList
      if bytes k < bytes k' then taken ++ mergeChanges bytes changes ((k', v) :: rows)
      else if bytes k = bytes k' then taken ++ mergeChanges bytes changes rows
      else (k', v) :: mergeChanges bytes ((k, new) :: changes) rows
termination_by changes rows => changes.length + rows.length

omit [DecidableEq K] in
theorem mergeChanges_nil (changes : List (K × Option V)) : mergeChanges bytes changes []
    = changes.filterMap fun c => c.2.map fun v => (c.1, v) := by
  cases changes with
  | nil => rw [mergeChanges]; rfl
  | cons c changes => rw [mergeChanges]; simp

theorem mem_taken : e ∈ (new.map fun v => (k, v)).toList ↔ (e.1, some e.2) = (k, new) := by
  rw [Option.mem_toList, Option.map_eq_some_iff, Prod.mk.injEq]
  grind

section
omit [DecidableEq K]

theorem Ascends.head_lt (h : Ascends bytes ((k, x) :: l)) (he : e ∈ l) : bytes k < bytes e.1 :=
  (List.pairwise_cons.mp h).1 e he

theorem Ascends.tail (h : Ascends bytes (e :: l)) : Ascends bytes l := (List.pairwise_cons.mp h).2

/-- Everything in an ascending list is above what is below its head. -/
theorem Ascends.lt_of_lt_head (h : Ascends bytes ((k, x) :: l)) (hlt : bytes k' < bytes k)
    (he : e ∈ (k, x) :: l) : bytes k' < bytes e.1 := by
  grind [head_lt]

theorem lt_of_not_lt_of_ne (hlt : ¬ bytes k < bytes k') (hne : ¬ bytes k = bytes k') :
    bytes k' < bytes k := by
  by_contra hge
  exact hne (List.le_antisymm (List.not_lt.mp hge) (List.not_lt.mp hlt))

theorem ne_of_bytes_lt (h : bytes k < bytes k') : k ≠ k' := by
  rintro rfl
  exact List.lt_irrefl _ h

end

section
variable (hinj : Function.Injective bytes)
include hinj

section
variable (changes : List (K × Option V)) (rows : List (K × V)) (hc : Ascends bytes changes)
  (hr : Ascends bytes rows)
include hc hr

section
omit [DecidableEq K]

/-- The members of a merge: the changes, and the rows no change has the key of. -/
theorem mem_mergeChanges (e : K × V) : e ∈ mergeChanges bytes changes rows ↔
      (e.1, some e.2) ∈ changes ∨ (e ∈ rows ∧ ∀ c ∈ changes, c.1 ≠ e.1) := by
  induction changes, rows using mergeChanges.induct bytes with
  | case1 rows => simp [mergeChanges]
  | case2 changes hne =>
    rw [mergeChanges_nil, List.mem_filterMap]
    simp only [List.not_mem_nil, false_and, or_false, Option.map_eq_some_iff]
    grind
  | case3 k new changes k' v rows hlt ih =>
    rw [mergeChanges, if_pos hlt, List.mem_append, ih hc.tail hr, mem_taken,
      List.mem_cons (b := (k, new)), List.forall_mem_cons, or_assoc]
    refine or_congr_right (or_congr_right (and_congr_right fun hrow => ?_))
    have hne : k ≠ e.1 := ne_of_bytes_lt (hr.lt_of_lt_head hlt hrow)
    exact (and_iff_right hne).symm
  | case4 k new changes k' v rows hlt heq ih =>
    obtain rfl := hinj heq
    rw [mergeChanges, if_neg hlt, if_pos rfl, List.mem_append, ih hc.tail hr.tail, mem_taken,
      List.mem_cons (b := (k, new)), List.forall_mem_cons, or_assoc]
    refine or_congr_right (or_congr_right ?_)
    constructor
    · rintro ⟨hrow, hall⟩
      exact ⟨List.mem_cons_of_mem _ hrow, ne_of_bytes_lt (hr.head_lt hrow), hall⟩
    · rintro ⟨hrow, hne, hall⟩
      rcases List.mem_cons.mp hrow with rfl | hrow
      · exact absurd rfl hne
      · exact ⟨hrow, hall⟩
  | case5 k new changes k' v rows hlt hne ih =>
    have hgt := lt_of_not_lt_of_ne hlt hne
    rw [mergeChanges, if_neg hlt, if_neg hne, List.mem_cons, ih hc hr.tail,
      List.mem_cons (b := (k', v))]
    constructor
    · rintro (rfl | hmem | ⟨hrow, hall⟩)
      · exact .inr ⟨.inl rfl, fun c hmem heq =>
          ne_of_bytes_lt (hc.lt_of_lt_head hgt hmem) heq.symm⟩
      · exact .inl hmem
      · exact .inr ⟨.inr hrow, hall⟩
    · rintro (hmem | ⟨rfl | hrow, hall⟩)
      · exact .inr (.inl hmem)
      · exact .inl rfl
      · exact .inr (.inr ⟨hrow, hall⟩)

/-- A merge of ascending lists ascends. -/
theorem ascends_mergeChanges : Ascends bytes (mergeChanges bytes changes rows) := by
  -- what comes after a key is a later change or a later row
  have habove : ∀ (k : K) (changes : List (K × Option V)) (rows : List (K × V)),
      Ascends bytes changes → Ascends bytes rows → (∀ c ∈ changes, bytes k < bytes c.1) →
      (∀ r ∈ rows, bytes k < bytes r.1) →
      ∀ e ∈ mergeChanges bytes changes rows, bytes k < bytes e.1 := by
    intro k changes rows hc hr hkc hkr e he
    rcases (mem_mergeChanges hinj changes rows hc hr e).mp he with hmem | ⟨hmem, -⟩
    · exact hkc _ hmem
    · exact hkr e hmem
  have hone : ∀ (k : K) (new : Option V) (l : List (K × V)), Ascends bytes l →
      (∀ e ∈ l, bytes k < bytes e.1) → Ascends bytes ((new.map fun v => (k, v)).toList ++ l) := by
    intro k new l hl hk
    cases new with
    | none => exact hl
    | some v => exact List.pairwise_cons.mpr ⟨hk, hl⟩
  induction changes, rows using mergeChanges.induct bytes with
  | case1 rows =>
    rw [mergeChanges]
    exact hr
  | case2 changes hne =>
    rw [mergeChanges_nil]
    refine List.Pairwise.filterMap _ ?_ hc
    rintro a b hlt a' ha b' hb
    obtain ⟨v, -, rfl⟩ := Option.map_eq_some_iff.mp ha
    obtain ⟨u, -, rfl⟩ := Option.map_eq_some_iff.mp hb
    exact hlt
  | case3 k new changes k' v rows hlt ih =>
    rw [mergeChanges, if_pos hlt]
    exact hone k new _ (ih hc.tail hr) (habove k _ _ hc.tail hr (fun c => hc.head_lt)
      fun r hmem => hr.lt_of_lt_head hlt hmem)
  | case4 k new changes k' v rows hlt heq ih =>
    rw [mergeChanges, if_neg hlt, if_pos heq]
    exact hone k new _ (ih hc.tail hr.tail) (habove k _ _ hc.tail hr.tail (fun c => hc.head_lt)
      fun r hmem => heq ▸ hr.head_lt hmem)
  | case5 k new changes k' v rows hlt hne ih =>
    have hgt := lt_of_not_lt_of_ne hlt hne
    rw [mergeChanges, if_neg hlt, if_neg hne]
    exact List.pairwise_cons.mpr ⟨habove k' _ _ hc hr.tail
      (fun c hmem => hc.lt_of_lt_head hgt hmem) (fun r => hr.head_lt), ih hc hr.tail⟩

end

end

/-- **Merging changes into a map read in order** is reading the changed map in order. -/
theorem mergeChanges_eq {changes : HashMap K (Option V)} {rows : HashMap K V} (after : HashMap K V)
    (h : ∀ k, after.get k = match changes.get k with | some new => new | none => rows.get k) :
    mergeChanges bytes (changes.inOrder bytes) (rows.inOrder bytes) = after.inOrder bytes := by
  have hc := ascends_inOrder hinj changes
  have hr := ascends_inOrder hinj rows
  refine eq_inOrder hinj (ascends_mergeChanges hinj _ _ hc hr) fun e => ?_
  rw [mem_mergeChanges hinj _ _ hc hr, mem_inOrder, mem_inOrder, h]
  cases hget : changes.get e.1 with
  | some new =>
    simp only [Option.some.injEq]
    refine ⟨?_, .inl⟩
    rintro (hnew | ⟨-, hall⟩)
    · exact hnew
    · exact absurd rfl (hall (e.1, new) (mem_inOrder.mpr hget))
  | none =>
    refine ⟨?_, fun hrow => .inr ⟨hrow, ?_⟩⟩
    · rintro (hnew | ⟨hrow, -⟩)
      · simp at hnew
      · exact hrow
    · intro c hmem heq
      rw [← heq, mem_inOrder.mp hmem] at hget
      simp at hget

end
end Base
