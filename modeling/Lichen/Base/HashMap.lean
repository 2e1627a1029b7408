/-
  Finite maps with the operations of a `HashMap`, over Mathlib's association lists.

  A map is an `AList` of constant type family.  Iteration order is whatever the list happens to
  be, so nothing that must hold for every iteration order may be read off `keys` directly: the
  programs that scan a map take the order as an input (`IterOrder`).
-/
import Mathlib.Data.List.AList

namespace Base

/-- A finite map from `K` to `V`. -/
def HashMap (K V : Type) : Type := AList (fun _ : K => V)

namespace HashMap

variable {V : Type} [DecidableEq K]

instance : EmptyCollection (HashMap K V) := ⟨(∅ : AList (fun _ : K => V))⟩

instance : Inhabited (HashMap K V) := ⟨∅⟩

section
variable (m : HashMap K V) (k : K)

/-- The value stored at `k`. -/
def get : Option V := AList.lookup k m

/-- `insert`: store `v` at `k`, replacing what was there. -/
def put (v : V) : HashMap K V := AList.insert k v m

/-- `remove`: forget the key `k`. -/
def remove : HashMap K V := AList.erase k m

/-- The keys, each once, in iteration order. -/
def keys (m : HashMap K V) : List K := AList.keys m

/-- `contains_key`. -/
def containsKey : Bool := (m.get k).isSome

/-- `retain` on the keys. -/
def retainKeys (p : K → Bool) : HashMap K V :=
  ⟨m.entries.filter (fun s => p s.1), m.nodupKeys.sublist List.filter_sublist⟩

/-- `entry(k).or_default().push(x)` on a map of lists. -/
def entryPush {X : Type} (m : HashMap K (List X)) (k : K) (x : X) : HashMap K (List X) :=
  m.put k ((m.get k).getD [] ++ [x])

/-- `*entry(k).or_default() += n` on a map of counters. -/
def entryAdd (m : HashMap K Nat) (k : K) (n : Nat) : HashMap K Nat :=
  m.put k ((m.get k).getD 0 + n)

/-! ## Reading back -/

@[simp, grind =] theorem get_empty : (∅ : HashMap K V).get k = none := AList.lookup_empty k

end

section
variable (m : HashMap K V)

@[simp] theorem get_put_self (k : K) (v : V) : (m.put k v).get k = some v := AList.lookup_insert m

theorem get_put_ne (v : V) (h : k' ≠ k) : (m.put k v).get k' = m.get k' := AList.lookup_insert_ne h

@[grind =] theorem get_put (k k' : K) (v : V) :
    (m.put k v).get k' = if k' = k then some v else m.get k' := by
  split
  · rename_i h; rw [h, get_put_self]
  · rename_i h; exact get_put_ne m v h

theorem get_of_eq_put {m m' : HashMap K V} (h : m' = m.put k v) (k' : K) :
    m'.get k' = if k' = k then some v else m.get k' := by
  rw [h, get_put]

@[grind =] theorem get_remove (k k' : K) :
    (m.remove k).get k' = if k' = k then none else m.get k' := by
  split
  · rename_i h; rw [h]; exact AList.lookup_erase k m
  · rename_i h; exact AList.lookup_erase_ne h

end

variable {m : HashMap K V}

/-- What is read after a `put` is the new entry or an old one. -/
theorem get_put_cases
    (h : (m.put k v).get k' = some v') : (k' = k ∧ v' = v) ∨ (k' ≠ k ∧ m.get k' = some v') := by
  rw [get_put] at h
  split at h
  · rename_i hk
    exact .inl ⟨hk, (Option.some.inj h).symm⟩
  · rename_i hk
    exact .inr ⟨hk, h⟩

/-- What is read after a `remove` was there under another key. -/
theorem get_remove_cases (h : (m.remove k).get k' = some v) : k' ≠ k ∧ m.get k' = some v := by
  rw [get_remove] at h
  split at h
  · exact nomatch h
  · rename_i hk
    exact ⟨hk, h⟩

/-- **The rule for an invariant of all entries**: a `put` has to show it for the new one. -/
theorem forall_put {P : K → V → Prop} (h : ∀ k v, m.get k = some v → P k v)
    (hnew : P k v) : ∀ k' v', (m.put k v).get k' = some v' → P k' v' := by
  intro k' v' hget
  rcases get_put_cases hget with ⟨rfl, rfl⟩ | ⟨-, hget⟩
  · exact hnew
  · exact h k' v' hget

@[grind =] theorem getD_entryPush {X : Type} (m : HashMap K (List X)) (k k' : K) (x : X) :
    ((m.entryPush k x).get k').getD []
      = if k' = k then (m.get k').getD [] ++ [x] else (m.get k').getD [] := by
  unfold entryPush
  rw [get_put]
  split
  · rename_i h; rw [h]; rfl
  · rfl

@[grind =] theorem getD_entryAdd (m : HashMap K Nat) (k k' : K) (n : Nat) :
    ((m.entryAdd k n).get k').getD 0
      = if k' = k then (m.get k').getD 0 + n else (m.get k').getD 0 := by
  unfold entryAdd
  rw [get_put]
  split
  · rename_i h; rw [h]; rfl
  · rfl

/-! ## Keys -/

@[grind =] theorem mem_keys_iff (m : HashMap K V) (k : K) : k ∈ m.keys ↔ (m.get k).isSome :=
  (AList.lookup_isSome (s := m) (a := k)).symm

theorem mem_keys_of_get (h : m.get k = some v) : k ∈ m.keys := by
  rw [mem_keys_iff, h]; rfl

section
omit [DecidableEq K]

theorem keys_nodup (m : HashMap K V) : m.keys.Nodup := AList.keys_nodup m

@[simp] theorem keys_empty : (∅ : HashMap K V).keys = [] := rfl

end

theorem not_mem_keys_iff (m : HashMap K V) (k : K) : k ∉ m.keys ↔ m.get k = none := by
  rw [mem_keys_iff, Option.not_isSome_iff_eq_none]

/-- A new key goes to the front, and the other keys stay as they are. -/
theorem keys_put_of_get_none (v : V) (h : m.get k = none) : (m.put k v).keys = k :: m.keys := by
  have hk : k ∉ m.keys := (not_mem_keys_iff m k).mpr h
  have hins : (m.put k v).keys = k :: m.keys.erase k := AList.keys_insert m
  rw [hins, List.erase_of_not_mem hk]

theorem mem_keys_put (m : HashMap K V) (k k' : K) (v : V) :
    k' ∈ (m.put k v).keys ↔ k' = k ∨ k' ∈ m.keys := by
  rw [mem_keys_iff, mem_keys_iff, get_put]
  by_cases h : k' = k <;> simp [h]

/-- Inserting a list of entries with distinct keys. -/
theorem get_foldl_put_entries {α : Type} (key : α → K) (val : α → V) (l : List α) :
    ∀ m : HashMap K V, (l.map key).Nodup →
      (∀ a ∈ l, (l.foldl (fun m a => m.put (key a) (val a)) m).get (key a) = some (val a))
        ∧ ∀ k, k ∉ l.map key → (l.foldl (fun m a => m.put (key a) (val a)) m).get k = m.get k := by
  induction l with
  | nil =>
    simp
  | cons a l ih =>
    grind

end HashMap

/-- An iteration order: some rearrangement of whatever list of keys it is given. -/
structure IterOrder (K : Type) where
  arrange : List K → List K
  perm : ∀ l, (arrange l).Perm l

namespace IterOrder

instance : Inhabited (IterOrder K) := ⟨⟨id, fun l => List.Perm.refl l⟩⟩

end IterOrder
end Base
