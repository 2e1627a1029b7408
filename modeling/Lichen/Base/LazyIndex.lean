/-
  Claims that grow by an index.

  A claim is an amount as of some index, and is worth `stored * index / checkpoint` now, rounded
  down.  The exact value is the claim's units, `stored / checkpoint`, times the index; rounding and
  settling only ever lower it.  So if all units together are worth at most `total`, they still are
  after the index has grown by at most its part `index * gain / total` of a gain.
-/
import Mathlib.Data.Nat.Cast.Order.Field
import Mathlib.Tactic.FieldSimp
import Mathlib.Tactic.Linarith
import Mathlib.Tactic.Ring
import Lichen.Base.MapSum

namespace Base
open HashMap List

/-! ## Exact sums over a map -/

namespace HashMap

variable {V : Type}

/-- The sum of exact values. -/
def sumRat (m : HashMap K V) (f : V → ℚ) : ℚ := (m.toList.map fun e => f e.2).sum

@[simp] theorem sumRat_empty (f : V → ℚ) : (∅ : HashMap K V).sumRat f = 0 := rfl

variable [DecidableEq K]

/-- The entry of a key can be taken to the front. -/
theorem toList_perm_cons {m : HashMap K V} {k : K} (h : m.get k = some v) :
    m.toList.Perm ((k, v) :: (m.remove k).toList) := by
  have hnodup : ((k, v) :: (m.remove k).toList).Nodup := by
    refine nodup_cons.mpr ⟨?_, (m.remove k).toList_nodup⟩
    rw [mem_toList, get_remove_self]
    exact nofun
  refine (perm_ext_iff_of_nodup m.toList_nodup hnodup).mpr ?_
  grind

theorem sumRat_of_get {m : HashMap K V} {k : K} (f : V → ℚ) (h : m.get k = some v) :
    m.sumRat f = f v + (m.remove k).sumRat f := by
  unfold sumRat
  rw [((toList_perm_cons h).map _).sum_eq, map_cons, sum_cons]

/-- Writing a key adds its new value in place of the old one. -/
theorem sumRat_put (m : HashMap K V) (f : V → ℚ) (k : K) (v : V) :
    (m.put k v).sumRat f + ((m.get k).map f).getD 0 = m.sumRat f + f v := by
  have hrest : ((m.put k v).remove k).sumRat f = (m.remove k).sumRat f := by
    refine ((toList_perm_of_get fun k' => ?_).map _).sum_eq
    rw [get_remove, get_remove, get_put]
    split <;> rfl
  rw [sumRat_of_get f (get_put_self m k v), hrest]
  cases hk : m.get k with
  | none =>
    rw [remove_of_none hk, Option.map_none, Option.getD_none]
    ring
  | some w =>
    rw [sumRat_of_get f hk, Option.map_some, Option.getD_some]
    ring

end HashMap

/-! ## Claims -/

/-- An amount as of an index. -/
structure Claim where
  stored : Nat
  checkpoint : Nat

namespace Claim

/-- What the claim is worth per unit of the index. -/
def units (c : Claim) : ℚ := c.stored / c.checkpoint

theorem units_nonneg (c : Claim) : 0 ≤ c.units := by
  unfold units
  positivity

/-- Rounding down gives no more than the exact value. -/
theorem div_le_units (c : Claim) (index : Nat) :
    ((c.stored * index / c.checkpoint : Nat) : ℚ) ≤ c.units * index := by
  have h : ((c.stored * index / c.checkpoint : Nat) : ℚ)
      ≤ ((c.stored * index : Nat) : ℚ) / c.checkpoint := Nat.cast_div_le
  have heq : ((c.stored * index : Nat) : ℚ) / c.checkpoint = c.units * index := by
    unfold units
    push_cast
    ring
  exact heq ▸ h

/-- A claim as of the index itself is worth what is stored. -/
theorem units_mul_checkpoint {stored index} (h : 0 < index) :
    (Claim.mk stored index).units * index = stored := by
  unfold units
  field_simp

end Claim

/-- The units of all claims. -/
def HashMap.units {K V : Type} (m : HashMap K V) (claim : V → Claim) : ℚ :=
  m.sumRat fun v => (claim v).units

section
variable {V : Type} {m : HashMap K V} {claim : V → Claim}

/-- The rounded claims are together worth no more than the exact ones. -/
theorem sumBy_le_units (hf : ∀ k v, f k v ≤ (claim v).stored * index / (claim v).checkpoint) :
    ((m.sumBy f : Nat) : ℚ) ≤ m.units claim * index := by
  unfold sumBy units sumRat
  induction m.toList with
  | nil => simp
  | cons e l ih =>
    have hle : ((f e.1 e.2 : Nat) : ℚ) ≤ (claim e.2).units * index :=
      le_trans (Nat.cast_le.mpr (hf e.1 e.2)) ((claim e.2).div_le_units index)
    simp only [map_cons, sum_cons]
    push_cast at ih ⊢
    rw [add_mul]
    exact add_le_add hle ih

variable [DecidableEq K]

/-- **Replacing one claim.**  If the new claim with `x` is worth at most the old one with `y`, so
    are the claims together. -/
theorem units_put_le (h : (claim v).units * index + x
      ≤ ((m.get k).map fun w => (claim w).units).getD 0 * index + y) :
    (m.put k v).units claim * index + x ≤ m.units claim * index + y := by
  have hput := sumRat_put m (fun w => (claim w).units) k v
  unfold units
  have hmul := congrArg (· * (index : ℚ)) hput
  simp only [add_mul] at hmul
  linarith

/-- **Growth.**  Units worth at most `total` are worth at most `total + gain` after the index has
    grown by at most `index * gain / total`. -/
theorem units_grow_le {units : ℚ} {index delta total gain : Nat} (hunits : 0 ≤ units)
    (h : units * index ≤ total) (htotal : 0 < total) (hdelta : delta ≤ index * gain / total) :
    units * (index + delta : Nat) ≤ (total + gain : Nat) := by
  have hd : (delta : ℚ) ≤ index * gain / total := by
    have hcast : (delta : ℚ) ≤ ((index * gain / total : Nat) : ℚ) := Nat.cast_le.mpr hdelta
    have hdiv : ((index * gain / total : Nat) : ℚ) ≤ ((index * gain : Nat) : ℚ) / total :=
      Nat.cast_div_le
    push_cast at hdiv
    exact le_trans hcast hdiv
  have hgain : units * delta ≤ gain := by
    calc units * delta ≤ units * (index * gain / total) := mul_le_mul_of_nonneg_left hd hunits
      _ = units * index * (gain / total) := by ring
      _ ≤ total * (gain / total) := mul_le_mul_of_nonneg_right h (by positivity)
      _ = gain := by field_simp
  push_cast
  linarith

omit [DecidableEq K] in
theorem units_nonneg (m : HashMap K V) (claim : V → Claim) : 0 ≤ m.units claim := by
  refine sum_nonneg ?_
  intro x hx
  obtain ⟨e, _, rfl⟩ := mem_map.mp hx
  exact (claim e.2).units_nonneg

end
end Base
