/-
  The MossStake plan always comes out.

  Everyone is filled to the same part of the limit, found by binary search in units of
  `RATIO_SCALE`.  One unit more adds at most one spore to each validator, because no limit is above
  `RATIO_SCALE`; so what the search leaves over is at most one spore for each, and as long as the
  validators have room for the whole backing there is always one that can take the next spore.

  1. `allocationAt_succ` — what one unit of ratio adds.
  2. `distributeRemainder_ok` — handing out the rest, one spore at a time.
  3. `allocateMoss_ok` — the two together: the plan adds up to the backing.
  4. `moss_allocator_exact` — what the backing has to satisfy, for a list of eligible validators.
-/
import Lichen.Staking.Reallocate
import Lichen.Staking.Rollover

open Base HashMap U64
namespace Lichen.Staking
open MossLimit List

/-! ## Filling to a ratio -/

namespace MossLimit

variable {l : MossLimit} {r : Nat}

theorem allocationAt_eq (hmax : l.maximum ≤ RATIO_SCALE) (hr : r ≤ RATIO_SCALE) :
    l.allocationAt r = min (l.maximum * r / RATIO_SCALE - l.base) l.capacity := by
  have hscale : RATIO_SCALE < 2 ^ 64 := by decide
  have hmul : U128.saturatingMul l.maximum r = l.maximum * r :=
    U128.saturatingMul_of_lt (lt_of_le_of_lt hmax hscale) (lt_of_le_of_lt hr hscale)
  have hdiv : l.maximum * r / RATIO_SCALE ≤ l.maximum :=
    Nat.div_le_of_le_mul (by rw [mul_comm]; exact Nat.mul_le_mul_right _ hr)
  have hlt : l.maximum * r / RATIO_SCALE < 2 ^ 64 := lt_of_le_of_lt (le_trans hdiv hmax) hscale
  unfold allocationAt
  simp only [hmul, U128.toU64_of_lt hlt]
  rfl

theorem allocationAt_le (l : MossLimit) (r : Nat) : l.allocationAt r ≤ l.capacity :=
  min_le_right _ _

section
variable (hmax : l.maximum ≤ RATIO_SCALE)
include hmax

theorem allocationAt_zero : l.allocationAt 0 = 0 := by
  rw [allocationAt_eq hmax (Nat.zero_le _), mul_zero, Nat.zero_div, Nat.zero_sub, Nat.zero_min]

theorem allocationAt_full
    (hcap : l.capacity = l.maximum - l.base) : l.allocationAt RATIO_SCALE = l.capacity := by
  have hpos : 0 < RATIO_SCALE := by decide
  rw [allocationAt_eq hmax (le_refl _), Nat.mul_div_cancel _ hpos, hcap, Nat.min_self]

/-- One unit of ratio adds at most one spore. -/
theorem allocationAt_succ (hr : r + 1 ≤ RATIO_SCALE) :
    l.allocationAt (r + 1) ≤ l.allocationAt r + 1 := by
  have hpos : 0 < RATIO_SCALE := by decide
  have hdiv : l.maximum * (r + 1) / RATIO_SCALE ≤ l.maximum * r / RATIO_SCALE + 1 := by
    rw [Nat.mul_succ, ← Nat.add_div_right _ hpos]
    exact Nat.div_le_div_right (Nat.add_le_add_left hmax _)
  rw [allocationAt_eq hmax hr, allocationAt_eq hmax (by omega)]
  omega

end
end MossLimit

/-- What everyone gets together at a ratio. -/
def totalAt (limits : List MossLimit) (r : Nat) : Nat :=
  (limits.map fun l => l.allocationAt r).sum

/-- The room of all of them. -/
def capacityOf (limits : List MossLimit) : Nat := (limits.map MossLimit.capacity).sum

/-- Limits that can take `target`. -/
structure Roomy (limits : List MossLimit) (target : Nat) : Prop where
  distinct : (limits.map MossLimit.validator).Nodup
  bounded : ∀ l ∈ limits, l.maximum ≤ RATIO_SCALE
  capacity : ∀ l ∈ limits, l.capacity = l.maximum - l.base
  fits : capacityOf limits < 2 ^ 64
  room : target ≤ capacityOf limits
  count : limits.length * 20 < 2 ^ 64

section
variable {target : Nat}

theorem totalAt_le (limits : List MossLimit) (r : Nat) : totalAt limits r ≤ capacityOf limits :=
  sum_le_sum fun l _ => l.allocationAt_le r

section
variable (h : Roomy limits target)
include h

theorem Roomy.totalAt_zero : totalAt limits 0 = 0 := by
  unfold totalAt
  rw [sum_eq_zero_iff]
  simp only [mem_map]
  rintro x ⟨l, hl, rfl⟩
  exact allocationAt_zero (h.bounded l hl)

theorem Roomy.totalAt_full : totalAt limits RATIO_SCALE = capacityOf limits := by
  unfold totalAt capacityOf
  congr 1
  exact map_congr_left fun l hl =>
    allocationAt_full (h.bounded l hl) (h.capacity l hl)

theorem Roomy.totalAt_succ (hr : r + 1 ≤ RATIO_SCALE) :
    totalAt limits (r + 1) ≤ totalAt limits r + limits.length := by
  have hle : totalAt limits (r + 1) ≤ (limits.map fun l => l.allocationAt r + 1).sum :=
    sum_le_sum fun l hl => allocationAt_succ (h.bounded l hl) hr
  have hsplit : (limits.map fun l => l.allocationAt r + 1).sum
      = totalAt limits r + limits.length := by
    unfold totalAt
    rw [sum_map_add]
    simp
  omega

/-- The loop that adds the allocations up, whatever it says when it overflows. -/
theorem Roomy.total_eq_ok (r : Nat) (message : String) :
    tryFold (fun total (l : MossLimit) => okOr (U64.checkedAdd total (l.allocationAt r)) message) 0
      limits = .ok (totalAt limits r) := by
  have hlt : totalAt limits r < 2 ^ 64 := lt_of_le_of_lt (totalAt_le limits r) h.fits
  rw [tryFold_add_eq_ok (Nat.two_pow_pos 64), zero_add]
  exact ⟨hlt, rfl⟩

/-- The search ends at a ratio that leaves at most one spore for each validator. -/
theorem Roomy.exists_ratio : ∃ r, bisect (fun ratio => do
        let total ← allocationTotalAt limits ratio
        pure (decide (total ≤ target)) : Nat → Except String Bool) 64 0 RATIO_SCALE = .ok r
      ∧ totalAt limits r ≤ target ∧ target ≤ totalAt limits r + limits.length := by
  have hp : ∀ x, x ≤ RATIO_SCALE → (do
      let total ← allocationTotalAt limits x
      pure (decide (total ≤ target)) : Except String Bool)
      = .ok (decide (totalAt limits x ≤ target)) := by
    intro x _
    have htotal : allocationTotalAt limits x = .ok (totalAt limits x) := h.total_eq_ok x _
    rw [htotal, bind_ok]
    rfl
  have hzero : decide (totalAt limits 0 ≤ target) = true := by
    rw [h.totalAt_zero]
    exact decide_eq_true (Nat.zero_le _)
  have hspan : RATIO_SCALE - 0 < 2 ^ 64 := by decide
  obtain ⟨r, hr, -, hbound, hle, hend⟩ :=
    bisect_ok (p := fun x => decide (totalAt limits x ≤ target)) hp (Nat.zero_le _) (Nat.le_refl _)
      hspan hzero (.inl rfl)
  have hle' : totalAt limits r ≤ target := of_decide_eq_true hle
  refine ⟨r, hr, hle', ?_⟩
  rcases hend with rfl | hnext
  -- everyone is full: the room is the backing
  · have hroom := h.room
    rw [h.totalAt_full]
    omega
  · have hgt : target < totalAt limits (r + 1) := Nat.not_le.mp (of_decide_eq_false hnext)
    have hlt : r ≠ RATIO_SCALE := by
      rintro rfl
      have hcap := totalAt_le limits (RATIO_SCALE + 1)
      rw [h.totalAt_full] at hle'
      omega
    have hsucc := h.totalAt_succ (r := r) (by omega)
    omega

end
end

/-! ## Handing out the rest -/

/-- Allocations within the room of the validators. -/
structure Filled (limits : List MossLimit) (m : HashMap Pubkey Nat) : Prop where
  within : Within m (limits.map MossLimit.validator)
  capped : ∀ l ∈ limits, (m.get l.validator).getD 0 ≤ l.capacity
  positive : ∀ v n, m.get v = some n → 0 < n

/-- What a plan gives away. -/
def allotted (m : HashMap Pubkey Nat) : Nat := m.sumBy fun _ n => n

theorem share_allotted (m : HashMap Pubkey Nat) (v : Pubkey) :
    m.share (fun _ n => n) v = (m.get v).getD 0 := by
  unfold HashMap.share
  cases m.get v <;> rfl

section
variable {limits : List MossLimit}

/-- Giving one more spore to a validator with room. -/
theorem Filled.increment (h : Filled limits m) (hd : (limits.map validator).Nodup)
    (hl : l ∈ limits) (hroom : (m.get l.validator).getD 0 < l.capacity) :
    Filled limits (m.put l.validator ((m.get l.validator).getD 0 + 1))
      ∧ allotted (m.put l.validator ((m.get l.validator).getD 0 + 1)) = allotted m + 1 := by
  refine ⟨⟨h.within.put (mem_map_of_mem hl) _, ?_, ?_⟩, ?_⟩
  · intro l' hl'
    rw [get_put]
    split
    · rename_i heq
      obtain rfl := inj_on_of_nodup_map hd hl' hl heq
      exact hroom
    · exact h.capped l' hl'
  · exact forall_put h.positive (Nat.succ_pos _)
  · have hsum := sumBy_put m (fun _ n => n) l.validator ((m.get l.validator).getD 0 + 1)
    rw [share_allotted] at hsum
    unfold allotted
    omega

section
variable (hd : (limits.map MossLimit.validator).Nodup)
include hd

/-- Someone has room as long as not everything is given away. -/
theorem exists_candidate (h : allotted m < capacityOf limits) :
    ∃ l ∈ limits, (m.get l.validator).getD 0 < l.capacity := by
  by_contra hnone
  have hall : ∀ l ∈ limits, l.capacity ≤ (m.get l.validator).getD 0 := by
    intro l hl
    exact Nat.not_lt.mp fun hlt => hnone ⟨l, hl, hlt⟩
  have hle : capacityOf limits ≤ (limits.map fun l => (m.get l.validator).getD 0).sum :=
    sum_le_sum hall
  have hshare := sum_share_le (fun _ n => n) hd m
  rw [map_map] at hshare
  have hsame : (limits.map fun l => (m.get l.validator).getD 0)
      = limits.map (m.share (fun _ n => n) ∘ validator) :=
    map_congr_left fun l _ => (share_allotted m l.validator).symm
  rw [hsame] at hle
  unfold allotted at h
  omega

/-- **Handing out the rest.** -/
theorem distributeRemainder_ok (hfit : capacityOf limits < 2 ^ 64) :
    ∀ {n : Nat} {m : HashMap Pubkey Nat}, Filled limits m → allotted m + n ≤ capacityOf limits →
      ∃ r, distributeRemainder limits n m = .ok r ∧ Filled limits r
        ∧ allotted r = allotted m + n := by
  intro n
  induction n with
  | zero => exact fun hm _ => ⟨_, rfl, hm, rfl⟩
  | succ n ih =>
    intro m hm _
    rw [distributeRemainder]
    cases hhead : ((limits.filter fun l => decide ((m.get l.validator).getD 0
        < l.capacity)).insertionSort (lessSaturated m)).head? with
    | none =>
      -- there is a candidate, so the sorted list of candidates is not empty
      obtain ⟨l, hl, hroom⟩ := exists_candidate hd (m := m) (by omega)
      have hmem : l ∈ (limits.filter fun l => decide ((m.get l.validator).getD 0
          < l.capacity)).insertionSort (lessSaturated m) := by
        rw [mem_insertionSort, mem_filter]
        exact ⟨hl, decide_eq_true hroom⟩
      rw [List.head?_eq_none_iff.mp hhead] at hmem
      exact absurd hmem (not_mem_nil)
    | some l =>
      have hmem := mem_of_mem_head? (Option.mem_def.mpr hhead)
      rw [mem_insertionSort, mem_filter, decide_eq_true_eq] at hmem
      obtain ⟨hl, hroom⟩ := hmem
      obtain ⟨hm', hsum⟩ := hm.increment hd hl hroom
      have hcap : l.capacity ≤ capacityOf limits :=
        single_le_sum (fun _ _ => Nat.zero_le _) _ (mem_map_of_mem hl)
      have hadd : U64.checkedAdd ((m.get l.validator).getD 0) 1
          = some ((m.get l.validator).getD 0 + 1) :=
        checkedAdd_eq_some.mpr ⟨by omega, rfl⟩
      obtain ⟨r, hr, hfilled, htotal⟩ := ih hm' (by omega)
      refine ⟨r, ?_, hfilled, by omega⟩
      simp only [hadd]
      exact hr

/-- What the first pass writes. -/
theorem allocationsAt_filled (ratio : Nat) : Filled limits (allocationsAt limits ratio)
      ∧ allotted (allocationsAt limits ratio) = totalAt limits ratio := by
  -- generalised over the part of the list that is still to come, with no entry yet for it
  have hgen : ∀ (rest : List MossLimit) (m : HashMap Pubkey Nat), rest ⊆ limits →
      (rest.map validator).Nodup → (∀ l ∈ rest, m.get l.validator = none) →
      Filled limits m →
      Filled limits (rest.foldl (fun m l =>
          if 0 < l.allocationAt ratio then m.put l.validator (l.allocationAt ratio) else m) m)
        ∧ allotted (rest.foldl (fun m l =>
          if 0 < l.allocationAt ratio then m.put l.validator (l.allocationAt ratio) else m) m)
          = allotted m + totalAt rest ratio := by
    intro rest
    induction rest with
    | nil => exact fun m _ _ _ hm => ⟨hm, rfl⟩
    | cons x rest ih =>
      intro m hsub hnd hnone hm
      have hx : x ∈ limits := hsub mem_cons_self
      have hrest : rest ⊆ limits := fun y hy => hsub (mem_cons_of_mem x hy)
      rw [map_cons, nodup_cons] at hnd
      have htotal : totalAt (x :: rest) ratio = x.allocationAt ratio + totalAt rest ratio := by
        unfold totalAt
        rw [map_cons, sum_cons]
      rw [foldl_cons, htotal]
      split
      · rename_i hpos
        have hfilled : Filled limits (m.put x.validator (x.allocationAt ratio)) := by
          refine ⟨hm.within.put (mem_map_of_mem hx) _, ?_, ?_⟩
          · intro l hl
            rw [get_put]
            split
            · rename_i heq
              obtain rfl := inj_on_of_nodup_map hd hl hx heq
              exact l.allocationAt_le ratio
            · exact hm.capped l hl
          · exact forall_put hm.positive hpos
        have hnone' : ∀ l ∈ rest, (m.put x.validator (x.allocationAt ratio)).get l.validator
            = none := by
          intro l hl
          have hne : l.validator ≠ x.validator := fun heq => hnd.1 (heq ▸ mem_map_of_mem hl)
          rw [get_put_ne _ _ hne]
          exact hnone l (mem_cons_of_mem x hl)
        obtain ⟨hend, hsum⟩ := ih _ hrest hnd.2 hnone' hfilled
        refine ⟨hend, ?_⟩
        have hput := sumBy_put_of_none (fun _ n => n) (x.allocationAt ratio) (hnone x mem_cons_self)
        rw [hsum]
        unfold allotted
        omega
      · obtain ⟨hend, hsum⟩ := ih m hrest hnd.2 (fun l hl => hnone l (mem_cons_of_mem x hl)) hm
        refine ⟨hend, ?_⟩
        rw [hsum]
        omega
  have hempty : Filled limits ∅ :=
    ⟨within_empty _, fun l _ => by simp, fun v n hn => absurd hn (by simp)⟩
  obtain ⟨hend, hsum⟩ := hgen limits ∅ (fun _ h => h) hd (fun l _ => get_empty _) hempty
  refine ⟨hend, ?_⟩
  unfold allocationsAt
  rw [hsum]
  unfold allotted
  rw [sumBy_empty, Nat.zero_add]

end

/-- **The allocation succeeds and adds up.** -/
theorem allocateMoss_ok (h : Roomy limits target) :
    ∃ a, StakePool.allocateMoss limits target = .ok a ∧ Filled limits a ∧ allotted a = target := by
  obtain ⟨r, hr, hle, hrest⟩ := h.exists_ratio
  obtain ⟨hfilled, hsum⟩ := allocationsAt_filled h.distinct r
  have hroom := h.room
  obtain ⟨a, ha, hfilled', hsum'⟩ := distributeRemainder_ok h.distinct h.fits
    (n := target - totalAt limits r) hfilled (by omega)
  refine ⟨a, ?_, hfilled', by omega⟩
  unfold StakePool.allocateMoss
  simp only [ok_rules, checkedMul_eq_some]
  refine ⟨r, hr, _, h.total_eq_ok r _, _, ⟨hle, rfl⟩, _, ⟨h.count, rfl⟩, ?_, ha⟩
  omega

end

/-! ## The plan of a pool -/

namespace StakePool

variable {p : StakePool} {v : Pubkey} {l : List Pubkey} {target limit : Nat}

section
variable (p : StakePool)

/-- The stake of a validator without its MossStake allocation. -/
def mossFree (v : Pubkey) : Nat := p.effective v - p.mossOf v

/-- What the validators of a list have together without MossStake. -/
def baseOf (l : List Pubkey) : Nat := (l.map p.mossFree).sum

/-- A validator in a plan. -/
def mossLimit (limit : Nat) (v : Pubkey) : MossLimit :=
  ⟨v, p.mossFree v, p.bond v, min (p.bond v * MAX_VALIDATOR_EFFECTIVE_STAKE_MULTIPLIER) limit,
    min (p.bond v * MAX_VALIDATOR_EFFECTIVE_STAKE_MULTIPLIER) limit - p.mossFree v⟩

/-- The limits of a plan for `target`. -/
def planLimits (target : Nat) (l : List Pubkey) : List MossLimit :=
  l.map (p.mossLimit (saturationLimit (p.baseOf l + target) l.length))

/-- The MossStake backing that the validators of a list can take, if it is to be `target`. -/
def mossCapacity (target : Nat) (l : List Pubkey) : Nat :=
  capacityOf (p.planLimits target l)

end

section
variable (h : p.Valid)
include h

theorem Valid.mossOf_le (hi : p.stakes.get v = some i) : p.mossOf v ≤ i.delegatedAmount := by
  rw [h.delegated v i hi]
  exact p.delegation_le_delegatedTo v _

theorem Valid.mossOf_le_effective (hi : p.stakes.get v = some i) : p.mossOf v ≤ p.effective v := by
  have hle := h.mossOf_le hi
  rw [h.effective_eq hi]
  omega

theorem Valid.mossBase_eq_ok :
    p.mossBase v = .ok e ↔ (∃ i, p.Eligible v i) ∧ e = (p.mossFree v, p.bond v) := by
  unfold mossBase
  simp only [ok_rules, not_or, Bool.not_eq_false]
  constructor
  · rintro ⟨i, hi, ⟨hact, hmin⟩, b, ⟨hle, rfl⟩, rfl⟩
    refine ⟨⟨i, hi, hact, hmin⟩, ?_⟩
    unfold mossFree
    rw [effective_of_get hi, bond_of_get hi]
    rfl
  · rintro ⟨⟨i, hi⟩, rfl⟩
    have hle := h.mossOf_le_effective hi.entry
    rw [effective_of_get hi.entry] at hle
    refine ⟨i, hi.entry, ⟨hi.active, hi.minimum⟩, _, ⟨hle, rfl⟩, ?_⟩
    unfold mossFree
    rw [effective_of_get hi.entry, bond_of_get hi.entry]
    rfl

theorem Valid.mossBases_eq_ok :
    p.mossBases l = .ok r ↔ (∀ v ∈ l, ∃ i, p.Eligible v i) ∧ p.baseOf l < 2 ^ 64
      ∧ r = (l.map fun v => (v, p.mossFree v, p.bond v), p.baseOf l) := by
  unfold mossBases
  rw [tryFold_collect_eq_ok (fun v => ∃ i, p.Eligible v i) p.mossFree
    (fun v => (v, p.mossFree v, p.bond v)) (fun acc v r _ => ?_) (Nat.two_pow_pos 64)]
  · simp only [nil_append, Nat.zero_add]
    rfl
  · simp only [ok_rules, h.mossBase_eq_ok]
    constructor
    · rintro ⟨e, ⟨helig, rfl⟩, t, ⟨hlt, rfl⟩, rfl⟩
      exact ⟨helig, hlt, rfl⟩
    · rintro ⟨helig, hlt, rfl⟩
      exact ⟨_, ⟨helig, rfl⟩, _, ⟨hlt, rfl⟩, rfl⟩

theorem Valid.bond_lt (v : Pubkey) :
    p.bond v * MAX_VALIDATOR_EFFECTIVE_STAKE_MULTIPLIER ≤ RATIO_SCALE := by
  have hle : p.bond v ≤ MAX_VALIDATOR_STAKE := by
    cases hi : p.stakes.get v with
    | none =>
      rw [bond_of_none hi]
      exact Nat.zero_le _
    | some i =>
      rw [bond_of_get hi]
      exact h.bonded v i hi
  unfold MAX_VALIDATOR_STAKE at hle
  unfold MAX_VALIDATOR_EFFECTIVE_STAKE_MULTIPLIER RATIO_SCALE
  omega

theorem Valid.mossLimits_eq_ok :
    mossLimits limit (l.map fun v => (v, p.mossFree v, p.bond v)) = .ok r ↔
      capacityOf (l.map (p.mossLimit limit)) < 2 ^ 64
      ∧ r = (l.map (p.mossLimit limit), capacityOf (l.map (p.mossLimit limit))) := by
  have hscale : RATIO_SCALE < 2 ^ 64 := by decide
  unfold mossLimits
  rw [tryFold_map, tryFold_collect_eq_ok (fun _ => True) (fun v => (p.mossLimit limit v).capacity)
    (p.mossLimit limit) (fun acc v r _ => ?_) (Nat.two_pow_pos 64)]
  · unfold capacityOf
    simp only [nil_append, Nat.zero_add, map_map]
    exact ⟨fun hr => hr.2, fun hr => ⟨fun _ _ => trivial, hr⟩⟩
  · have hlt := Nat.lt_of_le_of_lt (h.bond_lt v) hscale
    simp only [ok_rules, checkedMul_eq_some, true_and]
    constructor
    · rintro ⟨b, ⟨-, rfl⟩, t, ⟨hadd, rfl⟩, rfl⟩
      exact ⟨hadd, rfl⟩
    · rintro ⟨hadd, rfl⟩
      exact ⟨_, ⟨hlt, rfl⟩, _, ⟨hadd, rfl⟩, rfl⟩

theorem Valid.sum_effective_le (hl : p.Electable l) : (l.map p.effective).sum ≤ p.bondedTotal := by
  have hall := sum_share_le (fun _ i => i.totalStake) hl.distinct p.stakes
  have hbonded : p.stakes.sumBy (fun _ i => i.totalStake) ≤ p.bondedTotal :=
    sumBy_le_sumBy fun v i hi => Nat.le_of_eq (h.totalStake_eq hi)
  exact Nat.le_trans hall hbonded

/-- Eligible validators are few: each has the minimum stake. -/
theorem Valid.length_le (hl : p.Electable l) : l.length * 20 < 2 ^ 64 := by
  have hmin : ∀ v ∈ l, MIN_VALIDATOR_STAKE ≤ p.effective v := by
    intro v hv
    obtain ⟨i, hi⟩ := hl.eligible v hv
    rw [effective_of_get hi.entry]
    exact of_decide_eq_true hi.minimum
  have hsum : l.length * MIN_VALIDATOR_STAKE ≤ (l.map p.effective).sum := by
    have hconst : (l.map fun _ => MIN_VALIDATOR_STAKE).sum ≤ (l.map p.effective).sum :=
      sum_le_sum hmin
    simpa using hconst
  have hfits := h.fits
  rw [h.totals] at hfits
  have hstake := h.sum_effective_le hl
  have h20 : l.length * 20 ≤ l.length * MIN_VALIDATOR_STAKE := Nat.mul_le_mul_left _ (by decide)
  omega

end

/-- The order of the list does not matter to the limits. -/
theorem planLimits_perm (h : l'.Perm l) :
    (p.planLimits target l').Perm (p.planLimits target l) := by
  have hbase : p.baseOf l' = p.baseOf l := (h.map _).sum_eq
  unfold planLimits
  rw [hbase, h.length_eq]
  exact h.map _

/-- What a plan gives. -/
structure MossPlan (p : StakePool) (target : Nat) (l : List Pubkey) (a : HashMap Pubkey Nat) :
    Prop where
  within : Within a l
  capped : ∀ v ∈ l, (a.get v).getD 0
    ≤ (p.mossLimit (saturationLimit (p.baseOf l + target) l.length) v).capacity
  positive : ∀ v n, a.get v = some n → 0 < n
  total : allotted a = target

variable {a : HashMap Pubkey Nat}

theorem mossPlan_of_filled (hperm : l'.Perm l)
    (h : Filled (p.planLimits target l') a) (hsum : allotted a = target) :
    p.MossPlan target l a := by
  have hbase : p.baseOf l' = p.baseOf l := (hperm.map _).sum_eq
  refine ⟨?_, ?_, h.positive, hsum⟩
  · intro v n hn
    have hv := h.within v n hn
    unfold planLimits at hv
    rw [map_map] at hv
    obtain ⟨w, hw, rfl⟩ := mem_map.mp hv
    exact hperm.mem_iff.mp hw
  · intro v hv
    have hmem : p.mossLimit (saturationLimit (p.baseOf l' + target) l'.length) v
        ∈ p.planLimits target l' := mem_map_of_mem (hperm.mem_iff.mpr hv)
    have hcap := h.capped _ hmem
    rw [hbase, hperm.length_eq] at hcap
    exact hcap

/-- What `planMossstakeAllocations` computes before the allocator: the limits of the validators, in
    key order, and the room they have together. -/
def mossRoom (p : StakePool) (target : Nat) (validators : List Pubkey) :
    Except String (List MossLimit × Nat) := do
  let bases ← p.mossBases validators
  let finalActiveStake ← okOr (U64.checkedAdd bases.2 target)
    "MossStake final active stake overflow"
  let saturationBps ← validatorSaturationCapBps validators.length
  let networkLimit ← mulDivCeil finalActiveStake saturationBps 10000
  mossLimits networkLimit bases.1

theorem plan_eq_room (hl : p.Electable l) : p.planMossstakeAllocations target l = (do
    let limits ← p.mossRoom target (l.insertionSort keyLe)
    failIf (limits.2 < target) (s!"MossStake backing {target} exceeds " ++
      s!"deterministic validator capacity {limits.2}")
    if target = 0 then pure ∅ else allocateMoss limits.1 target) := by
  have hperm : (l.insertionSort keyLe).Perm l := perm_insertionSort _ l
  have hdup : adjacentDuplicate (l.insertionSort keyLe) = none :=
    adjacentDuplicate_of_nodup (hperm.nodup_iff.mpr hl.distinct)
  have hsome : failIf (l = []) "MossStake allocation requires active validators" = .ok () :=
    failIf_eq_ok.mpr hl.occupied
  unfold planMossstakeAllocations mossRoom
  simp only [hsome, hdup, bind_assoc]
  rfl

section
variable (h : p.Valid) (hl : p.Electable l)
include h hl

theorem Valid.room_eq_ok : p.mossRoom target (l.insertionSort keyLe) = .ok r ↔
      p.baseOf l + target < 2 ^ 64 ∧ p.mossCapacity target l < 2 ^ 64
      ∧ r = (p.planLimits target (l.insertionSort keyLe), p.mossCapacity target l) := by
  have hperm : (l.insertionSort keyLe).Perm l := perm_insertionSort _ l
  have hbase : p.baseOf (l.insertionSort keyLe) = p.baseOf l := (hperm.map _).sum_eq
  have hlen : (l.insertionSort keyLe).length = l.length := hperm.length_eq
  have hcap : capacityOf (p.planLimits target (l.insertionSort keyLe)) = p.mossCapacity target l :=
    ((planLimits_perm hperm).map _).sum_eq
  have helig : ∀ v ∈ l.insertionSort keyLe, ∃ i, p.Eligible v i :=
    fun v hv => hl.eligible v (hperm.mem_iff.mp hv)
  have hpos : l.length ≠ 0 := fun hz => hl.occupied (eq_nil_of_length_eq_zero hz)
  have hform : (l.insertionSort keyLe).map (p.mossLimit (saturationLimit (p.baseOf l + target)
      l.length)) = p.planLimits target (l.insertionSort keyLe) := by
    unfold planLimits
    rw [hbase, hlen]
  unfold mossRoom
  simp only [ok_rules, h.mossBases_eq_ok, validatorSaturationCapBps_eq_ok, hlen]
  constructor
  · rintro ⟨bases, ⟨-, -, rfl⟩, final, ⟨hfit, rfl⟩, bps, ⟨-, rfl⟩, limit, hlimit, hlimits⟩
    rw [hbase] at hfit
    simp only [hbase] at hlimit hlimits
    obtain rfl := (mulDivCeil_eq_ok hfit).mp hlimit
    obtain ⟨hlt, rfl⟩ := h.mossLimits_eq_ok.mp hlimits
    simp only [hform, hcap] at hlt ⊢
    exact ⟨hfit, hlt, trivial⟩
  · rintro ⟨hfit, hlt, rfl⟩
    have hfit' : p.baseOf (l.insertionSort keyLe) < 2 ^ 64 := by omega
    refine ⟨_, ⟨helig, hfit', rfl⟩, p.baseOf l + target, ⟨by rw [hbase]; exact hfit, by rw [hbase]⟩,
      _, ⟨hpos, rfl⟩, _, (mulDivCeil_eq_ok hfit).mpr rfl, ?_⟩
    rw [h.mossLimits_eq_ok, hform, hcap]
    exact ⟨hlt, rfl⟩

theorem Valid.plan_eq_ok : p.planMossstakeAllocations target l = .ok a ↔
      p.baseOf l + target < 2 ^ 64 ∧ p.mossCapacity target l < 2 ^ 64
      ∧ target ≤ p.mossCapacity target l
      ∧ (if target = 0 then pure ∅
        else allocateMoss (p.planLimits target (l.insertionSort keyLe)) target) = .ok a := by
  simp only [plan_eq_room hl, ok_rules, h.room_eq_ok hl, Nat.not_lt]
  constructor
  · rintro ⟨_, ⟨hfit, hlt, rfl⟩, hroom, hrest⟩
    exact ⟨hfit, hlt, hroom, hrest⟩
  · rintro ⟨hfit, hlt, hroom, hrest⟩
    exact ⟨_, ⟨hfit, hlt, rfl⟩, hroom, hrest⟩

/-- The limits of a valid pool are what the allocator needs. -/
theorem Valid.roomy (hperm : l'.Perm l)
    (hfit : p.mossCapacity target l < 2 ^ 64) (hroom : target ≤ p.mossCapacity target l) :
    Roomy (p.planLimits target l') target := by
  have hcap : capacityOf (p.planLimits target l') = p.mossCapacity target l :=
    ((planLimits_perm hperm).map _).sum_eq
  have hvalidators : (p.planLimits target l').map validator = l' := by
    unfold planLimits
    rw [map_map]
    exact map_id l'
  refine ⟨?_, ?_, ?_, by rw [hcap]; exact hfit, by rw [hcap]; exact hroom, ?_⟩
  · rw [hvalidators]
    exact hperm.nodup_iff.mpr hl.distinct
  · intro m hm
    obtain ⟨v, -, rfl⟩ := mem_map.mp hm
    exact Nat.le_trans (Nat.min_le_left _ _) (h.bond_lt v)
  · intro m hm
    obtain ⟨v, -, rfl⟩ := mem_map.mp hm
    rfl
  · unfold planLimits
    rw [length_map, hperm.length_eq]
    exact h.length_le hl

end

theorem mossPlan_empty (p : StakePool) (l : List Pubkey) : p.MossPlan 0 l ∅ :=
  ⟨within_empty l, fun v _ => by simp, fun v n hn => absurd hn (by simp), sumBy_empty _⟩

/-- **The plan comes out** when nothing overflows and there is room for the backing. -/
theorem Valid.exists_plan (h : p.Valid) (hl : p.Electable l) (hfit : p.baseOf l + target < 2 ^ 64)
    (hcap : p.mossCapacity target l < 2 ^ 64) (hroom : target ≤ p.mossCapacity target l) :
    ∃ a, p.planMossstakeAllocations target l = .ok a ∧ p.MossPlan target l a := by
  have hperm : (l.insertionSort keyLe).Perm l := perm_insertionSort _ l
  by_cases hzero : target = 0
  · subst hzero
    exact ⟨∅, (h.plan_eq_ok hl).mpr ⟨hfit, hcap, hroom, rfl⟩, p.mossPlan_empty l⟩
  · obtain ⟨a, ha, hfilled, hsum⟩ := allocateMoss_ok (h.roomy hl hperm hcap hroom)
    refine ⟨a, (h.plan_eq_ok hl).mpr ⟨hfit, hcap, hroom, ?_⟩, mossPlan_of_filled hperm hfilled hsum⟩
    rw [if_neg hzero]
    exact ha

theorem Valid.plan_spec (h : p.Valid) (hl : p.Electable l)
    (ha : p.planMossstakeAllocations target l = .ok a) :
    p.baseOf l + target < 2 ^ 64 ∧ p.mossCapacity target l < 2 ^ 64 ∧ p.MossPlan target l a := by
  obtain ⟨hfit, hcap, hroom, -⟩ := (h.plan_eq_ok hl).mp ha
  obtain ⟨b, hb, hplan⟩ := h.exists_plan hl hfit hcap hroom
  rw [ha, Except.ok.injEq] at hb
  exact ⟨hfit, hcap, hb ▸ hplan⟩

end StakePool

/-- A pool of two validators with the minimum bond. -/
def twoBonded : StakePool :=
  { StakePool.new with
    stakes := ((∅ : HashMap Pubkey StakeInfo).put ⟨1⟩ (StakeInfo.new ⟨1⟩ MIN_VALIDATOR_STAKE 0)).put
      ⟨2⟩ (StakeInfo.new ⟨2⟩ MIN_VALIDATOR_STAKE 0)
    totalStaked := 2 * MIN_VALIDATOR_STAKE }

/-- **The MossStake allocator is exact and never gives up early.**  A plan fails only if one of its
    sums does not fit in 64 bits or the backing is more than the validators can take.  What it
    gives adds up to the backing, within the capacity of each validator, in whatever order the
    validators come; and once the room is computed and suffices, the allocator (the only place of
    the errors about the residual and the exhausted capacity) does not fail. -/
theorem moss_allocator_exact {p : StakePool} {l : List Pubkey} {target : Nat}
    (hp : p.validateV2Invariants = .ok ()) (hl : p.Electable l) :
    ((∃ a, p.planMossstakeAllocations target l = .ok a) ↔
      p.baseOf l + target < 2 ^ 64 ∧ p.mossCapacity target l < 2 ^ 64
        ∧ target ≤ p.mossCapacity target l)
    ∧ (∀ a, p.planMossstakeAllocations target l = .ok a → p.MossPlan target l a)
    ∧ (∀ l' : List Pubkey, l'.Perm l →
        p.planMossstakeAllocations target l' = p.planMossstakeAllocations target l)
    ∧ ∀ limits, p.mossRoom target (l.insertionSort keyLe) = .ok limits → target ≤ limits.2 →
        ∃ a, StakePool.allocateMoss limits.1 target = .ok a := by
  obtain ⟨hvalid, -, -⟩ := StakePool.validateV2Invariants_eq_ok.mp hp
  refine ⟨⟨?_, ?_⟩, fun a ha => (hvalid.plan_spec hl ha).2.2, fun l' hperm => ?_,
    fun limits hlimits hroom => ?_⟩
  · rintro ⟨a, ha⟩
    obtain ⟨hfit, hcap, hroom, -⟩ := (hvalid.plan_eq_ok hl).mp ha
    exact ⟨hfit, hcap, hroom⟩
  · rintro ⟨hfit, hcap, hroom⟩
    obtain ⟨a, ha, -⟩ := hvalid.exists_plan hl hfit hcap hroom
    exact ⟨a, ha⟩
  · -- the code sorts the validators first, and sorting forgets their order
    have hl' : p.Electable l' := ⟨fun hnil => hl.occupied (hnil ▸ hperm).nil_eq.symm,
      hperm.nodup_iff.mpr hl.distinct, fun v hv => hl.eligible v (hperm.mem_iff.mp hv)⟩
    have hsort : l'.insertionSort keyLe = l.insertionSort keyLe :=
      List.Perm.eq_of_pairwise (fun a b _ _ => keyLe_antisymm) (pairwise_sort id l')
        (pairwise_sort id l) ((List.perm_insertionSort _ l').trans
          (hperm.trans (List.perm_insertionSort _ l).symm))
    rw [StakePool.plan_eq_room hl, StakePool.plan_eq_room hl', hsort]
  · obtain ⟨-, hcap, rfl⟩ := (hvalid.room_eq_ok hl).mp hlimits
    obtain ⟨a, ha, -⟩ := allocateMoss_ok
      (hvalid.roomy hl (List.perm_insertionSort keyLe l) hcap hroom)
    exact ⟨a, ha⟩

/-- Two validators with the minimum bond share a backing of 7. -/
theorem moss_allocator_exact_two : ∃ (p : StakePool) (l : List Pubkey),
    p.validateV2Invariants = .ok () ∧ p.Electable l
      ∧ ∃ a, p.planMossstakeAllocations 7 l = .ok a := by
  have hp : twoBonded.validateV2Invariants = .ok () := by decide +kernel
  have hl : twoBonded.Electable [⟨2⟩, ⟨1⟩] := by
    refine ⟨by decide, by decide, ?_⟩
    intro v hv
    rcases List.mem_pair.mp hv with rfl | rfl
    · exact ⟨_, rfl, by decide, by decide⟩
    · exact ⟨_, rfl, by decide, by decide⟩
  exact ⟨twoBonded, [⟨2⟩, ⟨1⟩], hp, hl, (moss_allocator_exact hp hl).1.mpr (by decide +kernel)⟩

end Lichen.Staking
