/-
  What replacing the MossStake allocations does to one validator.

  `rebalance_mossstake_allocations` takes every old allocation out and puts the planned ones in.
  Both loops run over distinct validators, so what happens to one of them can be said without the
  others: `removeMoss_fold` and `addMoss_fold`.  The plan has entries for listed validators only.
-/
import Lichen.Staking.EpochValid

open Base HashMap
namespace Lichen.Staking
open MossLimit

/-! ## Whom a plan allocates to -/

/-- Every allocated validator is in the list. -/
def Within (allocations : HashMap Pubkey Nat) (validators : List Pubkey) : Prop :=
  ∀ v a, allocations.get v = some a → v ∈ validators

theorem Within.put (h : Within allocations validators) (hv : v ∈ validators) (a : Nat) :
    Within (allocations.put v a) validators := by
  grind [Within]

theorem within_empty (validators : List Pubkey) : Within ∅ validators := by
  intro v a hv
  simp at hv

theorem allocationsAt_within (limits : List MossLimit) (ratio : Nat) :
    Within (allocationsAt limits ratio) (limits.map validator) := by
  -- generalised over the part of the list that the loop has still to go through
  have hgen : ∀ (l : List MossLimit) (m : HashMap Pubkey Nat), l ⊆ limits →
      Within m (limits.map validator) →
      Within (l.foldl (fun m l =>
        if 0 < l.allocationAt ratio then m.put l.validator (l.allocationAt ratio) else m) m)
        (limits.map validator) := by
    intro l
    induction l with
    | nil =>
      intro m _ hm
      exact hm
    | cons x l ih =>
      intro m _ _
      grind [Within.put]
  exact hgen limits ∅ (fun _ h => h) (within_empty _)

theorem distributeRemainder_within (hm : Within m (limits.map validator))
    (h : distributeRemainder limits n m = .ok r) :
    Within r (limits.map validator) := by
  induction n generalizing m with
  | zero =>
    rw [distributeRemainder, Except.ok.injEq] at h
    exact h ▸ hm
  | succ n ih =>
    rw [distributeRemainder] at h
    split at h
    · simp at h
    · rename_i hl
      simp only [ok_rules] at h
      obtain ⟨x, -, hrest⟩ := h
      -- the candidate is one of the limits
      have hmem := List.mem_of_mem_head? (Option.mem_def.mpr hl)
      rw [List.mem_insertionSort, List.mem_filter] at hmem
      exact ih (hm.put (List.mem_map_of_mem hmem.1) x) hrest

namespace StakePool

variable {p p' : StakePool} {v : Pubkey}

theorem mossBases_spec :
    ∀ {bs : List (Pubkey × Nat × Nat)} {t : Nat} {r : List (Pubkey × Nat × Nat) × Nat},
      tryFold (fun (acc : List (Pubkey × Nat × Nat) × Nat) validator => do
        let entry ← p.mossBase validator
        let total ← okOr (U64.checkedAdd acc.2 entry.1) "MossStake active base overflow"
        pure (acc.1 ++ [(validator, entry)], total)) (bs, t) l = .ok r →
      r.1.map Prod.fst = bs.map Prod.fst ++ l := by
  induction l with
  | nil =>
    simp
  | cons x l ih =>
    intro bs t r h
    obtain ⟨b', hb', hrest⟩ := tryFold_cons_eq_ok.mp h
    simp only [ok_rules] at hb'
    grind

theorem mossLimits_spec : ∀ {ls : List MossLimit} {t : Nat} {r : List MossLimit × Nat},
      tryFold (fun (acc : List MossLimit × Nat) (e : Pubkey × Nat × Nat) => do
        let selfBondLimit ← okOr (U64.checkedMul e.2.2 MAX_VALIDATOR_EFFECTIVE_STAKE_MULTIPLIER)
          s!"validator {e.1} Moss capacity overflow"
        let maximum := min selfBondLimit limit
        let capacity := U64.saturatingSub maximum e.2.1
        let total ← okOr (U64.checkedAdd acc.2 capacity) "MossStake capacity total overflow"
        pure (acc.1 ++ [⟨e.1, e.2.1, e.2.2, maximum, capacity⟩], total)) (ls, t) l = .ok r →
      r.1.map validator = ls.map validator ++ l.map Prod.fst := by
  induction l with
  | nil =>
    simp
  | cons x l ih =>
    intro ls t r h
    obtain ⟨b', hb', hrest⟩ := tryFold_cons_eq_ok.mp h
    simp only [ok_rules] at hb'
    grind

theorem plan_within (h : p.planMossstakeAllocations target active = .ok allocations) :
    Within allocations active := by
  unfold planMossstakeAllocations at h
  simp only [ok_rules] at h
  obtain ⟨-, h⟩ := h
  split at h
  · simp at h
  · simp only [ok_rules] at h
    obtain ⟨bases, hbases, final, -, bps, -, network, -, limits, hlimits, -, h⟩ := h
    have hb := mossBases_spec hbases
    have hl := mossLimits_spec hlimits
    have hvalidators : limits.1.map validator = active.insertionSort keyLe := by
      rw [hl, hb]
      rfl
    have hsub : ∀ m, Within m (limits.1.map validator) → Within m active := by
      intro m hm v a hv
      have hv' := hm v a hv
      rw [hvalidators, List.mem_insertionSort] at hv'
      exact hv'
    split at h
    · rw [pure_eq_ok] at h
      exact h ▸ within_empty active
    · unfold allocateMoss at h
      simp only [ok_rules] at h
      grind [distributeRemainder_within, allocationsAt_within]

/-! ## Taking the old allocations out -/

/-- What MossStake has delegated to `v`. -/
def mossOf (p : StakePool) (v : Pubkey) : Nat := p.delegation v MOSSSTAKE_PROTOCOL_DELEGATOR

/-- An entry that loses `amount` of its delegations; its activity is recomputed. -/
def shed (amount : Nat) (i : StakeInfo) : StakeInfo :=
  ({ i with delegatedAmount := i.delegatedAmount - amount } : StakeInfo).refresh

/-- The delegations after one removal. -/
theorem withoutMoss_delegation (h : p'.delegations =
      if (((p.delegations.get v).getD ∅).remove MOSSSTAKE_PROTOCOL_DELEGATOR).isEmpty = true
      then p.delegations.remove v
      else p.delegations.put v
        (((p.delegations.get v).getD ∅).remove MOSSSTAKE_PROTOCOL_DELEGATOR)) :
    p'.delegation w d
      = if w = v ∧ d = MOSSSTAKE_PROTOCOL_DELEGATOR then 0 else p.delegation w d := by
  have hrem : ∀ d, ((((p.delegations.get v).getD ∅).remove MOSSSTAKE_PROTOCOL_DELEGATOR).get d).getD 0
      = if d = MOSSSTAKE_PROTOCOL_DELEGATOR then 0 else p.delegation v d := by
    intro d
    rw [get_remove, delegation_eq]
    split
    · rfl
    · rfl
  rw [delegation_eq]
  unfold delegationsOf
  by_cases hw : w = v
  · subst hw
    rw [h]
    split
    · rename_i hempty
      -- an empty rest is the same as no map at all
      rw [get_remove_self]
      have hd := hrem d
      rw [isEmpty_iff.mp hempty d] at hd
      grind
    · grind
  · have hsame : p'.delegations.get w = p.delegations.get w := by
      rw [h]
      split
      · exact get_remove_ne _ hw
      · rw [get_put, if_neg hw]
    rw [hsame, if_neg (fun hboth => hw hboth.1), delegation_eq]
    rfl

theorem removeMoss_spec (h : p.removeMoss v = .ok p') :
    (∀ w, p'.stakes.get w = if w = v ∧ 0 < p.mossOf v then (p.stakes.get v).map (shed (p.mossOf v))
      else p.stakes.get w)
    ∧ (∀ w d, p'.delegation w d
      = if w = v ∧ d = MOSSSTAKE_PROTOCOL_DELEGATOR then 0 else p.delegation w d) := by
  have hmoss : p.delegation v MOSSSTAKE_PROTOCOL_DELEGATOR = p.mossOf v := rfl
  simp only [removeMoss, hmoss] at h
  by_cases hpos : 0 < p.mossOf v
  · simp only [hpos, if_true, ok_rules] at h
    obtain ⟨i, hi, d, ⟨-, rfl⟩, t, -, hp'⟩ := h
    refine ⟨fun w => ?_, fun w d => withoutMoss_delegation (by rw [← hp'])⟩
    rw [← hp']
    simp only [get_put, hpos, and_true, hi, Option.map_some]
    rfl
  · simp only [hpos, if_false, pure_eq_ok] at h
    refine ⟨fun w => ?_, fun w d => withoutMoss_delegation (by rw [← h])⟩
    grind

/-- **All removals.** -/
theorem removeMoss_fold (hl : l.Nodup) : ∀ {p q : StakePool}, tryFold removeMoss p l = .ok q →
      (∀ w, q.stakes.get w = if w ∈ l ∧ 0 < p.mossOf w then (p.stakes.get w).map (shed (p.mossOf w))
        else p.stakes.get w)
      ∧ (∀ w d, q.delegation w d
        = if w ∈ l ∧ d = MOSSSTAKE_PROTOCOL_DELEGATOR then 0 else p.delegation w d) := by
  induction l with
  | nil =>
    intro p q h
    rw [tryFold_nil, Except.ok.injEq] at h
    simp [h]
  | cons v l ih =>
    intro p q h
    obtain ⟨hv, hl⟩ := List.nodup_cons.mp hl
    obtain ⟨r, hr, hrest⟩ := tryFold_cons_eq_ok.mp h
    obtain ⟨hstake, hdel⟩ := removeMoss_spec hr
    obtain ⟨hstake', hdel'⟩ := ih hl hrest
    refine ⟨fun w => ?_, fun w d => ?_⟩
    · by_cases hw : w = v
      · subst hw
        rw [hstake', if_neg (fun hboth => hv hboth.1), hstake]
        simp
      · have hmoss : r.mossOf w = p.mossOf w := by
          unfold mossOf
          rw [hdel, if_neg (fun hboth => hw hboth.1)]
        have hsame : r.stakes.get w = p.stakes.get w := by
          rw [hstake, if_neg (fun hboth => hw hboth.1)]
        rw [hstake', hmoss, hsame]
        simp [hw]
    · rw [hdel', hdel]
      by_cases hw : w = v
      · subst hw
        by_cases hd : d = MOSSSTAKE_PROTOCOL_DELEGATOR <;> simp [hd, hv]
      · simp [hw]

/-- A validator that is not in the delegation table has no allocation. -/
theorem mossOf_eq_zero (h : v ∉ p.delegations.keys) : p.mossOf v = 0 := by
  have hnone : p.delegations.get v = none := (HashMap.not_mem_keys_iff _ v).mp h
  unfold mossOf delegation
  rw [hnone]
  rfl

/-! ## Putting the new ones in -/

theorem addMoss_stakes (h : p.addMoss e = .ok p') (hw : w ≠ e.1) :
    p'.stakes.get w = p.stakes.get w := by
  unfold addMoss at h
  grind

/-- A validator without a new allocation keeps its entry. -/
theorem addMoss_fold (hw : ∀ e ∈ l, w ≠ e.1)
    (h : tryFold addMoss p l = .ok q) : q.stakes.get w = p.stakes.get w :=
  tryFold_induct (P := fun r => r.stakes.get w = p.stakes.get w) rfl
    (fun _ e _ he ha hb => (addMoss_stakes hb (hw e he)).trans ha) h

theorem checkpoint_stakes (h : p.checkpointStakingV2ValidatorInner v slot = .ok p') :
    p'.stakes = p.stakes := by
  unfold checkpointStakingV2ValidatorInner at h
  grind

/-- **A validator that the new plan leaves out** loses its allocation, and nothing else happens to
    its entry. -/
theorem rebalance_outside
    (h : p.rebalanceMossstakeAllocations target active slot = .ok p') (hv : v ∉ active) :
    p'.stakes.get v = if 0 < p.mossOf v then (p.stakes.get v).map (shed (p.mossOf v))
      else p.stakes.get v := by
  unfold rebalanceMossstakeAllocations at h
  simp only [ok_rules] at h
  obtain ⟨plan, hplan, q, hq, r, hr, u, hu, -, -, -, -, rfl⟩ := h
  have hout : ∀ e ∈ sortedEntries plan, v ≠ e.1 := by
    rintro ⟨w, a⟩ he rfl
    unfold sortedEntries at he
    rw [List.mem_insertionSort, mem_toList] at he
    exact hv (plan_within hplan _ a he)
  have hu' : u.stakes = r.stakes := tryFold_induct (P := fun t => t.stakes = r.stakes) rfl
      (fun a w b _ ha hb => (checkpoint_stakes hb).trans ha) hu
  rw [hu', addMoss_fold hout hr, (removeMoss_fold p.delegations.keys_nodup hq).1 v]
  grind [mossOf_eq_zero]

end StakePool
end Lichen.Staking
