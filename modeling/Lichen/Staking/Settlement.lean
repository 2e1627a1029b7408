/-
  Settling an epoch.

  The operator of every planned validator earns its part and claims at once, and a claim takes all
  that has been earned: what is booked is the plan plus whatever the validators had not claimed
  before.  The settlement compares it with the plan, so it goes through exactly when there was
  nothing of the kind (`apply_spec`).  A claim moves no stake, and the pool stays valid.
-/
import Lichen.Staking.RewardPlan
import Lichen.Staking.Lighter

open Base HashMap U64
namespace Lichen.Staking
open ValidatorEpochRewardPlan List

/-! ## Claiming -/

/-- Two entries that only differ in what they have earned and owe. -/
structure StakeInfo.SameStake (i i' : StakeInfo) : Prop where
  validator : i'.validator = i.validator
  amount : i'.amount = i.amount
  delegated : i'.delegatedAmount = i.delegatedAmount
  active : i'.isActive = i.isActive
  fingerprint : i'.machineFingerprint = i.machineFingerprint
  blocks : i'.blocksProduced = i.blocksProduced

theorem StakeInfo.debtFraction_le (i : StakeInfo) (reward slot n : Nat) :
    (i.debtFraction reward slot n).1 ≤ reward := by
  have hboost : U128.toU64 (reward * 90 / 100) ≤ reward := by
    have hmod : U128.toU64 (reward * 90 / 100) ≤ reward * 90 / 100 := Nat.mod_le _ _
    omega
  have hbonus : U128.toU64 (reward / 2 * PERFORMANCE_BONUS_BPS / 10000) ≤ reward := by
    have hmod : U128.toU64 (reward / 2 * PERFORMANCE_BONUS_BPS / 10000)
        ≤ reward / 2 * PERFORMANCE_BONUS_BPS / 10000 := Nat.mod_le _ _
    have hform : PERFORMANCE_BONUS_BPS = 15000 := rfl
    rw [hform] at hmod ⊢
    omega
  unfold debtFraction
  split
  · exact hboost
  · simp only
    split
    · exact hbonus
    · simp only
      omega

/-- A claim pays out everything that was earned, and touches no stake. -/
theorem StakeInfo.claimRewards_spec (i : StakeInfo) (slot n : Nat) :
    i.SameStake (i.claimRewards slot n).1
      ∧ (i.claimRewards slot n).2.1 + (i.claimRewards slot n).2.2 = i.rewardsEarned := by
  have hle := i.debtFraction_le i.rewardsEarned slot n
  unfold claimRewards
  split
  · split
    · exact ⟨⟨rfl, rfl, rfl, rfl, rfl, rfl⟩, rfl⟩
    · refine ⟨⟨rfl, rfl, rfl, rfl, rfl, rfl⟩, ?_⟩
      simp only
      omega
  · exact ⟨⟨rfl, rfl, rfl, rfl, rfl, rfl⟩, rfl⟩

namespace StakePool

variable {p : StakePool}

/-- An entry with the same stake does not matter to any check. -/
theorem validate_sameStake (hp : p.validateV2Invariants = .ok ()) (hi : p.stakes.get v = some i)
    (hsame : i.SameStake i') :
    ({ p with stakes := p.stakes.put v i' } : StakePool).validateV2Invariants = .ok () := by
  obtain ⟨hvalid, hcap, hepoch⟩ := validateV2Invariants_eq_ok.mp hp
  have hact := hvalid.active v i hi
  have hvalid' : ({ p with stakes := p.stakes.put v i' } : StakePool).Valid := by
    refine hvalid.setBond hi rfl hsame.validator ?_ ?_ rfl hsame.delegated ?_ hvalid.fits
      hvalid.requests rfl hsame.fingerprint
    · rw [hsame.amount]
      exact hvalid.bonded v i hi
    · rw [hsame.active, hsame.amount, hsame.delegated]
      exact hact
    · rw [hsame.amount]
  have hcap' : ({ p with stakes := p.stakes.put v i' } : StakePool).Capped := by
    intro w j hj hjact
    simp only [get_put] at hj
    split at hj
    · cases hj
      rw [hsame.active] at hjact
      rw [hsame.amount, hsame.delegated]
      exact hcap v i hi hjact
    · exact hcap w j hj hjact
  refine validateV2Invariants_eq_ok.mpr ⟨hvalid', hcap', fun s hs => ?_⟩
  refine (hepoch s hs).frame (fun w a j ha hj => ?_) (fun w a ha => rfl)
  grind [StakeInfo.SameStake.amount, StakeInfo.SameStake.delegated, StakeInfo.SameStake.blocks]

/-- What a validator has earned and not claimed. -/
def unclaimed (p : StakePool) (v : Pubkey) : Nat :=
  p.stakes.share (fun _ i => i.rewardsEarned) v

end StakePool

/-! ## One validator -/

section
variable {t : SettleProgress}

/-- What a settled validator adds to the books. -/
theorem settleStep_books (hexact : plan.Exact) (h : settleStep start n t plan = .ok t') :
    ∃ i i', t.updated.stakes.get plan.validator = some i ∧ i.SameStake i'
      ∧ t'.updated = { t.updated with stakes := t.updated.stakes.put plan.validator i' }
      ∧ t'.totalMinted + t'.bootstrapDebtUnminted = t.totalMinted + t.bootstrapDebtUnminted
        + (i.rewardsEarned + plan.performanceAdjustedReward) := by
  unfold settleStep at h
  simp only [ok_rules] at h
  obtain ⟨planned, ⟨-, rfl⟩, i, hi, earned, ⟨hearned, -⟩, d, hd, m, ⟨-, rfl⟩, m', ⟨-, rfl⟩, b,
    ⟨-, rfl⟩, rfl⟩ := h
  obtain ⟨-, rfl⟩ := (creditTotal_eq_ok (Nat.two_pow_pos 64)).mp hd
  have hadd : (i.addReward (plan.selfBondReward + plan.commissionReward) start).rewardsEarned
      = i.rewardsEarned + (plan.selfBondReward + plan.commissionReward) :=
    saturatingAdd_of_lt hearned
  obtain ⟨hsame, hclaim⟩ := (i.addReward (plan.selfBondReward + plan.commissionReward)
    start).claimRewards_spec start n
  rw [hadd] at hclaim
  unfold ValidatorEpochRewardPlan.Exact at hexact
  refine ⟨i, _, hi, { hsame with }, rfl, ?_⟩
  simp only
  omega

/-- A validator that has nothing unclaimed can be settled. -/
theorem exists_settleStep (hexact : plan.Exact) (hi : t.updated.stakes.get plan.validator = some i)
    (hnone : i.rewardsEarned = 0)
    (hfit : t.totalMinted + t.bootstrapDebtUnminted + plan.performanceAdjustedReward < 2 ^ 64) :
    ∃ t', settleStep start n t plan = .ok t' := by
  unfold ValidatorEpochRewardPlan.Exact at hexact
  have hadd : (i.addReward (plan.selfBondReward + plan.commissionReward) start).rewardsEarned
      = plan.selfBondReward + plan.commissionReward := by
    unfold StakeInfo.addReward
    rw [hnone]
    exact (saturatingAdd_of_lt (by omega)).trans (zero_add _)
  obtain ⟨-, hclaim⟩ := (i.addReward (plan.selfBondReward + plan.commissionReward)
    start).claimRewards_spec start n
  rw [hadd] at hclaim
  unfold settleStep
  simp only [ok_rules]
  exact ⟨_, _, ⟨by omega, rfl⟩, i, hi, _, ⟨by omega, rfl⟩, _,
    (creditTotal_eq_ok (Nat.two_pow_pos 64)).mpr ⟨by omega, rfl⟩, _, ⟨by omega, rfl⟩, _,
    ⟨by omega, rfl⟩, _, ⟨by omega, rfl⟩, rfl⟩

end

/-! ## All of them -/

/-- What a plan of `p` books for one validator. -/
def ValidatorEpochRewardPlan.booked (p : StakePool) (plan : ValidatorEpochRewardPlan) : Nat :=
  p.unclaimed plan.validator + plan.performanceAdjustedReward

/-- The invariant of the settlement: the pool is valid, and validators to come are untouched. -/
structure SettleInv (p : StakePool) (total : Nat) (t : SettleProgress)
    (rest : List ValidatorEpochRewardPlan) : Prop where
  valid : t.updated.validateV2Invariants = .ok ()
  epoch : t.updated.stakingV2State = p.stakingV2State
  fresh : ∀ q ∈ rest, t.updated.stakes.get q.validator = p.stakes.get q.validator
  distinct : (rest.map ValidatorEpochRewardPlan.validator).Nodup
  exact : ∀ q ∈ rest, q.Exact
  books : t.totalMinted + t.bootstrapDebtUnminted
    + (rest.map (ValidatorEpochRewardPlan.booked p)).sum = total

section
variable {total : Nat} {plan : ValidatorEpochRewardPlan}

theorem SettleInv.step (h : SettleInv p total t (plan :: rest))
    (ht : settleStep start n t plan = .ok t') : SettleInv p total t' rest := by
  obtain ⟨i, i', hi, hsame, hupd, hbooks⟩ := settleStep_books (h.exact plan mem_cons_self) ht
  obtain ⟨hnew, hdistinct⟩ := nodup_cons.mp h.distinct
  have hprior : p.unclaimed plan.validator = i.rewardsEarned := by
    rw [h.fresh plan mem_cons_self] at hi
    exact share_of_get hi
  refine ⟨?_, ?_, ?_, hdistinct, fun q hq => h.exact q (mem_cons_of_mem plan hq), ?_⟩
  · rw [hupd]
    exact StakePool.validate_sameStake h.valid hi hsame
  · rw [hupd]
    exact h.epoch
  · intro q hq
    have hne : q.validator ≠ plan.validator := by
      intro heq
      exact hnew (heq ▸ mem_map_of_mem hq)
    grind [fresh]
  · have hsum := h.books
    grind [booked]

theorem SettleInv.exists_step (start n : Nat) (h : SettleInv p total t (plan :: rest))
    (hknown : ∃ i, p.stakes.get plan.validator = some i) (hnone : p.unclaimed plan.validator = 0)
    (hfit : total < 2 ^ 64) : ∃ t', settleStep start n t plan = .ok t' := by
  obtain ⟨i, hi⟩ := hknown
  have hget : t.updated.stakes.get plan.validator = some i := by
    rw [h.fresh plan mem_cons_self, hi]
  have hprior : p.unclaimed plan.validator = i.rewardsEarned := HashMap.share_of_get hi
  refine exists_settleStep (h.exact plan mem_cons_self) hget (by omega) ?_
  have hsum := h.books
  rw [map_cons, sum_cons] at hsum
  unfold booked at hsum
  omega

end

namespace StakePool

variable {p : StakePool} {s : StakingV2EpochState} {epochEnd budget : Nat}
  {plan : EpochSecurityRewardPlan}

/-- **Applying a plan** succeeds exactly when its validators have nothing unclaimed, and leaves a
    valid pool. -/
theorem apply_spec (start : Nat) (hp : p.validateV2Invariants = .ok ())
    (hplan : Planned s epochEnd budget plan)
    (hbudget : budget < 2 ^ 64)
    (hdistinct : (plan.validators.map validator).Nodup)
    (hknown : ∀ q ∈ plan.validators, ∃ i, p.stakes.get q.validator = some i) :
    (∀ r, p.applyV2EpochRewardPlan plan start = .ok r →
      (∀ q ∈ plan.validators, p.unclaimed q.validator = 0)
        ∧ r.2.validateV2Invariants = .ok () ∧ r.2.stakingV2State = p.stakingV2State)
    ∧ ((∀ q ∈ plan.validators, p.unclaimed q.validator = 0) →
      ∃ r, p.applyV2EpochRewardPlan plan start = .ok r) := by
  have hbooked : (plan.validators.map (booked p)).sum
      = (plan.validators.map fun q => p.unclaimed q.validator).sum + plan.assignedReward := by
    rw [hplan.assigned, ← sum_map_add]
    rfl
  have hstart : SettleInv p (plan.validators.map (booked p)).sum ⟨p, 0, 0, []⟩ plan.validators :=
    ⟨hp, rfl, fun q _ => rfl, hdistinct, hplan.exact, by simp⟩
  constructor
  · intro r hr
    unfold applyV2EpochRewardPlan at hr
    simp only [ok_rules, not_not, ne_eq] at hr
    obtain ⟨t, ht, x, ⟨-, rfl⟩, hbalance, hvalid, rfl⟩ := hr
    have hend := tryFold_rest (P := SettleInv p _) (fun t plan rest t' h ht => h.step ht) hstart ht
    have hbooks := hend.books
    rw [map_nil, sum_nil, add_zero, hbooked] at hbooks
    have hzero : (plan.validators.map fun q => p.unclaimed q.validator).sum = 0 := by omega
    refine ⟨fun q hq => ?_, hvalid, hend.epoch⟩
    exact sum_eq_zero_iff.mp hzero _ (mem_map_of_mem hq)
  · intro hnone
    have hzero : (plan.validators.map fun q => p.unclaimed q.validator).sum = 0 := by
      rw [sum_eq_zero_iff]
      intro x hx
      obtain ⟨q, hq, rfl⟩ := mem_map.mp hx
      exact hnone q hq
    have hbounded := hplan.bounded
    obtain ⟨t, ht, hend, -⟩ := tryFold_total (f := settleStep start p.numActive)
      (P := fun t rest => SettleInv p (plan.validators.map (booked p)).sum
        t rest ∧ rest ⊆ plan.validators)
      (fun t q rest h => by
        obtain ⟨hinv, hsub⟩ := h
        have hmem := hsub mem_cons_self
        obtain ⟨t', ht'⟩ := SettleInv.exists_step start p.numActive hinv
          (hknown q hmem) (hnone q hmem) (by omega)
        exact ⟨t', ht', hinv.step ht', fun x hx => hsub (mem_cons_of_mem q hx)⟩)
      ⟨hstart, fun x hx => hx⟩
    have hbooks := hend.books
    rw [map_nil, sum_nil, add_zero, hbooked] at hbooks
    unfold applyV2EpochRewardPlan
    simp only [ok_rules]
    exact ⟨_, t, ht, _, ⟨by omega, rfl⟩, by omega, hend.valid, rfl⟩

/-- Marking the epoch as settled. -/
def markSettled (p : StakePool) (s : StakingV2EpochState) : StakePool :=
  { p with stakingV2State := some { s with lastSettledEpoch := some s.currentEpoch } }

theorem EpochOk.settled (h : p.EpochOk s) :
    p.EpochOk { s with lastSettledEpoch := some s.currentEpoch } := by
  have hheader := h.header
  unfold checkEpochHeader at hheader
  simp only [ok_rules] at hheader
  obtain ⟨x, hx, hsize, hfrozen⟩ := h.frozen
  refine { h with header := ?_, frozen := ⟨x, hx, hsize, fun v a ha => ?_⟩ }
  · grind [checkEpochHeader]
  · obtain ⟨howner, hweight, hpower, hexposed, hcommission⟩ := hfrozen v a ha
    exact ⟨howner, hweight, hpower, hexposed, hcommission⟩

theorem validate_markSettled (hp : p.validateV2Invariants = .ok ())
    (hs : p.stakingV2State = some s) : (p.markSettled s).validateV2Invariants = .ok () := by
  obtain ⟨hvalid, hcap, hepoch⟩ := validateV2Invariants_eq_ok.mp hp
  refine validateV2Invariants_eq_ok.mpr ⟨hvalid.congr rfl rfl rfl rfl rfl, hcap, ?_⟩
  intro s' hs'
  cases hs'
  exact (hepoch s hs).settled.frame (fun w a j _ hj => ⟨j, hj, rfl, rfl, le_refl _⟩)
    (fun w a _ => rfl)

/-- What the end of an epoch needs, besides its end being a slot: averages within their cap, and
    nothing left unclaimed by the validators of the epoch when there is a reward to hand out. -/
structure Closable (p : StakePool) (s : StakingV2EpochState) (budget : Nat) : Prop where
  fits : s.epochStartSlot + SLOTS_PER_EPOCH < 2 ^ 64
  averaged : s.AverageCapped (s.epochStartSlot + SLOTS_PER_EPOCH)
  claimed : budget ≠ 0 → s.averageStake (s.epochStartSlot + SLOTS_PER_EPOCH) ≠ 0 →
    ∀ v a i, s.validators.get v = some a → p.stakes.get v = some i → i.rewardsEarned = 0

section
variable (hplan : Planned s epochEnd budget plan)
include hplan

/-- The validators of a plan are those of the epoch, unless there is nothing to hand out. -/
theorem forall_planned {P : Pubkey → Prop} :
    (∀ q ∈ plan.validators, P q.validator) ↔ (budget ≠ 0 → s.averageStake epochEnd ≠ 0 →
      ∀ v a, s.validators.get v = some a → P v) := by
  have hmap : (∀ q ∈ plan.validators, P q.validator)
      ↔ ∀ v ∈ plan.validators.map validator, P v := by simp
  rw [hmap, hplan.keys]
  by_cases hnone : budget = 0 ∨ s.averageStake epochEnd = 0
  · grind
  · rw [if_neg hnone]
    constructor
    · intro h _ _ v a ha
      exact h v (mem_map_of_mem (f := Prod.fst) (mem_sortedEntries.mpr ha))
    · intro h v hv
      obtain ⟨e, he, rfl⟩ := mem_map.mp hv
      exact h (fun h0 => hnone (.inl h0)) (fun h0 => hnone (.inr h0)) e.1 e.2
        (mem_sortedEntries.mp he)

theorem nodup_planned : (plan.validators.map validator).Nodup := by
  rw [hplan.keys]
  split
  · exact nodup_nil
  · exact nodup_sortedEntries s.validators

/-- A plan for an epoch in order can be applied when nothing is left unclaimed. -/
theorem unclaimed_planned (hepoch : p.EpochOk s) :
    (∀ q ∈ plan.validators, p.unclaimed q.validator = 0) ↔ (budget ≠ 0 →
      s.averageStake epochEnd ≠ 0 → ∀ v a i, s.validators.get v = some a →
        p.stakes.get v = some i → i.rewardsEarned = 0) := by
  rw [forall_planned (P := fun v => p.unclaimed v = 0) hplan]
  constructor
  · grind [unclaimed, share_of_get]
  · intro h hb hstake v a ha
    obtain ⟨i, hi, -⟩ := (hepoch.current v a ha).bond
    rw [← h hb hstake v a i ha hi]
    exact share_of_get hi

theorem known_planned (hepoch : p.EpochOk s) :
    ∀ q ∈ plan.validators, ∃ i, p.stakes.get q.validator = some i := by
  rw [forall_planned (P := fun v => ∃ i, p.stakes.get v = some i) hplan]
  intro _ _ v a ha
  obtain ⟨i, hi, -⟩ := (hepoch.current v a ha).bond
  exact ⟨i, hi⟩

end

/-- **Closing an epoch.** -/
theorem settle_iff (hp : p.validateV2Invariants = .ok ()) (hs : p.stakingV2State = some s)
    (htimed : StakeTimed s epochEnd) (hend : epochEnd = s.epochStartSlot + SLOTS_PER_EPOCH)
    (hweight : (s.validators.sumBy fun _ a => a.leaderWeight) < 2 ^ 64)
    (hopen : s.lastSettledEpoch ≠ some s.currentEpoch) (hbudget : budget < 2 ^ 64) :
    (∃ r, p.closeEpoch epochEnd budget = .ok r) ↔ p.Closable s budget := by
  subst hend
  unfold closeEpoch
  simp only [bind_eq_ok]
  by_cases hfit : s.epochStartSlot + SLOTS_PER_EPOCH < 2 ^ 64
  swap
  · -- an epoch whose end is not a slot
    refine ⟨fun ⟨r, x, hx, _⟩ => ?_, fun h => absurd h.fits hfit⟩
    unfold stakingV2EpochRewardInputs at hx
    grind
  have hepoch := (validateV2Invariants_eq_ok.mp hp).2.2 s hs
  obtain ⟨x, hx, hweights, hrated⟩ := inputs_ok htimed rfl hweight hp hs hfit
  obtain ⟨hrefused, hplanned⟩ := plan_spec hepoch htimed rfl hrated hbudget s.currentEpoch hp
  constructor
  · rintro ⟨r, x', hx', hr⟩
    obtain rfl : x = x' := Except.ok.inj (hx.symm.trans hx')
    rw [hweights] at hr
    unfold settleV2EpochRewardsForWeights at hr
    simp only [bind_eq_ok] at hr
    obtain ⟨-, -, -, -, -, -, -, -, -, -, plan, hplan, applied, happlied, -⟩ := hr
    obtain ⟨hcap, hspec⟩ := hrefused plan hplan
    obtain ⟨hzero, -⟩ := (apply_spec _ hp hspec hbudget (nodup_planned hspec)
      (known_planned hspec hepoch)).1 applied happlied
    exact ⟨hfit, hcap, (unclaimed_planned hspec hepoch).mp hzero⟩
  · rintro ⟨-, hcap, hnone⟩
    obtain ⟨plan, hplan⟩ := hplanned hcap
    obtain ⟨-, hspec⟩ := hrefused plan hplan
    obtain ⟨happly, hexists⟩ := apply_spec s.epochStartSlot hp hspec hbudget
      (nodup_planned hspec) (known_planned hspec hepoch)
    obtain ⟨applied, happlied⟩ := hexists ((unclaimed_planned hspec hepoch).mpr hnone)
    obtain ⟨-, hvalid, hstate⟩ := happly applied happlied
    have hfinal := validate_markSettled hvalid (hstate.trans hs)
    refine ⟨(applied.1, applied.2.markSettled s), x, hx, ?_⟩
    rw [hweights]
    unfold settleV2EpochRewardsForWeights
    simp only [ok_rules]
    exact ⟨x, hx, by simp [hweights], s, hs, hopen, by simp, plan, hplan, applied, happlied, s,
      hstate.trans hs, hfinal, rfl⟩

end StakePool
end Lichen.Staking
