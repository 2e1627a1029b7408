/-
  What a pool that passes `validate_v2_invariants` looks like.

  Beyond `Valid` there are two concentration rules and the epoch state.

  1. `Capped` — an active validator is at most five times its self-bond.
  2. `EpochOk.saturated` — a validator of the epoch has at most its share of the epoch's stake;
     the share depends on the number of validators and on what they have together, so a change of
     one of them moves the limit of all.
  3. `Current` — the accumulators of a validator hold its present self-bond and delegations; this
     is what a checkpoint restores.
  4. `Frozen` — what was fixed when the epoch opened: power, leader weight, commission, exposure.

  `validateV2Invariants_eq_ok` says that the function accepts exactly such pools.
-/
import Lichen.Staking.Bookkeeping

open Base HashMap
namespace Lichen.Staking

/-! ## The saturation limit -/

/-- The cap of `n ≠ 0` validators, in basis points. -/
def saturationBps (n : Nat) : Nat :=
  if 20 ≤ n then MATURE_VALIDATOR_SATURATION_BPS
  else min (max (MATURE_VALIDATOR_SATURATION_BPS + 9500 * (20 - n) / 19) ((10000 + n - 1) / n)) 10000

theorem saturationBps_le (n : Nat) : saturationBps n ≤ 10000 := by
  unfold saturationBps
  split
  · decide
  · exact min_le_right _ _

theorem validatorSaturationCapBps_eq_ok :
    validatorSaturationCapBps n = .ok b ↔ n ≠ 0 ∧ b = saturationBps n := by
  unfold validatorSaturationCapBps saturationBps
  by_cases hn : n = 0
  · simp [hn]
  · by_cases h20 : 20 ≤ n
    · grind
    · simp only [hn, h20, if_false, ok_rules, U64.checkedMul_eq_some, ne_eq, not_false_eq_true, true_and]
      grind [MATURE_VALIDATOR_SATURATION_BPS, U64.saturatingSub]

/-- The most a validator may have of an epoch's `stake` that `n` validators share. -/
def saturationLimit (stake n : Nat) : Nat := (stake * saturationBps n + 9999) / 10000

theorem saturationLimit_le (stake n : Nat) : saturationLimit stake n ≤ stake := by
  have hbps := saturationBps_le n
  have hmul : stake * saturationBps n ≤ stake * 10000 := Nat.mul_le_mul_left stake hbps
  unfold saturationLimit
  omega

theorem mulDivCeil_eq_ok (h : stake < 2 ^ 64) :
    mulDivCeil stake (saturationBps n) 10000 = .ok limit ↔ limit = saturationLimit stake n := by
  have hbps := saturationBps_le n
  have hle := saturationLimit_le stake n
  have hform : (stake * saturationBps n + 10000 - 1) / 10000 = saturationLimit stake n := rfl
  unfold mulDivCeil
  simp only [ok_rules, U128.checkedMul_eq_some, U128.tryToU64_eq_some]
  grind

/-! ## The exposure snapshots -/

variable {x : ValidatorSlashExposure}

theorem ValidatorSlashExposure.total_eq_ok (h : x.selfBond < 2 ^ 64) :
    x.total = .ok t ↔ x.selfBond + x.delegations.sumBy (fun _ n => n) < 2 ^ 64
      ∧ t = x.selfBond + x.delegations.sumBy (fun _ n => n) := by
  unfold ValidatorSlashExposure.total
  exact tryFold_add_eq_ok h

theorem StakePool.checkExposure_eq_ok :
    StakePool.checkExposure epoch (v, x) = .ok u ↔ x.selfBond ≠ 0
      ∧ (∀ d n, x.delegations.get d = some n → d ≠ v ∧ n ≠ 0) ∧ ∃ t, x.total = .ok t := by
  unfold StakePool.checkExposure
  simp only [ok_rules, List.any_eq_true, not_exists, not_and, forall_mem_toList, decide_eq_true_eq,
    not_or, and_true, ne_eq]

theorem StakePool.checkSnapshot_eq_ok {current epoch x} :
    StakePool.checkSnapshot current (epoch, x) = .ok u ↔
      x.epoch = epoch ∧ x.startSlot = epochStartSlot epoch
      ∧ (current - SLASHING_V2_EVIDENCE_WINDOW_EPOCHS ≤ epoch ∧ epoch ≤ current)
      ∧ ∀ v e, x.validators.get v = some e → StakePool.checkExposure epoch (v, e) = .ok () := by
  unfold StakePool.checkSnapshot U64.saturatingSub
  grind

/-! ## The epoch's validators -/

/-- What was fixed for a validator when the epoch opened. -/
structure ValidatorEpochAccounting.Frozen (s : StakingV2EpochState)
    (exposure : EpochSlashExposureSnapshot) (v : Pubkey) (a : ValidatorEpochAccounting) : Prop where
  owner : a.validator = v
  weight : a.leaderWeight ≠ 0
  power : a.consensusPower ≠ 0
  exposed : ∃ x, exposure.validators.get v = some x ∧ x.total = .ok a.consensusPower
  commission : ∃ c, s.commissions.get v = some c ∧ a.commissionBps = c.currentBps

namespace StakePool

variable {p p' : StakePool} {v : Pubkey} {s : StakingV2EpochState}

/-- The accumulators of a validator hold what the pool has. -/
structure Current (p : StakePool) (start : Nat) (v : Pubkey) (a : ValidatorEpochAccounting) :
    Prop where
  bond : ∃ i, p.stakes.get v = some i ∧ a.selfBond.amount = i.amount
    ∧ a.productionBaseline ≤ i.blocksProduced
  fresh : start ≤ a.selfBond.lastCheckpointSlot
  delegations : ∀ d x, a.delegations.get d = some x →
    d ≠ v ∧ start ≤ x.lastCheckpointSlot ∧ x.amount = p.delegation v d
  covered : ∀ d n, (p.delegationsOf v).get d = some n →
    ∃ x, a.delegations.get d = some x ∧ x.amount = n

/-- The effective stake of one validator. -/
def effective (p : StakePool) (v : Pubkey) : Nat := p.stakes.share (fun _ i => i.totalStake) v

/-- The effective stake of the validators of an epoch. -/
def epochStake (p : StakePool) (s : StakingV2EpochState) : Nat :=
  s.validators.sumBy fun v _ => p.effective v

theorem effective_of_get (hi : p.stakes.get v = some i) : p.effective v = i.totalStake :=
  share_of_get hi

theorem Valid.effective_eq (h : p.Valid) (hi : p.stakes.get v = some i) :
    p.effective v = i.amount + i.delegatedAmount := by
  rw [effective_of_get hi, h.totalStake_eq hi]

theorem Valid.epochStake_le (h : p.Valid) (s : StakingV2EpochState) :
    p.epochStake s ≤ p.totalStaked := by
  have hshare := sumBy_share_le p.stakes (fun _ i => i.totalStake) s.validators
  have hall : p.stakes.sumBy (fun _ i => i.totalStake) ≤ p.bondedTotal :=
    sumBy_le_sumBy fun v i hi => Nat.le_of_eq (h.totalStake_eq hi)
  rw [h.totals]
  exact le_trans hshare hall

theorem activeEffectiveStake_eq_ok : p.activeEffectiveStake s = .ok t ↔
      (∀ v a, s.validators.get v = some a → ∃ i, p.stakes.get v = some i)
        ∧ p.epochStake s < 2 ^ 64 ∧ t = p.epochStake s := by
  unfold activeEffectiveStake
  rw [tryFold_sum_eq_ok (fun e => ∃ i, p.stakes.get e.1 = some i) (fun e => p.effective e.1)
    (fun t e c => ?_) (Nat.two_pow_pos 64), forall_mem_toList, zero_add]
  · rfl
  · simp only [ok_rules]
    constructor
    · grind [effective_of_get]
    · grind [effective_of_get]

/-! ## The epoch state -/

/-- The epoch state of a pool is in order. -/
structure EpochOk (p : StakePool) (s : StakingV2EpochState) : Prop where
  header : checkEpochHeader s = .ok ()
  commissions : ∀ v c, s.commissions.get v = some c → c.validate = .ok ()
  retained : s.slashExposureSnapshots.size ≤ SLASHING_V2_EVIDENCE_WINDOW_EPOCHS + 1
  snapshots : ∀ e x, s.slashExposureSnapshots.get e = some x →
    checkSnapshot s.currentEpoch (e, x) = .ok ()
  frozen : ∃ exposure, s.slashExposureSnapshots.get s.currentEpoch = some exposure
    ∧ exposure.validators.size = s.validators.size
    ∧ ∀ v a, s.validators.get v = some a → a.Frozen s exposure v
  occupied : s.validators.size ≠ 0
  current : ∀ v a, s.validators.get v = some a → p.Current s.epochStartSlot v a
  fits : p.epochStake s < 2 ^ 64
  saturated : ∀ v a, s.validators.get v = some a →
    p.effective v ≤ saturationLimit (p.epochStake s) s.validators.size

variable {a : ValidatorEpochAccounting}

theorem checkDelegationAccounting_eq_ok : p.checkDelegationAccounting start v a = .ok u ↔
      (∀ d x, a.delegations.get d = some x →
        d ≠ v ∧ start ≤ x.lastCheckpointSlot ∧ x.amount = p.delegation v d)
      ∧ (∀ d n, (p.delegationsOf v).get d = some n →
        ∃ x, a.delegations.get d = some x ∧ x.amount = n) := by
  unfold checkDelegationAccounting delegationsOf
  simp only [ok_rules, forEach_eq_ok, forall_mem_toList, not_not, ne_eq, not_lt, Option.map_eq_some_iff]

theorem checkAccounting_eq_ok : p.checkAccounting s exposure limit (v, a) = .ok u ↔
      a.Frozen s exposure v ∧ p.Current s.epochStartSlot v a ∧ p.effective v ≤ limit := by
  unfold checkAccounting
  simp only [ok_rules, checkDelegationAccounting_eq_ok, not_not, ne_eq, not_lt]
  constructor
  · rintro ⟨hown, hw, hpow, x, hx, n, hn, rfl, hfresh, i, hi, hlim, hbond, hbase, c, hc, hcomm, hdel,
      hcov⟩
    rw [effective_of_get hi]
    exact ⟨⟨hown, hw, hpow, ⟨x, hx, hn⟩, c, hc, hcomm⟩, ⟨⟨i, hi, hbond, hbase⟩, hfresh, hdel, hcov⟩,
      hlim⟩
  · rintro ⟨⟨hown, hw, hpow, ⟨x, hx, hn⟩, c, hc, hcomm⟩, ⟨⟨i, hi, hbond, hbase⟩, hfresh, hdel, hcov⟩,
      hlim⟩
    grind [effective_of_get]

theorem validateStakingV2State_eq_ok :
    p.validateStakingV2State s = .ok u ↔ p.EpochOk s := by
  unfold validateStakingV2State
  simp only [ok_rules, forEach_eq_ok, mapErr_eq_ok, forall_mem_toList]
  simp only [activeEffectiveStake_eq_ok, validatorSaturationCapBps_eq_ok, checkAccounting_eq_ok,
    not_not, ne_eq, not_lt]
  constructor
  · rintro ⟨hhead, hcomm, hret, cur, hcur, hsnap, hsize, t, ⟨hknown, hfit, rfl⟩, b, ⟨hocc, rfl⟩,
      limit, hlimit, hall⟩
    obtain rfl := (mulDivCeil_eq_ok hfit).mp hlimit
    exact
      { header := hhead
        commissions := hcomm
        retained := hret
        snapshots := hsnap
        frozen := ⟨cur, hcur, hsize, fun v a ha => (hall v a ha).1⟩
        occupied := hocc
        current := fun v a ha => (hall v a ha).2.1
        fits := hfit
        saturated := fun v a ha => (hall v a ha).2.2 }
  · intro h
    obtain ⟨cur, hcur, hsize, hfrozen⟩ := h.frozen
    have hknown : ∀ v a, s.validators.get v = some a → ∃ i, p.stakes.get v = some i := by
      intro v a ha
      obtain ⟨i, hi, -⟩ := (h.current v a ha).bond
      exact ⟨i, hi⟩
    refine ⟨h.header, h.commissions, h.retained, cur, hcur, h.snapshots, hsize, _,
      ⟨hknown, h.fits, rfl⟩, _, ⟨h.occupied, rfl⟩, _, (mulDivCeil_eq_ok h.fits).mpr rfl, ?_⟩
    intro v a ha
    exact ⟨hfrozen v a ha, h.current v a ha, h.saturated v a ha⟩

/-! ## The rules of Staking V2 -/

/-- No active validator has more than five times its self-bond. -/
def Capped (p : StakePool) : Prop :=
  ∀ v i, p.stakes.get v = some i → i.isActive = true →
    i.amount + i.delegatedAmount ≤ MAX_VALIDATOR_EFFECTIVE_STAKE_MULTIPLIER * i.amount

theorem checkMultiplier_eq_ok (h : p.Valid) (hi : p.stakes.get v = some i) :
    checkMultiplier (v, i) = .ok u ↔ (i.isActive = true →
      i.amount + i.delegatedAmount ≤ MAX_VALIDATOR_EFFECTIVE_STAKE_MULTIPLIER * i.amount) := by
  unfold checkMultiplier
  cases hact : i.isActive with
  | false => simp
  | true =>
    have hb := h.bonded v i hi
    have hfit : i.amount * MAX_VALIDATOR_EFFECTIVE_STAKE_MULTIPLIER < 2 ^ 64 := by
      unfold MAX_VALIDATOR_STAKE at hb
      unfold MAX_VALIDATOR_EFFECTIVE_STAKE_MULTIPLIER
      omega
    simp only [Bool.true_eq_false, if_false, ok_rules, U64.checkedMul_eq_some, not_lt,
      h.totalStake_eq hi, forall_const, mul_comm MAX_VALIDATOR_EFFECTIVE_STAKE_MULTIPLIER]
    grind

theorem Valid.rules_eq_ok (h : p.Valid) :
    p.validateV2Rules = .ok u ↔ p.Capped ∧ ∀ s, p.stakingV2State = some s → p.EpochOk s := by
  unfold validateV2Rules
  simp only [ok_rules, forEach_eq_ok, forall_mem_toList]
  have hcap : (∀ v i, p.stakes.get v = some i → checkMultiplier (v, i) = .ok ()) ↔ p.Capped :=
    forall_congr' fun v => forall_congr' fun i => forall_congr' fun hi => checkMultiplier_eq_ok h hi
  rw [hcap]
  refine and_congr_right fun _ => ?_
  cases hs : p.stakingV2State with
  | none => exact ⟨fun _ s hs => absurd hs (by simp), fun _ => rfl⟩
  | some s =>
    simp only [validateStakingV2State_eq_ok, Option.some.injEq, forall_eq']

/-- **The check of Staking V2 accepts exactly these pools.** -/
theorem validateV2Invariants_eq_ok : p.validateV2Invariants = .ok u ↔
      p.Valid ∧ p.Capped ∧ ∀ s, p.stakingV2State = some s → p.EpochOk s := by
  unfold validateV2Invariants
  rw [bind_unit_eq_ok, validateInvariants_eq_ok]
  exact and_congr_right fun h => h.rules_eq_ok

/-! ## What the epoch sees of an entry -/

/-- The epoch state only looks at its own validators: their bond, their stake, their production and
    their delegations. -/
theorem EpochOk.frame (h : p.EpochOk s)
    (hstake : ∀ v a i, s.validators.get v = some a → p.stakes.get v = some i →
      ∃ i', p'.stakes.get v = some i' ∧ i'.amount = i.amount
        ∧ i'.delegatedAmount = i.delegatedAmount ∧ i.blocksProduced ≤ i'.blocksProduced)
    (hdel : ∀ v a, s.validators.get v = some a → p'.delegations.get v = p.delegations.get v) :
    p'.EpochOk s := by
  have heff : ∀ v a, s.validators.get v = some a → p'.effective v = p.effective v := by
    intro v a ha
    obtain ⟨i, hi, -⟩ := (h.current v a ha).bond
    obtain ⟨i', hi', hamt, hd, -⟩ := hstake v a i ha hi
    rw [effective_of_get hi', effective_of_get hi]
    unfold StakeInfo.totalStake
    rw [hamt, hd]
  have hsum : p'.epochStake s = p.epochStake s := HashMap.sumBy_congr heff
  refine { h with current := ?_, fits := by rw [hsum]; exact h.fits, saturated := ?_ }
  · intro v a ha
    obtain ⟨⟨i, hi, hbond, hbase⟩, hfresh, hacc, hcov⟩ := h.current v a ha
    obtain ⟨i', hi', hamt, -, hblocks⟩ := hstake v a i ha hi
    have hof : p'.delegationsOf v = p.delegationsOf v := by
      unfold delegationsOf
      rw [hdel v a ha]
    refine ⟨⟨i', hi', by rw [hamt, hbond], le_trans hbase hblocks⟩, hfresh, ?_, ?_⟩
    · intro d x hx
      rw [delegation_eq, hof, ← delegation_eq]
      exact hacc d x hx
    · rw [hof]
      exact hcov
  · intro v a ha
    rw [heff v a ha, hsum]
    exact h.saturated v a ha

/-- The rules of Staking V2, for a pool that has an epoch. -/
def EpochRules (p : StakePool) : Prop :=
  ∀ s, p.stakingV2State = some s → p.Capped ∧ p.EpochOk s

theorem Valid.epochRules_iff (h : p.Valid) :
    p.EpochRules ↔ (p.stakingV2State.isSome = true → p.validateV2Rules = .ok ()) := by
  unfold EpochRules
  cases hs : p.stakingV2State with
  | none => simp
  | some s =>
    simp only [Option.isSome_some, forall_const, h.rules_eq_ok, hs, Option.some.injEq, forall_eq']

/-- Validators with epoch accounting. -/
def InEpoch (p : StakePool) (v : Pubkey) : Prop :=
  ∃ s a, p.stakingV2State = some s ∧ s.validators.get v = some a

/-- Writing one entry that respects the cap, and that changes nothing the epoch accounts for. -/
theorem EpochRules.writeEntry (h : p.EpochRules) (hs : p'.stakes = p.stakes.put v i')
    (hdel : p'.delegations = p.delegations) (hst : p'.stakingV2State = p.stakingV2State)
    (hcap : p.Capped → i'.isActive = true →
      i'.amount + i'.delegatedAmount ≤ MAX_VALIDATOR_EFFECTIVE_STAKE_MULTIPLIER * i'.amount)
    (hin : p.InEpoch v → ∀ i, p.stakes.get v = some i → i'.amount = i.amount
      ∧ i'.delegatedAmount = i.delegatedAmount ∧ i.blocksProduced ≤ i'.blocksProduced) :
    p'.EpochRules := by
  intro s hs'
  rw [hst] at hs'
  obtain ⟨hold, hepoch⟩ := h s hs'
  have hget := get_of_eq_put hs
  refine ⟨fun w j hj => ?_, hepoch.frame (fun w a j ha hj => ?_) (fun w a _ => by rw [hdel])⟩
  · rw [hget] at hj
    split at hj
    · cases hj
      exact hcap hold
    · exact hold w j hj
  · by_cases hw : w = v
    · subst hw
      exact ⟨i', by rw [hget, if_pos rfl], hin ⟨s, a, hs', ha⟩ j hj⟩
    · exact ⟨j, by rw [hget, if_neg hw, hj], rfl, rfl, le_refl _⟩

end StakePool
end Lichen.Staking
