/-
  How much more a validator can take.

  `staking_v2_delegation_capacity` searches for the largest addition that keeps a validator within
  five times its bond and within its share of the epoch's stake.  The addition raises that share as
  well, but by no more than itself, so what is accepted is a range; and it only raises the limit of
  the other validators.  Hence the capacity is exact, unless a sum or an accumulator overflows.
-/
import Lichen.Staking.Exits

open Base HashMap
namespace Lichen.Staking

theorem saturationLimit_mono (h : stake ≤ stake') (n : Nat) :
    saturationLimit stake n ≤ saturationLimit stake' n :=
  Nat.div_le_div_right (Nat.add_le_add_right (Nat.mul_le_mul_right _ h) _)

namespace StakePool

variable {p : StakePool} {s : StakingV2EpochState} {v : Pubkey}

theorem acceptsDelegation_eq (hsum : current + x < 2 ^ 64)
    (hactive : active + x < 2 ^ 64) : acceptsDelegation current active (saturationBps n) x
      = .ok (decide (current + x ≤ saturationLimit (active + x) n)) := by
  unfold acceptsDelegation
  simp only [ok_rules]
  exact ⟨_, ⟨hsum, rfl⟩, _, ⟨hactive, rfl⟩, _, (mulDivCeil_eq_ok hactive).mpr rfl, rfl⟩

/-- A validator with the entry `i` can take `x` more. -/
def Takes (p : StakePool) (s : StakingV2EpochState) (i : StakeInfo) (x : Nat) : Prop :=
  i.totalStake + x ≤ i.amount * MAX_VALIDATOR_EFFECTIVE_STAKE_MULTIPLIER
    ∧ i.totalStake + x ≤ saturationLimit (p.epochStake s + x) s.validators.size

/-- The capacity is the most that both limits take. -/
theorem EpochOk.capacity (h : p.EpochOk s) (hvalid : p.Valid) (hs : p.stakingV2State = some s)
    (hi : p.stakes.get v = some i) (ha : s.validators.get v = some a)
    (hroom : p.totalStaked + i.amount * MAX_VALIDATOR_EFFECTIVE_STAKE_MULTIPLIER < 2 ^ 64) :
    ∃ c, p.stakingV2DelegationCapacity v = .ok (some c)
      ∧ ∀ x, 1 ≤ x → (x ≤ c ↔ p.Takes s i x) := by
  have hstake := hvalid.epochStake_le s
  have hsat : i.totalStake ≤ saturationLimit (p.epochStake s) s.validators.size :=
    effective_of_get hi ▸ h.saturated v a ha
  have hmember : ¬ s.validators.containsKey v = false := by
    unfold containsKey
    rw [ha]
    exact Bool.true_eq_false_eq_False
  have hknown : ∀ w b, s.validators.get w = some b → ∃ j, p.stakes.get w = some j := by
    intro w b hb
    obtain ⟨j, hj, -⟩ := (h.current w b hb).bond
    exact ⟨j, hj⟩
  have hmul : i.amount * MAX_VALIDATOR_EFFECTIVE_STAKE_MULTIPLIER < 2 ^ 64 := by omega
  unfold stakingV2DelegationCapacity U64.saturatingSub Takes
  rw [hs]
  simp only [ok_rules, U64.checkedMul_eq_some]
  by_cases hfull : i.amount * MAX_VALIDATOR_EFFECTIVE_STAKE_MULTIPLIER - i.totalStake = 0
  · -- nothing fits under the bond
    refine ⟨0, ⟨hmember, i, hi, _, ⟨hmul, rfl⟩, ?_⟩, ?_⟩
    · rw [if_pos hfull]
      rfl
    · intro x hx
      constructor
      · omega
      · rintro ⟨hbond, -⟩
        omega
  · have haccepts : ∀ x, x ≤ i.amount * MAX_VALIDATOR_EFFECTIVE_STAKE_MULTIPLIER - i.totalStake →
        acceptsDelegation i.totalStake (p.epochStake s) (saturationBps s.validators.size) x
          = .ok (decide (i.totalStake + x
            ≤ saturationLimit (p.epochStake s + x) s.validators.size)) :=
      fun x hx => acceptsDelegation_eq (by omega) (by omega)
    have hzero := decide_eq_true hsat
    obtain ⟨c, hsearch, -, hle, hin, hend⟩ := bisect_ok haccepts (Nat.zero_le _) (Nat.le_refl _)
      (lt_of_le_of_lt (Nat.sub_le _ 0) (lt_of_le_of_lt (Nat.sub_le _ _) hmul)) hzero (.inl rfl)
    refine ⟨c, ⟨hmember, i, hi, _, ⟨hmul, rfl⟩, ?_⟩, ?_⟩
    · rw [if_neg hfull]
      simp only [ok_rules, activeEffectiveStake_eq_ok, validatorSaturationCapBps_eq_ok]
      exact ⟨_, ⟨hknown, h.fits, rfl⟩, _, ⟨h.occupied, rfl⟩, _, haccepts 0 (Nat.zero_le _),
        fun hfalse => of_decide_eq_false hfalse hsat, c, hsearch, rfl⟩
    · have hmax := of_decide_eq_true hin
      rw [decide_eq_false_iff_not] at hend
      intro x _
      -- what is accepted is accepted with less as well
      have hdown : ∀ y z, y ≤ z → i.totalStake + z
          ≤ saturationLimit (p.epochStake s + z) s.validators.size → i.totalStake + y
            ≤ saturationLimit (p.epochStake s + y) s.validators.size := by
        intro y z _ _
        have hsub := saturationLimit_sub (show z - y ≤ p.epochStake s + z by omega)
          s.validators.size
        rw [show p.epochStake s + z - (z - y) = p.epochStake s + y by omega] at hsub
        omega
      constructor
      · intro hxc
        exact ⟨by omega, hdown x c hxc hmax⟩
      · rintro ⟨hbond, hshare⟩
        rcases hend with hend | hend
        · omega
        · by_contra hlt
          exact hend (hdown _ _ (by omega) hshare)

/-- Before a delegation the validator is lighter by what is delegated. -/
theorem Valid.lighter_delegate (h : p.Valid) (hne : d ≠ v)
    (hop : p.delegate d v amount = .ok u) : Lighter u p v amount := by
  obtain ⟨i, hi, hpos, -, rfl⟩ := delegate_eq_ok hop
  refine ⟨h, ?_, rfl, ?_, ?_⟩
  · intro j hj
    rw [get_put_self] at hj
    cases hj
    exact ⟨i, hi, rfl, Nat.add_assoc _ _ _⟩
  · intro w hw
    exact (get_put_ne _ _ hw).symm
  · intro w hw
    exact ((h.moreDelegation hpos hne rfl).others w hw).symm

/-- A checkpoint accepts a delegation that the validator can take. -/
theorem Takes.checkpoint (hp : p.validateV2Invariants = .ok ())
    (hs : p.stakingV2State = some s) (hi : p.stakes.get v = some i)
    (ha : s.validators.get v = some a) (hfits : a.Fits slot) (hne : d ≠ v)
    (hu : p.delegate d v amount = .ok u) (h : p.Takes s i amount) :
    ∃ q, u.checkpointStakingV2Validator v slot = .ok q := by
  obtain ⟨hvalid, hcap, hepochs⟩ := validateV2Invariants_eq_ok.mp hp
  have hepoch := hepochs s hs
  have hlight := hvalid.lighter_delegate hne hu
  have hu' := hvalid.delegate hne hu
  have htotal : i.totalStake = i.amount + i.delegatedAmount := hvalid.totalStake_eq hi
  obtain ⟨j, hj, hbond, hdelegated, hblocks⟩ : ∃ j, u.stakes.get v = some j
      ∧ j.amount = i.amount ∧ j.delegatedAmount = i.delegatedAmount + amount
      ∧ j.blocksProduced = i.blocksProduced := by
    obtain ⟨i₀, hi₀, -, -, rfl⟩ := delegate_eq_ok hu
    rw [hi] at hi₀
    cases hi₀
    exact ⟨_, get_put_self _ _ _, rfl, rfl, rfl⟩
  have hself := hlight.effective_self hu' hj
  have hstake := hlight.epochStake hu' hj ha
  have hsat : ∀ w b, s.validators.get w = some b →
      u.effective w ≤ saturationLimit (u.epochStake s) s.validators.size := by
    intro w b hb
    rw [← hstake]
    by_cases hw : w = v
    · rw [hw, ← hself, effective_of_get hi]
      exact h.2
    · -- the limit of the others only rises
      rw [← hlight.effective_other hw]
      exact le_trans (hepoch.saturated w b hb) (saturationLimit_mono (Nat.le_add_right _ _) _)
  obtain ⟨q, hq, hvalid', hstakes, hok⟩ := (checkpoint_iff_saturated hepoch hu'
    (hlight.epoch.symm.trans hs) (fun w hw => (hlight.stakes w hw).symm)
    (fun w hw => (hlight.maps w hw).symm) hi hj hblocks ha hfits.bond.forward).mpr ⟨hfits, hsat⟩
  have hcapped : q.Capped := by
    intro w k hk hactive
    rw [hstakes] at hk
    by_cases hw : w = v
    · rw [hw, hj] at hk
      cases hk
      have hbonded := h.1
      rw [hbond, hdelegated, mul_comm]
      omega
    · exact hcap w k ((hlight.stakes w hw).trans hk) hactive
  refine ⟨q, ?_⟩
  unfold checkpointStakingV2Validator
  simp only [ok_rules]
  exact ⟨q, hq, validateV2Invariants_eq_ok.mpr ⟨hvalid', hcapped, hok⟩, rfl⟩

/-- **The capacity is exact.**  What a validator can be delegated and checkpointed with is every
    amount from one to the capacity, as long as its accumulators hold. -/
theorem delegation_capacity_exact {p : StakePool} {s : StakingV2EpochState} {v : Pubkey}
    {i : StakeInfo} {a : ValidatorEpochAccounting}
    (hp : p.validateV2Invariants = .ok ()) (hs : p.stakingV2State = some s)
    (hi : p.stakes.get v = some i) (hvested : i.isFullyVested = true)
    (ha : s.validators.get v = some a)
    (hroom : p.totalStaked + i.amount * MAX_VALIDATOR_EFFECTIVE_STAKE_MULTIPLIER < 2 ^ 64) :
    ∃ c, p.stakingV2DelegationCapacity v = .ok (some c) ∧ ∀ d amount slot, d ≠ v →
      ((∃ q, (p.delegate d v amount >>= (·.checkpointStakingV2Validator v slot)) = .ok q) ↔
        a.Fits slot ∧ 1 ≤ amount ∧ amount ≤ c) := by
  obtain ⟨hvalid, -, hepochs⟩ := validateV2Invariants_eq_ok.mp hp
  obtain ⟨c, hc, htakes⟩ := (hepochs s hs).capacity hvalid hs hi ha hroom
  refine ⟨c, hc, fun d amount slot hne => ?_⟩
  simp only [bind_eq_ok]
  constructor
  · rintro ⟨q, u, hu, hq⟩
    have hlight := hvalid.lighter_delegate hne hu
    unfold checkpointStakingV2Validator at hq
    simp only [ok_rules] at hq
    obtain ⟨q', hq', -, -⟩ := hq
    obtain ⟨-, a₁, -, ha₁, hfits, -, -⟩ := checkpointInner_spec (hlight.epoch.symm.trans hs) hq'
    rw [ha] at ha₁
    cases ha₁
    unfold delegate at hu
    simp only [ok_rules] at hu
    obtain ⟨hpos, -, -, -, -, -, -, -, -, c', hc', hle, -⟩ := hu
    rw [hc] at hc'
    cases hc'
    exact ⟨hfits, by omega, not_lt.mp fun hlt => hle (decide_eq_true hlt)⟩
  · rintro ⟨hfits, hpos, hle⟩
    have htake := (htakes amount hpos).mp hle
    have hbond := htake.1
    have htotal : i.totalStake = i.amount + i.delegatedAmount := hvalid.totalStake_eq hi
    have hdel : p.delegation v d ≤ i.delegatedAmount :=
      hvalid.delegated v i hi ▸ p.delegation_le_delegatedTo v d
    have hmul : i.amount * MAX_VALIDATOR_EFFECTIVE_STAKE_MULTIPLIER < 2 ^ 64 := by omega
    have hu : ∃ u, p.delegate d v amount = .ok u := by
      unfold delegate
      simp only [ok_rules, U64.checkedMul_eq_some]
      exact ⟨_, by omega, i, hi, by simp [hvested], _, ⟨hmul, rfl⟩, _, ⟨by omega, rfl⟩, by omega,
        _, hc, by simpa using hle, _, ⟨by omega, rfl⟩, _, ⟨by omega, rfl⟩, _, ⟨by omega, rfl⟩, rfl⟩
    obtain ⟨u, hu⟩ := hu
    obtain ⟨q, hq⟩ := htake.checkpoint hp hs hi ha hfits hne hu
    exact ⟨q, u, hu, hq⟩

private def exitAccounting : ValidatorEpochAccounting :=
  (exitState.validators.get ⟨2⟩).get (by decide +kernel)

theorem delegation_capacity_exact_first_epoch :
    exitPool.stakingV2DelegationCapacity ⟨2⟩ = .ok (some 399999999999990)
      ∧ (exitPool.delegate ⟨3⟩ ⟨2⟩ 399999999999990
        >>= (·.checkpointStakingV2Validator ⟨2⟩ 2)).isOk = true
      ∧ ∀ x, 399999999999990 < x → ∀ q, (exitPool.delegate ⟨3⟩ ⟨2⟩ x
        >>= (·.checkpointStakingV2Validator ⟨2⟩ 2)) ≠ .ok q := by
  obtain ⟨c, hc, hexact⟩ := delegation_capacity_exact (p := exitPool) (s := exitState) (v := ⟨2⟩)
    (i := exitEntry) (a := exitAccounting)
    (by decide +kernel) (Option.some_get _).symm (Option.some_get _).symm (by decide +kernel)
    (Option.some_get _).symm (by decide +kernel)
  have hmax : exitPool.stakingV2DelegationCapacity ⟨2⟩ = .ok (some 399999999999990) := by
    decide +kernel
  obtain rfl : 399999999999990 = c := by
    rw [hmax] at hc
    cases hc
    rfl
  refine ⟨hmax, by decide +kernel, fun x hx q hq => ?_⟩
  have hle := ((hexact ⟨3⟩ x 2 (by decide)).mp ⟨q, hq⟩).2.2
  omega

/-- The same pool with an accumulator that is full. -/
private def fullPool : StakePool :=
  exitPool.withAccounting exitState ⟨2⟩ { exitAccounting with
    selfBond := { exitAccounting.selfBond with weightedSlotSpores := 2 ^ 128 - 1 } }

/-- A full accumulator stops the checkpoint, on a pool that is in order. -/
theorem full_accumulator_refuses :
    fullPool.validateV2Invariants = .ok ()
      ∧ exitAccounting.selfBond.lastCheckpointSlot ≤ 2
      ∧ fullPool.stakingV2DelegationCapacity ⟨2⟩ = .ok (some 399999999999990)
      ∧ (fullPool.delegate ⟨3⟩ ⟨2⟩ 1).isOk = true
      ∧ (fullPool.delegate ⟨3⟩ ⟨2⟩ 1 >>= (·.checkpointStakingV2Validator ⟨2⟩ 2)).isOk = false := by
  decide +kernel

end StakePool
end Lichen.Staking
