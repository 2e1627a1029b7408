/-
  When a delegator can leave.

  `request_delegation_unstake` only needs the delegation and a cooldown deadline that fits in 64 bits.
  The checkpoint after it needs more.  It wants an accumulator of the current epoch for the validator
  that is left, so nobody can leave a validator that a rollover has dropped.  And it validates the
  whole pool: the exit lowers the epoch's stake, hence the limit of the *other* validators, and it
  switches a validator that was off back on when its stake is still above the minimum, which brings
  back the cap of five times its own bond.  `delegator_exit_ok_iff` is exact.
-/
import Lichen.Staking.Lighter
import Lichen.Staking.Rewards
import Lichen.Staking.Books

open Base HashMap
namespace Lichen.Staking
open StakePool
namespace StakePool
variable {p : StakePool} {v d : Pubkey} {i : StakeInfo}
  {amount : Nat}

/-- The pool part of `system_request_unstake` for a delegator of `validator`. -/
def systemRequestDelegationUnstake (p : StakePool) (delegator validator : Pubkey)
    (amount slot : Nat) : Except String StakePool := do
  let p ← p.requestDelegationUnstake delegator validator amount slot
  p.checkpointStakingV2Validator validator slot

/-- What an exit of `amount` from `v` needs from the pool and the slot. -/
structure Exitable (p : StakePool) (s : StakingV2EpochState) (v : Pubkey) (i : StakeInfo)
    (amount slot : Nat) : Prop where
  cooled : slot + UNSTAKE_COOLDOWN_SLOTS < 2 ^ 64
  member : ∃ a, s.validators.get v = some a ∧ a.Fits slot
  bonded : MIN_VALIDATOR_STAKE ≤ i.amount + (i.delegatedAmount - amount) →
    i.amount + (i.delegatedAmount - amount)
      ≤ MAX_VALIDATOR_EFFECTIVE_STAKE_MULTIPLIER * i.amount
  room : ∀ w b, w ≠ v → s.validators.get w = some b →
    p.effective w ≤ saturationLimit (p.epochStake s - amount) s.validators.size

/-- An exit makes the validator lighter by what leaves. -/
theorem Valid.lighter (h : p.Valid) (hop : p.requestDelegationUnstake d v amount slot = .ok p') :
    Lighter p p' v amount := by
  refine ⟨h.requestDelegationUnstake hop, ?_, ?_, ?_, ?_⟩
  all_goals obtain ⟨hpos, -, hle, -, i, hi, hdel, rfl⟩ := requestDelegationUnstake_eq_ok.mp hop
  · intro j hj
    rw [hi] at hj
    cases hj
    refine ⟨_, get_put_self _ _ _, rfl, ?_⟩
    show i.amount + (i.delegatedAmount - amount) + amount = i.amount + i.delegatedAmount
    omega
  · rfl
  · intro w hw
    exact get_put_ne _ _ hw
  · intro w hw
    exact (h.lessDelegation hpos hle rfl).others w hw

/-- The cap of a validator that may have been switched back on. -/
theorem Lighter.capped_iff (h : Lighter p p' v amount) (hcap : p.Capped)
    (hj : p'.stakes.get v = some i.refresh) :
    p'.Capped ↔ (MIN_VALIDATOR_STAKE ≤ i.amount + i.delegatedAmount →
      i.amount + i.delegatedAmount ≤ MAX_VALIDATOR_EFFECTIVE_STAKE_MULTIPLIER * i.amount) := by
  grind [StakeInfo.refresh, StakeInfo.refresh_isActive_iff, capped, Capped]

end StakePool

/-- **When a delegator can leave.** -/
theorem delegator_exit_ok_iff {p : StakePool} {s : StakingV2EpochState} {v d : Pubkey}
    {i : StakeInfo} {amount slot : Nat} (hp : p.validateV2Invariants = .ok ())
    (hs : p.stakingV2State = some s) (hi : p.stakes.get v = some i)
    (hd : d ≠ MOSSSTAKE_PROTOCOL_DELEGATOR) (hamount : 1 ≤ amount ∧ amount ≤ p.delegation v d)
    (hfree : p.unstakeRequests.get (v, d) = none)
    (hslot : ∀ w a, s.validators.get w = some a → a.selfBond.lastCheckpointSlot ≤ slot
      ∧ ∀ e y, a.delegations.get e = some y → y.lastCheckpointSlot ≤ slot) :
    (∃ q, p.systemRequestDelegationUnstake d v amount slot = .ok q) ↔
      p.Exitable s v i amount slot := by
  obtain ⟨hvalid, hcap, hepochs⟩ := validateV2Invariants_eq_ok.mp hp
  have hepoch := hepochs s hs
  unfold StakePool.systemRequestDelegationUnstake
  simp only [bind_eq_ok]
  constructor
  · rintro ⟨q, u, hu, hq⟩
    have hlight := hvalid.lighter hu
    obtain ⟨-, -, -, hcool, i', hi', -, hu'⟩ := requestDelegationUnstake_eq_ok.mp hu
    rw [hi] at hi'
    cases hi'
    have hself : u.stakes.get v = some
        ({ i with delegatedAmount := i.delegatedAmount - amount } : StakeInfo).refresh := by
      rw [hu']
      exact get_put_self _ _ _
    unfold StakePool.checkpointStakingV2Validator at hq
    simp only [ok_rules] at hq
    obtain ⟨q', hq', hval, rfl⟩ := hq
    obtain ⟨hvalid', hcap', hok⟩ := validateV2Invariants_eq_ok.mp hval
    obtain ⟨-, a, a', ha, -, -, rfl⟩ := checkpointInner_spec (hlight.epoch.trans hs) hq'
    have hbond := (hlight.capped_iff hcap hself).mp hcap'
    obtain ⟨hfits, hroom⟩ := (hlight.checkpoint_iff hvalid hepoch hs hi ha (hslot v a ha).1).mp
      ⟨_, hq', hvalid', rfl, hok⟩
    exact ⟨hcool, ⟨a, ha, hfits⟩, hbond, hroom⟩
  · rintro ⟨hcool, ⟨a, ha, hfits⟩, hbond, hroom⟩
    have hle : amount ≤ i.delegatedAmount := by
      rw [hvalid.delegated v i hi]
      exact Nat.le_trans hamount.2 (p.delegation_le_delegatedTo v d)
    have hu := requestDelegationUnstake_eq_ok.mpr
      ⟨hamount.1, hfree, hamount.2, hcool, i, hi, hle, rfl⟩
    have hlight := hvalid.lighter hu
    obtain ⟨q, hq, hvalid', hstakes, hok⟩ :=
      (hlight.checkpoint_iff hvalid hepoch hs hi ha (hslot v a ha).1).mpr ⟨hfits, hroom⟩
    have hcap' : q.Capped := by
      have hcapped := (hlight.capped_iff hcap (get_put_self _ _ _)).mpr hbond
      intro w j hj
      rw [hstakes] at hj
      exact hcapped w j hj
    refine ⟨q, _, hu, ?_⟩
    unfold StakePool.checkpointStakingV2Validator
    simp only [ok_rules]
    exact ⟨q, hq, validateV2Invariants_eq_ok.mpr ⟨hvalid', hcap', hok⟩, rfl⟩

section

/-- Two validators that open the first epoch; the second one has a delegator. -/
def exitPool : StakePool :=
  let p := [PoolCall.stake ⟨1⟩ 100000000000000 0, .stake ⟨2⟩ 100000000000000 0,
    .delegate ⟨3⟩ ⟨2⟩ 10 (by decide)].foldl PoolCall.run StakePool.new
  p.settleTo (p.initializeStakingV2 0 [⟨1⟩, ⟨2⟩])

def exitState : StakingV2EpochState := exitPool.stakingV2State.get (by decide +kernel)

def exitEntry : StakeInfo := (exitPool.stakes.get ⟨2⟩).get (by decide +kernel)

theorem delegator_exit_ok_iff_first_epoch :
    (exitPool.systemRequestDelegationUnstake ⟨3⟩ ⟨2⟩ 10 2).isOk = true ∧
    exitPool.Exitable exitState ⟨2⟩ exitEntry 10 2 := by
  have hok : (exitPool.systemRequestDelegationUnstake ⟨3⟩ ⟨2⟩ 10 2).isOk = true := by
    decide +kernel
  -- every accumulator was last brought forward when the epoch opened
  have hslot := checkpoints_le exitState 2 (by decide +kernel)
  exact ⟨hok, (delegator_exit_ok_iff (by decide +kernel) (Option.some_get _).symm
    (Option.some_get _).symm (by decide) (by decide +kernel) (by decide +kernel) hslot).mp
    (exists_of_isOk hok)⟩

/-- The same two validators at the end of the epoch, which is settled without a reward. -/
private def settledPool : StakePool :=
  exitPool.settleTo ((exitPool.closeEpoch 432000 0).map Prod.snd)

/-- The next epoch has the first validator only. -/
private def droppedPool : StakePool :=
  settledPool.settleTo (settledPool.advanceStakingV2Epoch 432000 [⟨1⟩])

/-- A validator at its limit of 95%, and a small one with a delegator. -/
private def tightPool : StakePool :=
  let p := [PoolCall.stake ⟨1⟩ 1000000000000000 0, .stake ⟨2⟩ 75000000000000 0,
    .delegate ⟨3⟩ ⟨1⟩ 520000000000000 key_ne,
    .delegate ⟨3⟩ ⟨2⟩ 5000000000000 (by decide)].foldl PoolCall.run StakePool.new
  p.settleTo (p.initializeStakingV2 0 [⟨1⟩, ⟨2⟩])

/-- A rollover that drops a validator locks its delegators in; and a delegator cannot leave a small
    validator while another one is at its limit. -/
theorem delegators_locked_in :
    (exitPool.closeEpoch 432000 0).isOk = true
      ∧ (settledPool.advanceStakingV2Epoch 432000 [⟨1⟩]).isOk = true
      ∧ droppedPool.validateV2Invariants = .ok () ∧ droppedPool.delegation ⟨2⟩ ⟨3⟩ = 10
      ∧ (droppedPool.systemRequestDelegationUnstake ⟨3⟩ ⟨2⟩ 10 432001).isOk = false
      ∧ tightPool.validateV2Invariants = .ok () ∧ tightPool.delegation ⟨2⟩ ⟨3⟩ = 5000000000000
      ∧ (tightPool.systemRequestDelegationUnstake ⟨3⟩ ⟨2⟩ 5000000000000 2).isOk = false := by
  decide +kernel

end
end Lichen.Staking
