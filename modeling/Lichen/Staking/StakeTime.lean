/-
  Stake-time.

  An accumulator stands for `spores * slots` up to its last checkpoint; `stakeTime` extends it to
  any later slot with the amount it holds.  Read this way a checkpoint changes nothing: it moves the
  last checkpoint and keeps the stake-time of that slot, and an owner who is new starts with zero.
  Only the passing of time makes stake-time grow, by what is staked, and that fits in 64 bits.

  `StakeTimed` is the invariant that follows: after `t` slots the epoch has at most `t` times what
  64 bits hold, and a validator's own bond at most `t` times the maximal bond.  The averages of the
  epoch, and their sum, fit in 64 bits for this reason.
-/
import Lichen.Staking.Checkpoint

open Base HashMap
namespace Lichen.Staking
open EpochStakeAccumulator

/-! ## Definitions -/

/-- `spores * slots` up to `slot`. -/
def EpochStakeAccumulator.stakeTime (x : EpochStakeAccumulator) (slot : Nat) : Nat :=
  x.weightedSlotSpores + x.amount * (slot - x.lastCheckpointSlot)

/-- The stake-time of a validator: its bond and its delegations. -/
def ValidatorEpochAccounting.stakeTime (a : ValidatorEpochAccounting) (slot : Nat) : Nat :=
  a.selfBond.stakeTime slot + a.delegations.sumBy fun _ x => x.stakeTime slot

/-- The stake-time of an epoch. -/
def StakingV2EpochState.stakeTime (s : StakingV2EpochState) (slot : Nat) : Nat :=
  s.validators.sumBy fun _ a => a.stakeTime slot

/-- No accumulator is ahead of `slot`. -/
structure ValidatorEpochAccounting.Past (a : ValidatorEpochAccounting) (slot : Nat) : Prop where
  bond : a.selfBond.lastCheckpointSlot ≤ slot
  delegations : ∀ d x, a.delegations.get d = some x → x.lastCheckpointSlot ≤ slot

/-- The accumulators of an epoch at `slot`. -/
structure StakeTimed (s : StakingV2EpochState) (slot : Nat) : Prop where
  started : s.epochStartSlot ≤ slot
  past : ∀ v a, s.validators.get v = some a → a.Past slot
  bond : ∀ v a, s.validators.get v = some a →
    a.selfBond.stakeTime slot ≤ MAX_VALIDATOR_STAKE * (slot - s.epochStartSlot)
  total : s.stakeTime slot ≤ U64.MAX * (slot - s.epochStartSlot)

/-! ## Time passes -/

variable {x : EpochStakeAccumulator}

theorem EpochStakeAccumulator.stakeTime_later
    (h : x.lastCheckpointSlot ≤ slot) (hle : slot ≤ slot') :
    x.stakeTime slot' = x.stakeTime slot + x.amount * (slot' - slot) := by
  have hsplit : slot' - x.lastCheckpointSlot
      = (slot - x.lastCheckpointSlot) + (slot' - slot) := by omega
  unfold stakeTime
  rw [hsplit, mul_add, add_assoc]

/-- What a validator's accumulators hold. -/
def ValidatorEpochAccounting.amount (a : ValidatorEpochAccounting) : Nat :=
  a.selfBond.amount + a.delegations.sumBy fun _ x => x.amount

theorem ValidatorEpochAccounting.stakeTime_later {a : ValidatorEpochAccounting}
    (h : a.Past slot) (hle : slot ≤ slot') :
    a.stakeTime slot' = a.stakeTime slot + a.amount * (slot' - slot) := by
  have hsum : (a.delegations.sumBy fun _ x => x.stakeTime slot')
      = (a.delegations.sumBy fun _ x => x.stakeTime slot)
        + (a.delegations.sumBy fun _ x => x.amount) * (slot' - slot) := by
    rw [sumBy_congr fun d x hx =>
      EpochStakeAccumulator.stakeTime_later (h.delegations d x hx) hle, sumBy_add,
      sumBy_mul]
  unfold stakeTime amount
  rw [EpochStakeAccumulator.stakeTime_later h.bond hle, hsum, add_mul]
  omega

namespace StakePool

variable {p : StakePool}

/-- A validator's accumulators hold at most its effective stake. -/
theorem Current.amount_le (h : p.Current start v a) (hp : p.Valid) : a.amount ≤ p.effective v := by
  obtain ⟨i, hi, hbond, -⟩ := h.bond
  have hdel : (a.delegations.sumBy fun _ x => x.amount) ≤ p.delegatedTo v := by
    have hshare : (a.delegations.sumBy fun _ x => x.amount)
        = a.delegations.sumBy fun d _ => (p.delegationsOf v).share (fun _ n => n) d := by
      refine sumBy_congr fun d x hx => ?_
      rw [share_delegation]
      exact (h.delegations d x hx).2.2
    rw [hshare]
    exact sumBy_share_le _ _ _
  rw [hp.effective_eq hi, hp.delegated v i hi]
  unfold ValidatorEpochAccounting.amount
  omega

end StakePool

variable {p q : StakePool} {s : StakingV2EpochState} {a : ValidatorEpochAccounting}

/-- **Time passes.**  Everything that is staked in the epoch fits in 64 bits, so its stake-time grows
    by at most that much per slot. -/
theorem StakeTimed.later (h : StakeTimed s slot) (hp : p.Valid) (hepoch : p.EpochOk s)
    (hle : slot ≤ slot') : StakeTimed s slot' := by
  have hgrow : slot' - s.epochStartSlot = (slot - s.epochStartSlot) + (slot' - slot) := by
    have hstart := h.started
    omega
  refine ⟨le_trans h.started hle, ?_, ?_, ?_⟩
  · intro v a ha
    have hpast := h.past v a ha
    exact ⟨le_trans hpast.bond hle, fun d x hx => le_trans (hpast.delegations d x hx) hle⟩
  · intro v a ha
    obtain ⟨i, hi, hbond, -⟩ := (hepoch.current v a ha).bond
    have hmax : a.selfBond.amount ≤ MAX_VALIDATOR_STAKE := by
      rw [hbond]
      exact hp.bonded v i hi
    rw [stakeTime_later (h.past v a ha).bond hle, hgrow, mul_add]
    exact Nat.add_le_add (h.bond v a ha) (Nat.mul_le_mul_right _ hmax)
  · have hsum : s.stakeTime slot' = s.stakeTime slot
        + (s.validators.sumBy fun _ a => a.amount) * (slot' - slot) := by
      unfold StakingV2EpochState.stakeTime
      rw [sumBy_congr fun v a ha =>
        ValidatorEpochAccounting.stakeTime_later (h.past v a ha) hle, sumBy_add,
        sumBy_mul]
    have hamount : (s.validators.sumBy fun _ a => a.amount) ≤ U64.MAX := by
      have hstake : (s.validators.sumBy fun _ a => a.amount) ≤ p.epochStake s :=
        sumBy_le_sumBy fun v a ha => (hepoch.current v a ha).amount_le hp
      have hfit := hepoch.fits
      unfold U64.MAX
      omega
    rw [hsum, hgrow, mul_add]
    exact Nat.add_le_add h.total (Nat.mul_le_mul_right _ hamount)

/-! ## Checkpoints -/

theorem EpochStakeAccumulator.stakeTime_advanced (x : EpochStakeAccumulator) (slot amount : Nat) :
    (x.advanced slot amount).stakeTime slot = x.stakeTime slot := by
  simp [stakeTime, advanced]

theorem EpochStakeAccumulator.stakeTime_new (start slot : Nat) :
    (new 0 start).stakeTime slot = 0 := by
  simp [stakeTime, new]

/-- A checkpoint keeps the stake-time of its slot. -/
theorem StakePool.Checkpointed.stakeTime (h : q.Checkpointed start v slot a a') :
    a'.selfBond.stakeTime slot = a.selfBond.stakeTime slot ∧ a'.stakeTime slot = a.stakeTime slot
      := by
  obtain ⟨i, -, hbond⟩ := h.bond
  have hself : a'.selfBond.stakeTime slot = a.selfBond.stakeTime slot := by
    rw [hbond, stakeTime_advanced]
  refine ⟨hself, ?_⟩
  have hdel : (a'.delegations.sumBy fun _ x => x.stakeTime slot)
      = a.delegations.sumBy fun _ x => x.stakeTime slot := by
    refine sumBy_eq_of_share fun d => ?_
    unfold HashMap.share
    rw [h.delegations d]
    cases hx : a.delegations.get d with
    | some x =>
      grind [accumulatorOf, stakeTime_advanced]
    | none =>
      -- a new owner starts with nothing
      grind [accumulatorOf, stakeTime_advanced, stakeTime_new]
  unfold ValidatorEpochAccounting.stakeTime
  rw [hself, hdel]

theorem StakePool.Checkpointed.past (h : q.Checkpointed start v slot a a') : a'.Past slot := by
  obtain ⟨i, -, hbond⟩ := h.bond
  refine ⟨by rw [hbond]; exact le_refl _, fun d x hx => ?_⟩
  rw [h.delegations d] at hx
  split at hx
  · cases hx
    exact le_refl _
  · simp at hx

/-- **A checkpoint at `slot`** leaves the stake-time of the epoch as it is. -/
theorem StakeTimed.checkpoint (h : StakeTimed s slot)
    (ha : s.validators.get v = some a) (hcp : q.Checkpointed start v slot a a') :
    StakeTimed { s with validators := s.validators.put v a' } slot := by
  obtain ⟨hself, htime⟩ := hcp.stakeTime
  refine ⟨h.started, ?_, ?_, ?_⟩
  · exact forall_put h.past hcp.past
  · refine forall_put h.bond ?_
    rw [hself]
    exact h.bond v a ha
  · have hput := sumBy_put s.validators (fun _ b => b.stakeTime slot) v a'
    rw [share_of_get ha, htime] at hput
    have hsame : (s.validators.put v a').sumBy (fun _ b => b.stakeTime slot) = s.stakeTime slot :=
      Nat.add_right_cancel hput
    show (s.validators.put v a').sumBy (fun _ b => b.stakeTime slot) ≤ _
    rw [hsame]
    exact h.total

/-! ## Averages -/

/-- The average of an owner over an epoch of `SLOTS_PER_EPOCH` slots, rounded down. -/
def EpochStakeAccumulator.average (x : EpochStakeAccumulator) (epochEnd : Nat) : Nat :=
  x.stakeTime epochEnd / SLOTS_PER_EPOCH

/-- The averages of the delegators, each rounded down, together. -/
def ValidatorEpochAccounting.averageDelegated (a : ValidatorEpochAccounting) (epochEnd : Nat) :
    Nat :=
  a.delegations.sumBy fun _ x => x.average epochEnd

/-- The average effective stake of a validator. -/
def ValidatorEpochAccounting.averageStake (a : ValidatorEpochAccounting) (epochEnd : Nat) : Nat :=
  a.selfBond.average epochEnd + a.averageDelegated epochEnd

/-- The average effective stake of an epoch. -/
def StakingV2EpochState.averageStake (s : StakingV2EpochState) (epochEnd : Nat) : Nat :=
  s.validators.sumBy fun _ a => a.averageStake epochEnd

theorem EpochStakeAccumulator.average_mul_le (x : EpochStakeAccumulator) (epochEnd : Nat) :
    x.average epochEnd * SLOTS_PER_EPOCH ≤ x.stakeTime epochEnd :=
  Nat.div_mul_le_self _ _

theorem ValidatorEpochAccounting.averageStake_mul_le (a : ValidatorEpochAccounting)
    (epochEnd : Nat) : a.averageStake epochEnd * SLOTS_PER_EPOCH ≤ a.stakeTime epochEnd := by
  unfold averageStake averageDelegated stakeTime
  rw [add_mul, ← sumBy_mul]
  exact Nat.add_le_add (a.selfBond.average_mul_le epochEnd)
    (sumBy_le_sumBy fun d x _ => x.average_mul_le epochEnd)

variable {epochEnd : Nat}

section
variable (h : StakeTimed s epochEnd) (hend : epochEnd = s.epochStartSlot + SLOTS_PER_EPOCH)
include h hend

/-- The averages of an epoch fit in 64 bits together. -/
theorem StakeTimed.averageStake_lt : s.averageStake epochEnd < 2 ^ 64 := by
  have htotal : s.averageStake epochEnd * SLOTS_PER_EPOCH ≤ s.stakeTime epochEnd := by
    unfold StakingV2EpochState.averageStake StakingV2EpochState.stakeTime
    rw [← sumBy_mul]
    exact sumBy_le_sumBy fun v a _ => a.averageStake_mul_le epochEnd
  have hbound := h.total
  have hspan : epochEnd - s.epochStartSlot = SLOTS_PER_EPOCH := by omega
  rw [hspan] at hbound
  have hle : s.averageStake epochEnd ≤ U64.MAX :=
    Nat.le_of_mul_le_mul_right (le_trans htotal hbound) (by decide)
  unfold U64.MAX at hle
  omega

/-- The average bond of a validator is at most the maximal bond. -/
theorem StakeTimed.average_bond_le (ha : s.validators.get v = some a) :
    a.selfBond.average epochEnd ≤ MAX_VALIDATOR_STAKE := by
  have hbound := h.bond v a ha
  have hspan : epochEnd - s.epochStartSlot = SLOTS_PER_EPOCH := by omega
  rw [hspan] at hbound
  exact Nat.le_of_mul_le_mul_right (le_trans (a.selfBond.average_mul_le epochEnd) hbound)
    (by decide)

end

/-- `average_amount` computes the average. -/
theorem StakeTimed.averageAmount (hend : epochEnd = s.epochStartSlot + SLOTS_PER_EPOCH)
    (hlast : x.lastCheckpointSlot ≤ epochEnd) (hfit : x.stakeTime epochEnd < 2 ^ 128)
    (havg : x.average epochEnd < 2 ^ 64) :
    x.averageAmount epochEnd s.epochStartSlot = .ok (x.average epochEnd) := by
  have hspan : epochEnd - s.epochStartSlot = SLOTS_PER_EPOCH := by omega
  have hpos : SLOTS_PER_EPOCH ≠ 0 := by decide
  unfold stakeTime at hfit
  unfold EpochStakeAccumulator.averageAmount EpochStakeAccumulator.checkpoint
  simp only [ok_rules, U128.checkedMul_eq_some, U128.checkedAdd_eq_some, U128.tryToU64_eq_some]
  refine ⟨SLOTS_PER_EPOCH, ⟨by omega, hspan.symm⟩, hpos, _,
    ⟨_, ⟨hlast, rfl⟩, _, ⟨by omega, rfl⟩, _, ⟨hfit, rfl⟩, rfl⟩, havg, rfl⟩

end Lichen.Staking
