/-
  Everything that can happen inside an epoch.

  A pool is opened by `initialize_staking_v2` and then changed by the calls of an epoch, each at a
  slot that is not before the last.  Every call is validated, and every call touches the accumulators
  by checkpoints only (`EpochCall.run_kept`): so what a checkpoint preserves holds along every run.
  With that, `StakeTimed` holds to the end of the epoch, and whether the epoch can be closed is a
  matter of its averages and of what its validators have not claimed.
-/
import Lichen.Staking.Settlement
import Lichen.Staking.Opening
import Lichen.Staking.SlashLoss
import Lichen.Staking.Books

open Base HashMap
namespace Lichen.Staking
open StakePool
namespace StakePool
variable {p : StakePool}

/-- The pool part of `system_deregister_validator`. -/
def deregisterValidator (p : StakePool) (validator : Pubkey) : Except String StakePool := do
  let info ← okOr (p.stakes.get validator)
    s!"DeregisterValidator: validator {validator} not found in stake pool"
  if info.isActive = false then pure p
  else pure { p with stakes := p.stakes.put validator { info with isActive := false } }

end StakePool

/-! ## The calls of an epoch -/

/-- A call inside an epoch, at a slot that the run supplies. -/
inductive EpochCall where
  | delegate (delegator validator : Pubkey) (amount : Nat)
  | requestDelegationUnstake (delegator validator : Pubkey) (amount : Nat)
  | requestUnstake (validator staker : Pubkey) (amount : Nat)
  | topUpStake (validator : Pubkey) (amount : Nat)
  | addValidatorStake (validator : Pubkey) (amount : Nat)
  | slashValidator (validator : Pubkey) (amount : Nat)
  | recordBlockProduced (validator : Pubkey)
  | deregisterValidator (validator : Pubkey)
  | rebalanceMossstakeAllocations (target : Nat) (active : List Pubkey)
  | applyStakingV2EquivocationSlash (validator : Pubkey) (offense percent : Nat)
  | checkpointStakingV2Validator (validator : Pubkey)

namespace EpochCall

/-- A call that changes the stake of a validator is followed by its checkpoint; the others validate
    the pool themselves or are validated here. -/
def run (p : StakePool) (slot : Nat) : EpochCall → Except String StakePool
  | delegate d v amount => do
    let p ← p.delegate d v amount
    p.checkpointStakingV2Validator v slot
  | requestDelegationUnstake d v amount => do
    let p ← p.requestDelegationUnstake d v amount slot
    p.checkpointStakingV2Validator v slot
  | requestUnstake v staker amount => do
    let p ← p.requestUnstake v amount slot staker
    p.checkpointStakingV2Validator v slot
  | topUpStake v amount => do
    let p ← p.topUpStake v amount
    p.checkpointStakingV2Validator v slot
  | addValidatorStake v amount => do
    let p ← p.addValidatorStake v amount
    p.checkpointStakingV2Validator v slot
  | slashValidator v amount => (p.slashValidator v amount).checkpointStakingV2Validator v slot
  | recordBlockProduced v => do
    let p ← p.recordBlockProduced v
    p.validateV2Invariants
    pure p
  | deregisterValidator v => do
    let p ← p.deregisterValidator v
    p.validateV2Invariants
    pure p
  | rebalanceMossstakeAllocations target active =>
    p.rebalanceMossstakeAllocations target active slot
  | applyStakingV2EquivocationSlash v offense percent => do
    let slashed ← p.applyStakingV2EquivocationSlash v offense percent slot
    pure slashed.2
  | checkpointStakingV2Validator v => p.checkpointStakingV2Validator v slot

end EpochCall

/-! ## What a call does to the epoch state -/

namespace StakePool

variable {p p' : StakePool} {v : Pubkey} {slot : Nat} {P : StakingV2EpochState → Prop}

/-- The epoch state, if there is one, has the property. -/
def Kept (P : StakingV2EpochState → Prop) (p : StakePool) : Prop :=
  ∀ s, p.stakingV2State = some s → P s

theorem Kept.of_eq (h : Kept P p) (heq : p'.stakingV2State = p.stakingV2State) : Kept P p' := by
  intro s hs
  exact h s (heq ▸ hs)

/-- A property of the epoch state that the checkpoints of `slot` preserve. -/
def CheckpointKept (P : StakingV2EpochState → Prop) (slot : Nat) : Prop :=
  ∀ p p' v, Kept P p → p.checkpointStakingV2ValidatorInner v slot = .ok p' → Kept P p'

section
variable (hP : CheckpointKept P slot) (h : Kept P p)
include hP h

theorem CheckpointKept.checkpoint
    (hop : p.checkpointStakingV2Validator v slot = .ok p') : Kept P p' := by
  unfold checkpointStakingV2Validator at hop
  simp only [ok_rules] at hop
  obtain ⟨q, hq, -, rfl⟩ := hop
  exact hP p q v h hq

/-- A change outside the epoch state, and the checkpoint after it. -/
theorem CheckpointKept.after {x : Except String StakePool}
    (heq : ∀ q, x = .ok q → q.stakingV2State = p.stakingV2State)
    (hop : (x >>= fun q => q.checkpointStakingV2Validator v slot) = .ok p') : Kept P p' := by
  rw [bind_eq_ok] at hop
  obtain ⟨q, hq, hcp⟩ := hop
  exact hP.checkpoint (h.of_eq (heq q hq)) hcp

theorem CheckpointKept.rebalance
    (hop : p.rebalanceMossstakeAllocations target active slot = .ok p') :
    Kept P p' := by
  unfold rebalanceMossstakeAllocations at hop
  simp only [ok_rules] at hop
  obtain ⟨plan, -, q, hq, r, hr, u, hu, -, -, -, -, rfl⟩ := hop
  have hremoved : Kept P q := tryFold_induct h
    (fun a w b _ ha hb => ha.of_eq (removeMoss_epoch hb)) hq
  have hadded : Kept P r := tryFold_induct hremoved
    (fun a e b _ ha hb => ha.of_eq (addMoss_epoch hb)) hr
  exact tryFold_induct hadded (fun a w b _ ha hb => hP a b w ha hb) hu

end

theorem takeBonded_epoch
    (h : p.takeBonded v o remaining = .ok taken) : taken.2.stakingV2State = p.stakingV2State := by
  unfold takeBonded at h
  grind [takeSelfBond, takeDelegation]

theorem takeCoolingDown_epoch (p : StakePool) (v o : Pubkey) (loss : Nat) :
    (p.takeCoolingDown v o loss).stakingV2State = p.stakingV2State := by
  unfold takeCoolingDown
  split
  · rfl
  · split
    · rfl
    · split
      · rfl
      · rfl

theorem slashOwner_epoch (h : slashOwner v start percent t e = .ok t') :
    t'.updated.stakingV2State = t.updated.stakingV2State := by
  unfold slashOwner at h
  simp only [bind_eq_ok] at h
  obtain ⟨product, -, requested, -, h⟩ := h
  split at h
  · rw [pure_eq_ok] at h
    rw [← h]
  split at h
  · rw [pure_eq_ok] at h
    rw [← h]
  · simp only [bind_eq_ok] at h
    obtain ⟨remaining, -, taken, htaken, actual, -, h⟩ := h
    grind [takeBonded_epoch, takeCoolingDown_epoch]

theorem CheckpointKept.slash (hP : CheckpointKept P slot) (h : Kept P p)
    (hop : p.applyStakingV2EquivocationSlash v offense percent slot = .ok r) : Kept P r.2 := by
  unfold applyStakingV2EquivocationSlash at hop
  simp only [ok_rules] at hop
  obtain ⟨-, -, -, -, s, -, snapshot, -, x, -, -, t, ht, u, hu, q, hq, -, rfl⟩ := hop
  have hlosses : Kept P t.updated := tryFold_induct (P := fun t => Kept P t.updated) h
    (fun a e b _ ha hb => ha.of_eq (slashOwner_epoch hb)) ht
  have hsettled : Kept P u := by
    unfold settleSlash at hu
    simp only [ok_rules] at hu
    obtain ⟨i, -, a, -, b, -, rfl⟩ := hu
    exact hlosses
  unfold checkpointOffender at hq
  split at hq
  · exact hP u q v hsettled hq
  · cases hq
    exact hsettled

end StakePool

variable {p p' : StakePool} {c : EpochCall} {slot : Nat}

/-- **A call moves the accumulators by checkpoints only.** -/
theorem EpochCall.run_kept
    (hP : CheckpointKept P slot) (h : Kept P p) (hrun : c.run p slot = .ok p') :
    Kept P p' := by
  cases c with
  | delegate d v amount =>
    refine hP.after h (fun q hq => ?_) hrun
    obtain ⟨i, -, -, -, rfl⟩ := delegate_eq_ok hq
    rfl
  | requestDelegationUnstake d v amount =>
    refine hP.after h (fun q hq => ?_) hrun
    obtain ⟨-, -, -, -, i, -, -, rfl⟩ := requestDelegationUnstake_eq_ok.mp hq
    rfl
  | requestUnstake v staker amount =>
    refine hP.after h (fun q hq => ?_) hrun
    obtain ⟨i, -, -, -, -, -, -, rfl⟩ := requestUnstake_eq_ok.mp hq
    rfl
  | topUpStake v amount =>
    refine hP.after h (fun q hq => ?_) hrun
    obtain ⟨i, -, -, -, rfl⟩ := topUpStake_eq_ok.mp hq
    rfl
  | addValidatorStake v amount =>
    refine hP.after h (fun q hq => ?_) hrun
    obtain ⟨i, -, -, -, rfl⟩ := addValidatorStake_eq_ok.mp hq
    rfl
  | slashValidator v amount =>
    refine hP.checkpoint (h.of_eq ?_) hrun
    unfold StakePool.slashValidator
    split
    · rfl
    · rfl
  | recordBlockProduced v =>
    simp only [run, ok_rules] at hrun
    grind [StakePool.recordBlockProduced, Kept.of_eq]
  | deregisterValidator v =>
    simp only [run, ok_rules] at hrun
    grind [StakePool.deregisterValidator, Kept.of_eq]
  | rebalanceMossstakeAllocations target active => exact hP.rebalance h hrun
  | applyStakingV2EquivocationSlash v offense percent =>
    simp only [run, ok_rules] at hrun
    obtain ⟨r, hr, rfl⟩ := hrun
    exact hP.slash h hr
  | checkpointStakingV2Validator v => exact hP.checkpoint h hrun

/-- Every call leaves a validated pool. -/
theorem EpochCall.run_valid (hrun : c.run p slot = .ok p') : p'.validateV2Invariants = .ok () := by
  have hcp : ∀ {q : StakePool} {v : Pubkey}, q.checkpointStakingV2Validator v slot = .ok p' →
      p'.validateV2Invariants = .ok () := by
    intro q v h
    unfold StakePool.checkpointStakingV2Validator at h
    simp only [ok_rules] at h
    obtain ⟨q', -, hval, rfl⟩ := h
    exact hval
  cases c with
  | delegate d v amount =>
    grind [run]
  | requestDelegationUnstake d v amount =>
    grind [run]
  | requestUnstake v staker amount =>
    grind [run]
  | topUpStake v amount =>
    grind [run]
  | addValidatorStake v amount =>
    grind [run]
  | slashValidator v amount => exact hcp hrun
  | recordBlockProduced v =>
    grind [run]
  | deregisterValidator v =>
    grind [run]
  | rebalanceMossstakeAllocations target active =>
    simp only [run, StakePool.rebalanceMossstakeAllocations, ok_rules] at hrun
    grind
  | applyStakingV2EquivocationSlash v offense percent =>
    simp only [run, StakePool.applyStakingV2EquivocationSlash, ok_rules] at hrun
    grind
  | checkpointStakingV2Validator v => exact hcp hrun

/-! ## Runs -/

/-- The pools of one epoch, with the slot of the last call. -/
inductive EpochRun : StakePool → Nat → Prop
  | opened {p₀ p : StakePool} {activation : Nat} {validators : List Pubkey}
      (h : p₀.initializeStakingV2 activation validators = .ok p) : EpochRun p activation
  | call {p p' : StakePool} {slot slot' : Nat} (c : EpochCall) (h : EpochRun p slot)
      (hle : slot ≤ slot')
      (hin : ∀ s, p.stakingV2State = some s → slot' ≤ s.epochStartSlot + SLOTS_PER_EPOCH)
      (hrun : c.run p slot' = .ok p') : EpochRun p' slot'

/-- What holds of the epoch state along a run. -/
structure EpochInv (slot : Nat) (s : StakingV2EpochState) : Prop where
  timed : StakeTimed s slot
  within : slot ≤ s.epochStartSlot + SLOTS_PER_EPOCH
  weight : (s.validators.sumBy fun _ a => a.leaderWeight) < 2 ^ 64
  unsettled : s.lastSettledEpoch ≠ some s.currentEpoch

/-- **A checkpoint preserves the invariant.** -/
theorem EpochInv.checkpointKept (slot : Nat) : CheckpointKept (EpochInv slot) slot := by
  intro p p' v h hop s' hs'
  cases hs : p.stakingV2State with
  | none =>
    grind [StakePool.checkpointStakingV2ValidatorInner]
  | some s =>
    obtain ⟨-, a, a', ha, -, hcp, rfl⟩ := checkpointInner_spec hs hop
    cases hs'
    obtain ⟨htimed, hwithin, hweight, hunsettled⟩ := h s hs
    refine ⟨htimed.checkpoint ha hcp, hwithin, ?_, hunsettled⟩
    have hput := sumBy_put s.validators
      (fun _ (b : ValidatorEpochAccounting) => b.leaderWeight) v a'
    have hsame : a'.leaderWeight = a.leaderWeight := by rw [hcp.frozen]
    grind [share_of_get]

/-- The invariant of a run: the pool is valid and has an epoch that is under way. -/
structure RunInv (p : StakePool) (slot : Nat) : Prop where
  valid : p.validateV2Invariants = .ok ()
  epoch : Kept (EpochInv slot) p

theorem RunInv.call (h : RunInv p slot) (hle : slot ≤ slot')
    (hin : ∀ s, p.stakingV2State = some s → slot' ≤ s.epochStartSlot + SLOTS_PER_EPOCH)
    (hrun : c.run p slot' = .ok p') : RunInv p' slot' := by
  obtain ⟨hvalid, -, hepoch⟩ := validateV2Invariants_eq_ok.mp h.valid
  -- time passes before the call
  have hlater : Kept (EpochInv slot') p := by
    intro s hs
    obtain ⟨htimed, -, hweight, hunsettled⟩ := h.epoch s hs
    exact ⟨htimed.later hvalid (hepoch s hs) hle, hin s hs, hweight, hunsettled⟩
  exact ⟨EpochCall.run_valid hrun, EpochCall.run_kept (.checkpointKept slot') hlater hrun⟩

/-- A new epoch has no stake-time yet. -/
theorem RunInv.fresh {s epoch start l commissions opened}
    (h : p.Opened epoch start l (∅, commissions) opened) (hv : s.validators = opened.1)
    (hstart : s.epochStartSlot = start) (hnew : s.lastSettledEpoch ≠ some s.currentEpoch)
    (hval : (p.withEpoch s).validateV2Invariants = .ok ()) : RunInv (p.withEpoch s) start := by
  subst hstart
  refine ⟨hval, fun s' hs' => ?_⟩
  cases hs'
  obtain ⟨-, -, hepochs⟩ := validateV2Invariants_eq_ok.mp hval
  have hzero : ∀ v a, opened.1.get v = some a → a.stakeTime s.epochStartSlot = 0 := by
    intro v a ha
    obtain ⟨-, i, -, rfl⟩ := h.get ha
    unfold ValidatorEpochAccounting.stakeTime StakePool.opening
    rw [sumBy_mapValues]
    simp [EpochStakeAccumulator.stakeTime, EpochStakeAccumulator.new, HashMap.sumBy]
  refine ⟨⟨le_refl _, ?_, ?_, ?_⟩, Nat.le_add_right _ _, ?_, hnew⟩
  · intro v a ha
    rw [hv] at ha
    obtain ⟨-, i, -, rfl⟩ := h.get ha
    refine ⟨le_refl _, fun d x hx => ?_⟩
    simp only [StakePool.opening, get_mapValues, Option.map_eq_some_iff] at hx
    obtain ⟨n, -, rfl⟩ := hx
    exact le_refl _
  · intro v a ha
    grind [ValidatorEpochAccounting.stakeTime]
  · have hsum : s.stakeTime s.epochStartSlot = opened.1.sumBy fun _ _ => 0 := by
      unfold StakingV2EpochState.stakeTime
      rw [hv]
      exact sumBy_congr hzero
    rw [hsum]
    simp [HashMap.sumBy]
  · -- leader weights are below the stakes, and these fit
    have hle : ∀ v a, s.validators.get v = some a → a.leaderWeight ≤ p.effective v := by
      intro v a ha
      rw [hv] at ha
      obtain ⟨-, i, hi, rfl⟩ := h.get ha
      rw [effective_of_get hi.entry]
      exact hi.leaderWeight_le _ _
    exact lt_of_le_of_lt (sumBy_le_sumBy hle) (hepochs _ rfl).fits

theorem RunInv.opened {p₀ p : StakePool} {activation validators}
    (h : p₀.initializeStakingV2 activation validators = .ok p) : RunInv p activation := by
  unfold StakePool.initializeStakingV2 at h
  simp only [ok_rules] at h
  obtain ⟨-, -, -, opened, hopened, -, exposure, -, hval, rfl⟩ := h
  refine .fresh (openAccounting_spec hopened) rfl rfl ?_ hval
  grind

/-- **Every run.** -/
theorem EpochRun.inv (h : EpochRun p slot) : RunInv p slot := by
  induction h with
  | opened h => exact .opened h
  | call c _ hle hin hrun ih => exact ih.call hle hin hrun

/-- **When an epoch can be closed.** -/
theorem epoch_settlement_ok_iff {p : StakePool} {s : StakingV2EpochState} {slot budget : Nat}
    (hrun : EpochRun p slot) (hs : p.stakingV2State = some s) (hbudget : budget < 2 ^ 64) :
    (∃ r, p.closeEpoch (s.epochStartSlot + SLOTS_PER_EPOCH) budget = .ok r) ↔
      p.Closable s budget := by
  obtain ⟨hp, hkept⟩ := hrun.inv
  obtain ⟨htimed, hwithin, hweight, hunsettled⟩ := hkept s hs
  obtain ⟨hvalid, -, hepoch⟩ := validateV2Invariants_eq_ok.mp hp
  exact settle_iff hp hs (htimed.later hvalid (hepoch s hs) hwithin) rfl hweight hunsettled hbudget

section

/-- One validator with 100 000 LICN of its own and four times as much delegated, at the start. -/
def cappedPool : StakePool :=
  [PoolCall.stake ⟨1⟩ 100000000000000 0, .delegate ⟨3⟩ ⟨1⟩ 400000000000000 key_ne].foldl
    PoolCall.run StakePool.new

def cappedStart : StakePool := cappedPool.settleTo (cappedPool.initializeStakingV2 0 [⟨1⟩])

/-- After a tenth of the epoch the bond grows by `bond` spores. -/
def toppedUp (bond : Nat) : StakePool :=
  cappedStart.settleTo (EpochCall.run cappedStart 43200 (.topUpStake ⟨1⟩ bond))

/-- In the same slot the delegator adds four spores. -/
def followed (bond : Nat) : StakePool :=
  (toppedUp bond).settleTo (EpochCall.run (toppedUp bond) 43200 (.delegate ⟨3⟩ ⟨1⟩ 4))

private theorem followed_run {bond}
    (hbond : (EpochCall.run cappedStart 43200 (.topUpStake ⟨1⟩ bond)).isOk = true)
    (hdel : (EpochCall.run (toppedUp bond) 43200 (.delegate ⟨3⟩ ⟨1⟩ 4)).isOk = true) :
    EpochRun (followed bond) 43200 := by
  have hopen : EpochRun cappedStart 0 := .opened (settleTo_of_isOk (by decide +kernel))
  have hin : ∀ p : StakePool, ∀ s, p.stakingV2State = some s →
      43200 ≤ s.epochStartSlot + SLOTS_PER_EPOCH :=
    fun p s _ => le_trans (by decide) (Nat.le_add_left SLOTS_PER_EPOCH _)
  have htop : EpochRun (toppedUp bond) 43200 :=
    .call _ hopen (by decide) (hin _) (settleTo_of_isOk hbond)
  exact .call _ htop (le_refl _) (hin _) (settleTo_of_isOk hdel)

/-- Ten spores of bond carry four spores of delegation. -/
theorem epoch_settlement_ok_iff_followed :
    ((followed 10).closeEpoch 432000 1000).isOk = true
      ∧ (followed 10).Closable ((followed 10).stakingV2State.get (by decide +kernel)) 1000 := by
  have hok : ((followed 10).closeEpoch 432000 1000).isOk = true := by decide +kernel
  have hstart : ((followed 10).stakingV2State.get (by decide +kernel)).epochStartSlot = 0 := by
    decide +kernel
  refine ⟨hok, (epoch_settlement_ok_iff (followed_run (by decide +kernel) (by decide +kernel))
    (Option.some_get _).symm (by decide)).mp ?_⟩
  rw [hstart]
  exact exists_of_isOk hok

/-- One spore of bond and four spores of delegation keep the validator at exactly five times its
    bond.  Over the epoch they average to nine tenths of that: the bond is rounded down to nothing,
    the delegation to three, and the epoch cannot be closed, whatever the budget. -/
theorem rounded_averages_stop_settlement :
    EpochRun (followed 1) 43200 ∧ (followed 1).validateV2Invariants = .ok ()
      ∧ ((followed 1).stakingV2EpochRewardInputs 432000).isOk = true
      ∧ ((followed 1).closeEpoch 432000 0).isOk = false
      ∧ ((followed 1).closeEpoch 432000 1000).isOk = false :=
  ⟨followed_run (by decide +kernel) (by decide +kernel), by decide +kernel, by decide +kernel,
    by decide +kernel, by decide +kernel⟩

end
end Lichen.Staking
