/-
  Closing an epoch (`core/src/consensus.rs`): the stake-time averages of the epoch, the reward plan
  made from them and its settlement.

  The averages are rounded down, one owner at a time.  The plan then repeats on them the rule that
  every change of the pool was checked against while the epoch ran, that a validator has at most
  five times its self-bond; the settlement compares what it has booked with what was planned.

  The loops walk `BTreeMap`s in key order.  A map in an input or a result is compared by its sorted
  entries.
-/
import Lichen.Base.Apportion
import Lichen.Staking.EpochOps

open Base
namespace Lichen.Staking

/-! ## Data -/

structure ValidatorEpochStakeWeight where
  validator : Pubkey
  averageSelfBond : Nat
  averageDelegations : List (Pubkey × Nat)
  deriving DecidableEq, Repr

structure EpochStakeWeightSnapshot where
  epoch : Nat
  startSlot : Nat
  endSlot : Nat
  validators : List ValidatorEpochStakeWeight
  deriving DecidableEq, Repr

structure StakingV2EpochRewardInputs where
  stakeWeights : EpochStakeWeightSnapshot
  performanceBps : HashMap Pubkey Nat
  commissionBps : HashMap Pubkey Nat

structure DelegatorEpochReward where
  delegator : Pubkey
  amount : Nat
  deriving DecidableEq, Repr

structure ValidatorEpochRewardPlan where
  validator : Pubkey
  baseReward : Nat
  performanceBps : Nat
  performanceAdjustedReward : Nat
  selfBondReward : Nat
  delegationGrossReward : Nat
  commissionReward : Nat
  delegatorRewards : List DelegatorEpochReward
  deriving DecidableEq, Repr

structure EpochSecurityRewardPlan where
  rewardBudget : Nat
  assignedReward : Nat
  performanceUnminted : Nat
  validators : List ValidatorEpochRewardPlan
  deriving DecidableEq, Repr

structure ValidatorEpochRewardSettlement where
  validator : Pubkey
  plannedOperatorReward : Nat
  liquidOperatorReward : Nat
  bootstrapDebtPayment : Nat
  delegatorRewards : List DelegatorEpochReward
  deriving DecidableEq, Repr

structure EpochSecurityRewardSettlement where
  plan : EpochSecurityRewardPlan
  totalMinted : Nat
  bootstrapDebtUnminted : Nat
  validators : List ValidatorEpochRewardSettlement
  deriving DecidableEq, Repr

/-- `average_effective_stake`. -/
def ValidatorEpochStakeWeight.averageEffectiveStake (w : ValidatorEpochStakeWeight) :
    Except String Nat :=
  tryFold (fun total (e : Pubkey × Nat) =>
    okOr (U64.checkedAdd total e.2) "average validator stake overflow") w.averageSelfBond
    w.averageDelegations

/-- The sum of a list of credits. -/
def creditTotal (start : Nat) (overflow : String) (credits : List DelegatorEpochReward) :
    Except String Nat :=
  tryFold (fun total (credit : DelegatorEpochReward) =>
    okOr (U64.checkedAdd total credit.amount) overflow) start credits

/-! ## The inputs of a settlement -/

/-- The averages of one validator; a delegator whose average rounds to zero is left out. -/
def averageWeight (epochEnd epochStart : Nat) (e : Pubkey × ValidatorEpochAccounting) :
    Except String ValidatorEpochStakeWeight := do
  let averageSelfBond ← e.2.selfBond.averageAmount epochEnd epochStart
  let averageDelegations ← tryFold (fun averages (d : Pubkey × EpochStakeAccumulator) => do
    let average ← d.2.averageAmount epochEnd epochStart
    pure (if 0 < average then averages ++ [(d.1, average)] else averages)) []
    (sortedEntries e.2.delegations)
  pure { validator := e.1, averageSelfBond, averageDelegations }

/-- The loop state of the inputs. -/
structure InputProgress where
  expectedDistributed : Nat
  validators : List ValidatorEpochStakeWeight
  performanceBps : HashMap Pubkey Nat
  commissionBps : HashMap Pubkey Nat

namespace StakePool

/-- One validator: its share of the epoch's blocks, what it produced of them, and its averages. -/
def inputStep (p : StakePool) (state : StakingV2EpochState) (epochEnd totalLeaderWeight : Nat)
    (last : Bool) (t : InputProgress) (e : Pubkey × ValidatorEpochAccounting) :
    Except String InputProgress := do
  let expectedBlocks ← apportion SLOTS_PER_EPOCH totalLeaderWeight t.expectedDistributed
    e.2.leaderWeight last "expected block remainder underflow"
  let expectedDistributed ← okOr (U64.checkedAdd t.expectedDistributed expectedBlocks)
    "expected block total overflow"
  let stake ← okOr (p.stakes.get e.1) s!"validator {e.1} disappeared before settlement"
  let produced ← okOr (U64.checkedSub stake.blocksProduced e.2.productionBaseline)
    s!"validator {e.1} production counter regressed"
  let performance := if expectedBlocks = 0 then 10000
    else min (U128.saturatingMul produced 10000 / expectedBlocks) 10000
  let weight ← averageWeight epochEnd state.epochStartSlot e
  pure { expectedDistributed
         validators := t.validators ++ [weight]
         performanceBps := t.performanceBps.put e.1 performance
         commissionBps := t.commissionBps.put e.1 e.2.commissionBps }

/-- `staking_v2_epoch_reward_inputs`. -/
def stakingV2EpochRewardInputs (p : StakePool) (epochEnd : Nat) :
    Except String StakingV2EpochRewardInputs := do
  p.validateV2Invariants
  let state ← okOr p.stakingV2State "Staking V2 state is not initialized"
  let expectedEnd ← okOr (U64.checkedAdd state.epochStartSlot SLOTS_PER_EPOCH)
    "Staking V2 epoch end overflow"
  failIf (epochEnd ≠ expectedEnd)
    s!"Staking V2 epoch {state.currentEpoch} closes at {expectedEnd}, not {epochEnd}"
  let totalLeaderWeight ← tryFold (fun total (e : Pubkey × ValidatorEpochAccounting) =>
    okOr (U64.checkedAdd total e.2.leaderWeight) "epoch leader-weight total overflow") 0
    (sortedEntries state.validators)
  failIf (totalLeaderWeight = 0) "completed epoch has zero leader weight"
  let t ← tryFoldLast (p.inputStep state epochEnd totalLeaderWeight) ⟨0, [], ∅, ∅⟩
    (sortedEntries state.validators)
  failIf (t.expectedDistributed ≠ SLOTS_PER_EPOCH)
    "expected block accounting does not cover the epoch"
  pure { stakeWeights :=
           { epoch := state.currentEpoch, startSlot := state.epochStartSlot, endSlot := epochEnd
             validators := t.validators }
         performanceBps := t.performanceBps
         commissionBps := t.commissionBps }

/-! ## The plan -/

/-- One weight of the plan: known, without duplicates, and within the cap on its averages. -/
def checkWeight (p : StakePool) (entry : ValidatorEpochStakeWeight) :
    Except String (ValidatorEpochStakeWeight × Nat) := do
  failIf (p.stakes.containsKey entry.validator = false)
    s!"epoch stake weight references unknown validator {entry.validator}"
  let delegations := entry.averageDelegations.insertionSort fun a b => keyLe a.1 b.1
  let entry := { entry with averageDelegations := delegations }
  match adjacentDuplicate (delegations.map Prod.fst) with
  | some d =>
    .error s!"duplicate epoch delegation for validator {entry.validator} and delegator {d}"
  | none =>
    forEach delegations fun (e : Pubkey × Nat) => do
      failIf (e.1 = entry.validator)
        s!"validator {entry.validator} self-bond is duplicated in epoch delegation weights"
      failIf (e.2 = 0) s!"validator {entry.validator} has a zero epoch delegation from {e.1}"
    let effective ← entry.averageEffectiveStake
    let maximum ← okOr
      (U64.checkedMul entry.averageSelfBond MAX_VALIDATOR_EFFECTIVE_STAKE_MULTIPLIER)
      "average validator concentration cap overflow"
    failIf (maximum < effective)
      (s!"validator {entry.validator} average effective stake {effective} " ++
        s!"exceeds V2 cap {maximum}")
    pure (entry, effective)

/-- The weights in key order, and what they have together. -/
def eligibleWeights (p : StakePool) (weights : List ValidatorEpochStakeWeight) :
    Except String (List ValidatorEpochStakeWeight × Nat) :=
  let eligible := weights.insertionSort fun a b => keyLe a.validator b.validator
  match adjacentDuplicate (eligible.map ValidatorEpochStakeWeight.validator) with
  | some v => .error s!"duplicate epoch stake weight for validator {v}"
  | none => tryFold (fun (acc : List ValidatorEpochStakeWeight × Nat) entry => do
      let checked ← p.checkWeight entry
      let eligibleStake ← okOr (U64.checkedAdd acc.2 checked.2)
        "reward-eligible average stake overflow"
      pure (acc.1 ++ [checked.1], eligibleStake)) ([], 0) eligible

end StakePool

/-- The reward of one delegator; a reward of zero is left out. -/
def delegatorStep (budget averageDelegated : Nat) (last : Bool)
    (acc : Nat × List DelegatorEpochReward) (e : Pubkey × Nat) :
    Except String (Nat × List DelegatorEpochReward) := do
  let reward ← apportion budget averageDelegated acc.1 e.2 last
    "delegator reward remainder underflow"
  let distributed ← okOr (U64.checkedAdd acc.1 reward) "delegator reward total overflow"
  pure (distributed, if 0 < reward then acc.2 ++ [⟨e.1, reward⟩] else acc.2)

/-- The rewards of the delegators of one validator, and their sum. -/
def planDelegators (budget averageDelegated : Nat) (delegations : List (Pubkey × Nat)) :
    Except String (Nat × List DelegatorEpochReward) :=
  tryFoldLast (delegatorStep budget averageDelegated) (0, []) delegations

/-- The delegators of a validator get exactly their budget. -/
def planDelegations (validator : Pubkey) (budget averageDelegated : Nat)
    (delegations : List (Pubkey × Nat)) : Except String (List DelegatorEpochReward) :=
  if 0 < averageDelegated then do
    let planned ← planDelegators budget averageDelegated delegations
    failIf (planned.1 ≠ budget)
      s!"delegator reward conservation failure for validator {validator}"
    pure planned.2
  else .ok []

/-- What is left of a validator's base reward, split between its bond, its commission and its
    delegators. -/
def splitReward (weight : ValidatorEpochStakeWeight) (effectiveStake commission baseReward
    performance : Nat) : Except String ValidatorEpochRewardPlan := do
  let adjusted := mulDiv baseReward performance 10000
  let averageDelegated ← okOr (U64.checkedSub effectiveStake weight.averageSelfBond)
    "average delegated stake underflow"
  let gross := if averageDelegated = 0 then 0 else mulDiv adjusted averageDelegated effectiveStake
  let selfBondReward ← okOr (U64.checkedSub adjusted gross)
    "validator self-bond reward underflow"
  let commissionReward := mulDiv gross commission 10000
  let delegatorBudget ← okOr (U64.checkedSub gross commissionReward)
    "delegator reward budget underflow"
  let delegatorRewards ← planDelegations weight.validator delegatorBudget averageDelegated
    weight.averageDelegations
  let operator ← okOr (U64.checkedAdd selfBondReward commissionReward)
    "validator reward-plan total overflow"
  let plannedTotal ← creditTotal operator "validator reward-plan total overflow" delegatorRewards
  failIf (plannedTotal ≠ adjusted)
    (s!"validator {weight.validator} reward-plan mismatch: planned={plannedTotal}, " ++
      s!"adjusted={adjusted}")
  pure { validator := weight.validator
         baseReward
         performanceBps := performance
         performanceAdjustedReward := adjusted
         selfBondReward
         delegationGrossReward := gross
         commissionReward
         delegatorRewards }

/-- The loop state of the plan. -/
structure PlanProgress where
  baseDistributed : Nat
  assignedReward : Nat
  validators : List ValidatorEpochRewardPlan

/-- One validator of the plan. -/
def planStep (budget eligibleStake : Nat) (performanceBps commissionBps : HashMap Pubkey Nat)
    (last : Bool) (t : PlanProgress) (weight : ValidatorEpochStakeWeight) :
    Except String PlanProgress := do
  let effectiveStake ← weight.averageEffectiveStake
  let baseReward ← apportion budget eligibleStake t.baseDistributed effectiveStake last
    "epoch base-reward remainder underflow"
  let baseDistributed ← okOr (U64.checkedAdd t.baseDistributed baseReward)
    "epoch base-reward total overflow"
  let performance ← okOr (performanceBps.get weight.validator)
    s!"missing completed-epoch performance for validator {weight.validator}"
  failIf (10000 < performance)
    s!"validator {weight.validator} performance {performance} exceeds 10000 basis points"
  let commission ← okOr (commissionBps.get weight.validator)
    s!"missing completed-epoch commission for validator {weight.validator}"
  failIf (MAX_VALIDATOR_COMMISSION_BPS < commission)
    (s!"validator {weight.validator} commission {commission} " ++
      s!"exceeds maximum {MAX_VALIDATOR_COMMISSION_BPS}")
  let assignedReward ← okOr (U64.checkedAdd t.assignedReward (mulDiv baseReward performance 10000))
    "assigned epoch reward overflow"
  let plan ← splitReward weight effectiveStake commission baseReward performance
  pure { baseDistributed, assignedReward, validators := t.validators ++ [plan] }

namespace StakePool

/-- `plan_v2_epoch_rewards_for_weights`. -/
def planV2EpochRewardsForWeights (p : StakePool) (budget : Nat)
    (stakeWeights : EpochStakeWeightSnapshot) (performanceBps commissionBps : HashMap Pubkey Nat) :
    Except String EpochSecurityRewardPlan := do
  p.validateV2Invariants
  failIf (stakeWeights.endSlot ≤ stakeWeights.startSlot)
    "epoch stake-weight interval must be non-empty"
  let eligible ← p.eligibleWeights stakeWeights.validators
  if budget = 0 ∨ eligible.2 = 0 then
    pure { rewardBudget := budget, assignedReward := 0, performanceUnminted := budget
           validators := [] }
  else
    let t ← tryFoldLast (planStep budget eligible.2 performanceBps commissionBps) ⟨0, 0, []⟩
      eligible.1
    failIf (t.baseDistributed ≠ budget)
      (s!"epoch base-reward conservation failure: distributed={t.baseDistributed}, " ++
        s!"budget={budget}")
    let performanceUnminted ← okOr (U64.checkedSub budget t.assignedReward)
      "performance-unminted reward underflow"
    pure { rewardBudget := budget, assignedReward := t.assignedReward, performanceUnminted
           validators := t.validators }

/-! ## The settlement -/

end StakePool

/-- The loop state of the settlement. -/
structure SettleProgress where
  updated : StakePool
  totalMinted : Nat
  bootstrapDebtUnminted : Nat
  validators : List ValidatorEpochRewardSettlement

/-- Book the planned reward of one validator: its operator earns and claims at once. -/
def settleStep (epochStart numActive : Nat) (t : SettleProgress)
    (plan : ValidatorEpochRewardPlan) : Except String SettleProgress := do
  let planned ← okOr (U64.checkedAdd plan.selfBondReward plan.commissionReward)
    "planned validator operator reward overflow"
  let info ← okOr (t.updated.stakes.get plan.validator)
    s!"planned reward references unknown validator {plan.validator}"
  let _ ← okOr (U64.checkedAdd info.rewardsEarned planned)
    s!"validator {plan.validator} unclaimed reward overflow"
  let claimed := (info.addReward planned epochStart).claimRewards epochStart numActive
  let updated := { t.updated with stakes := t.updated.stakes.put plan.validator claimed.1 }
  let delegatorTotal ← creditTotal 0 "delegator settlement total overflow" plan.delegatorRewards
  let liquid ← okOr (U64.checkedAdd t.totalMinted claimed.2.1)
    "epoch minted settlement total overflow"
  let totalMinted ← okOr (U64.checkedAdd liquid delegatorTotal)
    "epoch minted settlement total overflow"
  let bootstrapDebtUnminted ← okOr (U64.checkedAdd t.bootstrapDebtUnminted claimed.2.2)
    "epoch bootstrap debt total overflow"
  pure { updated, totalMinted, bootstrapDebtUnminted
         validators := t.validators ++
           [⟨plan.validator, planned, claimed.2.1, claimed.2.2, plan.delegatorRewards⟩] }

namespace StakePool

/-- The reward-eligible validators, at least one. -/
def numActive (p : StakePool) : Nat :=
  max (p.stakes.toList.countP fun e => e.2.isActive && e.2.meetsMinimum) 1

/-- `apply_v2_epoch_reward_plan`. -/
def applyV2EpochRewardPlan (p : StakePool) (plan : EpochSecurityRewardPlan) (epochStart : Nat) :
    Except String (EpochSecurityRewardSettlement × StakePool) := do
  let t ← tryFold (settleStep epochStart p.numActive) ⟨p, 0, 0, []⟩ plan.validators
  let accounted ← okOr (U64.checkedAdd t.totalMinted t.bootstrapDebtUnminted)
    "epoch applied reward total overflow"
  failIf (accounted ≠ plan.assignedReward)
    (s!"epoch settlement mismatch: minted={t.totalMinted} " ++
      s!"debt_unminted={t.bootstrapDebtUnminted} assigned={plan.assignedReward}")
  t.updated.validateV2Invariants
  pure (⟨plan, t.totalMinted, t.bootstrapDebtUnminted, t.validators⟩, t.updated)

/-- `settle_v2_epoch_rewards_for_weights`. -/
def settleV2EpochRewardsForWeights (p : StakePool) (budget : Nat)
    (stakeWeights : EpochStakeWeightSnapshot) (performanceBps commissionBps : HashMap Pubkey Nat)
    (epochStart : Nat) : Except String (EpochSecurityRewardSettlement × StakePool) := do
  let expected ← p.stakingV2EpochRewardInputs stakeWeights.endSlot
  failIf (expected.stakeWeights ≠ stakeWeights
      ∨ sortedEntries expected.performanceBps ≠ sortedEntries performanceBps
      ∨ sortedEntries expected.commissionBps ≠ sortedEntries commissionBps)
    "Staking V2 settlement inputs do not match committed epoch accounting"
  let state ← okOr p.stakingV2State "Staking V2 state is not initialized"
  failIf (state.lastSettledEpoch = some state.currentEpoch)
    s!"Staking V2 epoch {state.currentEpoch} is already settled"
  failIf (epochStart ≠ stakeWeights.startSlot)
    s!"Staking V2 reward epoch starts at {stakeWeights.startSlot}, not {epochStart}"
  let plan ← p.planV2EpochRewardsForWeights budget stakeWeights performanceBps commissionBps
  let applied ← p.applyV2EpochRewardPlan plan epochStart
  let state ← okOr applied.2.stakingV2State "Staking V2 state disappeared during settlement"
  let updated := { applied.2 with
    stakingV2State := some { state with lastSettledEpoch := some state.currentEpoch } }
  updated.validateV2Invariants
  pure (applied.1, updated)

/-- The end of an epoch up to its settlement, as `stage_staking_v2_epoch_settlement` runs it. -/
def closeEpoch (p : StakePool) (epochEnd budget : Nat) :
    Except String (EpochSecurityRewardSettlement × StakePool) := do
  let inputs ← p.stakingV2EpochRewardInputs epochEnd
  p.settleV2EpochRewardsForWeights budget inputs.stakeWeights inputs.performanceBps
    inputs.commissionBps inputs.stakeWeights.startSlot

end StakePool
end Lichen.Staking
