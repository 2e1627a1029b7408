/-
  MossStake backing (`core/src/consensus.rs`): liquid stake is delegated by the protocol itself, and
  every change of the pooled amount replaces all of its allocations at once.

  `planMossstakeAllocations` fills validators evenly by saturation: the part of its limit that each
  reaches is found by binary search, and what rounding leaves over is handed out one spore at a time
  to the least saturated.  `rebalanceMossstakeAllocations` takes the old allocations out, puts the
  new ones in and checkpoints every validator it touched.
-/
import Lichen.Staking.EpochOps

open Base
namespace Lichen.Staking

/-- One validator in a plan: its stake without MossStake, its self-bond, the limit it may reach and
    the room below it. -/
structure MossLimit where
  validator : Pubkey
  base : Nat
  selfBond : Nat
  maximum : Nat
  capacity : Nat
  deriving DecidableEq, Repr

def RATIO_SCALE : Nat := 1000000000000000000

/-- What a validator gets when everyone is filled to `ratio / RATIO_SCALE` of the limit. -/
def MossLimit.allocationAt (l : MossLimit) (ratio : Nat) : Nat :=
  let saturated := U128.toU64 (U128.saturatingMul l.maximum ratio / RATIO_SCALE)
  min (U64.saturatingSub saturated l.base) l.capacity

/-- `left` is at most as saturated as `right`; keys break ties. -/
def MossLimit.lessSaturated (allocations : HashMap Pubkey Nat) (left right : MossLimit) : Prop :=
  let l := U128.saturatingMul (left.base + (allocations.get left.validator).getD 0) right.maximum
  let r := U128.saturatingMul (right.base + (allocations.get right.validator).getD 0) left.maximum
  l < r ∨ (l = r ∧ keyLe left.validator right.validator)

instance (allocations : HashMap Pubkey Nat) : DecidableRel (MossLimit.lessSaturated allocations) :=
  fun left right => by unfold MossLimit.lessSaturated; infer_instance

/-- The `while remaining > 0` loop. -/
def distributeRemainder (limits : List MossLimit) :
    Nat → HashMap Pubkey Nat → Except String (HashMap Pubkey Nat)
  | 0, allocations => .ok allocations
  | remaining + 1, allocations =>
    let candidates := limits.filter fun l =>
      decide ((allocations.get l.validator).getD 0 < l.capacity)
    match (candidates.insertionSort (MossLimit.lessSaturated allocations)).head? with
    | none => .error "MossStake allocator exhausted capacity early"
    | some l => do
      let entry ← okOr (U64.checkedAdd ((allocations.get l.validator).getD 0) 1)
        "MossStake allocation increment overflow"
      distributeRemainder limits remaining (allocations.put l.validator entry)

/-- The sum of `allocationAt` over the validators. -/
def allocationTotalAt (limits : List MossLimit) (ratio : Nat) : Except String Nat :=
  tryFold (fun total (l : MossLimit) =>
    okOr (U64.checkedAdd total (l.allocationAt ratio)) "MossStake ratio allocation overflow") 0
    limits

/-- The positive allocations at a ratio. -/
def allocationsAt (limits : List MossLimit) (ratio : Nat) : HashMap Pubkey Nat :=
  limits.foldl (fun m l =>
    if 0 < l.allocationAt ratio then m.put l.validator (l.allocationAt ratio) else m) ∅

namespace StakePool

variable (p : StakePool)

/-- A validator of the plan: reward-eligible, measured without its MossStake allocation. -/
def mossBase (validator : Pubkey) : Except String (Nat × Nat) := do
  let info ← okOr (p.stakes.get validator)
    s!"MossStake validator {validator} has no stake entry"
  failIf (info.isActive = false ∨ info.meetsMinimum = false)
    s!"MossStake validator {validator} is not reward-eligible"
  let base ← okOr (U64.checkedSub info.totalStake
    (p.delegation validator MOSSSTAKE_PROTOCOL_DELEGATOR))
    s!"validator {validator} Moss allocation underflow"
  pure (base, info.amount)

/-- The first loop of the plan: the bases in key order, and their total. -/
def mossBases (validators : List Pubkey) :
    Except String (List (Pubkey × Nat × Nat) × Nat) :=
  tryFold (fun (acc : List (Pubkey × Nat × Nat) × Nat) validator => do
    let entry ← p.mossBase validator
    let total ← okOr (U64.checkedAdd acc.2 entry.1) "MossStake active base overflow"
    pure (acc.1 ++ [(validator, entry)], total)) ([], 0) validators

/-- The second loop: the limit of each validator, and the room they have together. -/
def mossLimits (networkLimit : Nat) (bases : List (Pubkey × Nat × Nat)) :
    Except String (List MossLimit × Nat) :=
  tryFold (fun (acc : List MossLimit × Nat) (e : Pubkey × Nat × Nat) => do
    let selfBondLimit ← okOr (U64.checkedMul e.2.2 MAX_VALIDATOR_EFFECTIVE_STAKE_MULTIPLIER)
      s!"validator {e.1} Moss capacity overflow"
    let maximum := min selfBondLimit networkLimit
    let capacity := U64.saturatingSub maximum e.2.1
    let total ← okOr (U64.checkedAdd acc.2 capacity) "MossStake capacity total overflow"
    pure (acc.1 ++ [⟨e.1, e.2.1, e.2.2, maximum, capacity⟩], total)) ([], 0) bases

/-- The allocation itself, once the limits are known to have room for `target`. -/
def allocateMoss (limits : List MossLimit) (target : Nat) : Except String (HashMap Pubkey Nat) := do
  let ratio ← bisect (fun ratio => do
    let total ← allocationTotalAt limits ratio
    pure (decide (total ≤ target))) 64 0 RATIO_SCALE
  let allocated ← tryFold (fun total (l : MossLimit) =>
    okOr (U64.checkedAdd total (l.allocationAt ratio)) "MossStake planned allocation overflow") 0
    limits
  let remaining ← okOr (U64.checkedSub target allocated) "MossStake allocation remainder underflow"
  let bound ← okOr (U64.checkedMul limits.length 20) "MossStake rounding bound overflow"
  failIf (bound < remaining)
    s!"MossStake allocator residual {remaining} exceeds deterministic rounding bound {bound}"
  distributeRemainder limits remaining (allocationsAt limits ratio)

/-- `plan_mossstake_allocations`. -/
def planMossstakeAllocations (targetBacking : Nat)
    (activeValidators : List Pubkey) : Except String (HashMap Pubkey Nat) := do
  failIf (activeValidators = []) "MossStake allocation requires active validators"
  let validators := activeValidators.insertionSort keyLe
  match adjacentDuplicate validators with
  | some v => .error s!"duplicate MossStake validator {v}"
  | none =>
    let bases ← p.mossBases validators
    let finalActiveStake ← okOr (U64.checkedAdd bases.2 targetBacking)
      "MossStake final active stake overflow"
    let saturationBps ← validatorSaturationCapBps validators.length
    let networkLimit ← mulDivCeil finalActiveStake saturationBps 10000
    let limits ← mossLimits networkLimit bases.1
    failIf (limits.2 < targetBacking)
      (s!"MossStake backing {targetBacking} exceeds " ++
        s!"deterministic validator capacity {limits.2}")
    if targetBacking = 0 then pure ∅ else allocateMoss limits.1 targetBacking

/-! ## Replacing the allocations -/

/-- `mossstake_allocation_total`. -/
def mossstakeAllocationTotal : Except String Nat :=
  tryFold (fun total (e : Pubkey × HashMap Pubkey Nat) =>
    okOr (U64.checkedAdd total ((e.2.get MOSSSTAKE_PROTOCOL_DELEGATOR).getD 0))
      "MossStake allocation total overflow") 0 p.delegations.toList

/-- Take the allocation of one validator out. -/
def removeMoss (validator : Pubkey) : Except String StakePool := do
  let existing := p.delegation validator MOSSSTAKE_PROTOCOL_DELEGATOR
  let entries := ((p.delegations.get validator).getD ∅).remove MOSSSTAKE_PROTOCOL_DELEGATOR
  let delegations := if entries.isEmpty = true then p.delegations.remove validator
    else p.delegations.put validator entries
  if 0 < existing then
    let info ← okOr (p.stakes.get validator)
      s!"MossStake allocation references unknown validator {validator}"
    let delegatedAmount ← okOr (U64.checkedSub info.delegatedAmount existing)
      "MossStake validator delegation underflow"
    let totalStaked ← okOr (U64.checkedSub p.totalStaked existing)
      "MossStake network stake underflow"
    let info := { info with delegatedAmount }
    pure { p with stakes := p.stakes.put validator info.refresh, totalStaked, delegations }
  else pure { p with delegations }

/-- Put a new allocation in. -/
def addMoss (e : Pubkey × Nat) : Except String StakePool := do
  let info ← okOr (p.stakes.get e.1) s!"MossStake validator {e.1} disappeared"
  let delegatedAmount ← okOr (U64.checkedAdd info.delegatedAmount e.2)
    "MossStake validator delegation overflow"
  let totalStaked ← okOr (U64.checkedAdd p.totalStaked e.2) "MossStake network stake overflow"
  let info := { info with delegatedAmount }
  pure { p with
    stakes := p.stakes.put e.1 info.refresh
    totalStaked
    delegations := p.delegations.put e.1
      (((p.delegations.get e.1).getD ∅).put MOSSSTAKE_PROTOCOL_DELEGATOR e.2) }

/-- The validators that hold a MossStake allocation. -/
def mossBacked : List Pubkey :=
  p.delegations.keys.filter fun v => decide (0 < p.delegation v MOSSSTAKE_PROTOCOL_DELEGATOR)

/-- `rebalance_mossstake_allocations`. -/
def rebalanceMossstakeAllocations (targetBacking : Nat)
    (activeValidators : List Pubkey) (executionSlot : Nat) : Except String StakePool := do
  let allocations ← p.planMossstakeAllocations targetBacking activeValidators
  let updated ← tryFold removeMoss p p.delegations.keys
  let updated ← tryFold addMoss updated (sortedEntries allocations)
  let affected := p.mossBacked
    ++ allocations.keys.filter fun v => decide (v ∉ p.mossBacked)
  let updated ← tryFold
    (fun (q : StakePool) validator => q.checkpointStakingV2ValidatorInner validator executionSlot)
    updated affected
  updated.validateV2Invariants
  let total ← updated.mossstakeAllocationTotal
  failIf (total ≠ targetBacking) "MossStake allocation does not reconcile to backing"
  pure updated

end StakePool
end Lichen.Staking
