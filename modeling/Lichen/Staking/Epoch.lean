/-
  Staking V2 (`core/src/consensus.rs`): epoch accounting over the stake pool.

  An epoch freezes the voting power of its validators and, with it, the owners whose stake it was
  (the slash exposure).  While it runs, every owner's stake-time is accumulated; every mutation of
  a validator's stake is followed by a checkpoint, and `validateV2Invariants` then compares the
  whole pool with the epoch state and with two concentration limits: no active validator above five
  times its self-bond, and no validator of the epoch above its share of the epoch's stake.

  Both limits are checked for all validators after every change of one of them.
-/
import Lichen.Core.Stake
import Lichen.Staking.Pool

open Base
namespace Lichen.Staking

/-! ## Constants and slots -/

def SLOTS_PER_EPOCH : Nat := 432000

def SLASHING_V2_EVIDENCE_WINDOW_EPOCHS : Nat := 2

def SLASHING_V2_EVIDENCE_WINDOW_SLOTS : Nat := SLOTS_PER_EPOCH * SLASHING_V2_EVIDENCE_WINDOW_EPOCHS

def MATURE_VALIDATOR_SATURATION_BPS : Nat := 500

def DEFAULT_VALIDATOR_COMMISSION_BPS : Nat := 500

def MAX_VALIDATOR_COMMISSION_BPS : Nat := 1000

def MAX_VALIDATOR_COMMISSION_CHANGE_BPS_PER_EPOCH : Nat := 100

def STAKING_V2_STATE_VERSION : Nat := 2

/-- The protocol-owned delegator of every MossStake allocation; no private key exists for it. -/
def MOSSSTAKE_PROTOCOL_DELEGATOR : Pubkey :=
  ⟨0x2661362e2a1d78e26f06e7dd9da0748267d1dce506130837833f083c39751da5⟩

def slotToEpoch (slot : Nat) : Nat := slot / SLOTS_PER_EPOCH

/-- `epoch * SLOTS_PER_EPOCH`, unchecked. -/
def epochStartSlot (epoch : Nat) : Nat := epoch * SLOTS_PER_EPOCH % 2 ^ 64

/-! ## Limits -/

/-- `validator_saturation_cap_bps`: linear from 100% at one validator to 5% at twenty, never below
    an equal share. -/
def validatorSaturationCapBps (activeValidators : Nat) : Except String Nat :=
  if activeValidators = 0 then .error "validator saturation requires an active validator"
  else if 20 ≤ activeValidators then .ok MATURE_VALIDATOR_SATURATION_BPS
  else do
    let remaining := U64.saturatingSub 20 activeValidators
    let product ← okOr (U64.checkedMul 9500 remaining) "validator saturation interpolation overflow"
    let linear ← okOr (U64.checkedAdd MATURE_VALIDATOR_SATURATION_BPS (product / 19))
      "validator saturation cap overflow"
    let equalShare := (10000 + activeValidators - 1) / activeValidators
    pure (min (max linear equalShare) 10000)

/-- `mul_div_ceil_u64`. -/
def mulDivCeil (left right denominator : Nat) : Except String Nat := do
  failIf (denominator = 0) "ceiling division denominator cannot be zero"
  let numerator ← okOr (U128.checkedMul left right) "ceiling multiplication overflow"
  okOr (U128.tryToU64 ((numerator + denominator - 1) / denominator)) "ceiling division exceeds u64"

/-! ## Stake-time -/

namespace EpochStakeAccumulator

def new (amount epochStart : Nat) : EpochStakeAccumulator := ⟨amount, 0, epochStart⟩

def checkpoint (a : EpochStakeAccumulator) (slot : Nat) : Except String EpochStakeAccumulator := do
  let elapsed ← okOr (U64.checkedSub slot a.lastCheckpointSlot)
    s!"stake checkpoint moved backwards from {a.lastCheckpointSlot} to {slot}"
  let accrued ← okOr (U128.checkedMul a.amount elapsed) "stake-time multiplication overflow"
  let weighted ← okOr (U128.checkedAdd a.weightedSlotSpores accrued)
    "stake-time accumulator overflow"
  pure { a with weightedSlotSpores := weighted, lastCheckpointSlot := slot }

def setAmount (a : EpochStakeAccumulator) (slot amount : Nat) :
    Except String EpochStakeAccumulator := do
  let a ← a.checkpoint slot
  pure { a with amount }

def averageAmount (a : EpochStakeAccumulator) (epochEnd epochStart : Nat) : Except String Nat := do
  let duration ← okOr (U64.checkedSub epochEnd epochStart) "epoch reward interval moved backwards"
  failIf (duration = 0) "epoch reward interval cannot be empty"
  let closed ← a.checkpoint epochEnd
  okOr (U128.tryToU64 (closed.weightedSlotSpores / duration)) "average epoch stake exceeds u64"

end EpochStakeAccumulator

/-- `ValidatorSlashExposure::total`. -/
def ValidatorSlashExposure.total (e : ValidatorSlashExposure) : Except String Nat :=
  tryFold (fun total (d : Pubkey × Nat) =>
    okOr (U64.checkedAdd total d.2) "validator slash exposure overflow") e.selfBond
    e.delegations.toList

/-! ## Commissions -/

namespace ValidatorCommissionState

def new (currentEpoch : Nat) : ValidatorCommissionState :=
  ⟨DEFAULT_VALIDATOR_COMMISSION_BPS, none, currentEpoch⟩

def validate (c : ValidatorCommissionState) : Except String Unit := do
  failIf (MAX_VALIDATOR_COMMISSION_BPS < c.currentBps)
    s!"validator commission {c.currentBps} exceeds maximum {MAX_VALIDATOR_COMMISSION_BPS}"
  match c.pending with
  | none => pure ()
  | some pending =>
    failIf (MAX_VALIDATOR_COMMISSION_BPS < pending.commissionBps)
      (s!"pending validator commission {pending.commissionBps} " ++
        s!"exceeds maximum {MAX_VALIDATOR_COMMISSION_BPS}")
    failIf (pending.activationEpoch ≤ c.lastActivatedEpoch)
      "pending validator commission does not activate in the future"
    failIf (MAX_VALIDATOR_COMMISSION_CHANGE_BPS_PER_EPOCH
        < U64.absDiff c.currentBps pending.commissionBps)
      (s!"pending validator commission changes by more than " ++
        s!"{MAX_VALIDATOR_COMMISSION_CHANGE_BPS_PER_EPOCH} basis points")

/-- A pending change whose epoch has come takes effect. -/
def activate (nextEpoch : Nat) (c : ValidatorCommissionState) : ValidatorCommissionState :=
  match c.pending with
  | none => c
  | some pending =>
    if pending.activationEpoch ≤ nextEpoch then
      { currentBps := pending.commissionBps, pending := none, lastActivatedEpoch := nextEpoch }
    else c

end ValidatorCommissionState

namespace StakePool

/-! ## Checking the epoch state -/

variable (p : StakePool)

/-- The effective stake of the epoch's validators. -/
def activeEffectiveStake (state : StakingV2EpochState) : Except String Nat :=
  tryFold (fun total (e : Pubkey × ValidatorEpochAccounting) => do
    let stake ← okOr (p.stakes.get e.1)
      s!"Staking V2 accounting references unknown validator {e.1}"
    okOr (U64.checkedAdd total stake.totalStake) "active Staking V2 stake overflow")
    0 state.validators.toList

def checkEpochHeader (state : StakingV2EpochState) : Except String Unit := do
  failIf (state.version ≠ STAKING_V2_STATE_VERSION)
    s!"unsupported Staking V2 state version {state.version}"
  failIf (state.activationSlot % SLOTS_PER_EPOCH ≠ 0)
    "Staking V2 activation is not an epoch boundary"
  failIf (state.epochStartSlot ≠ epochStartSlot state.currentEpoch)
    (s!"Staking V2 epoch start {state.epochStartSlot} " ++
      s!"does not match epoch {state.currentEpoch}")
  failIf (state.epochStartSlot < state.activationSlot)
    "Staking V2 activation is after the current epoch start"
  failIf (state.lastSettledEpoch.any (fun epoch => decide (state.currentEpoch < epoch)) = true)
    "Staking V2 last-settled epoch is in the future"

def checkExposure (epoch : Nat) (e : Pubkey × ValidatorSlashExposure) : Except String Unit := do
  failIf (e.2.selfBond = 0)
    s!"validator {e.1} has zero self-bond slash exposure in epoch {epoch}"
  failIf (e.2.delegations.toList.any (fun d => decide (d.1 = e.1 ∨ d.2 = 0)) = true)
    s!"validator {e.1} has invalid delegated slash exposure in epoch {epoch}"
  let _ ← e.2.total
  pure ()

def checkSnapshot (currentEpoch : Nat) (e : Nat × EpochSlashExposureSnapshot) :
    Except String Unit := do
  let oldestRetained := U64.saturatingSub currentEpoch SLASHING_V2_EVIDENCE_WINDOW_EPOCHS
  failIf (e.2.epoch ≠ e.1)
    s!"slash-exposure snapshot key {e.1} differs from embedded epoch {e.2.epoch}"
  failIf (e.2.startSlot ≠ epochStartSlot e.1)
    s!"slash-exposure epoch {e.1} has invalid start slot {e.2.startSlot}"
  failIf (e.1 < oldestRetained ∨ currentEpoch < e.1)
    s!"slash-exposure epoch {e.1} is outside retained range {oldestRetained}..={currentEpoch}"
  forEach e.2.validators.toList (checkExposure e.1)

/-- The accumulators against the delegation map they account for, both ways. -/
def checkDelegationAccounting (epochStart : Nat) (validator : Pubkey)
    (accounting : ValidatorEpochAccounting) : Except String Unit := do
  forEach accounting.delegations.toList fun (e : Pubkey × EpochStakeAccumulator) => do
    failIf (e.1 = validator)
      s!"validator {validator} self-bond is duplicated in epoch delegations"
    failIf (e.2.lastCheckpointSlot < epochStart)
      s!"validator {validator} delegation checkpoint for {e.1} predates the epoch"
    failIf (e.2.amount ≠ p.delegation validator e.1)
      (s!"validator {validator} delegation accounting mismatch for {e.1}: " ++
        s!"state={e.2.amount}, pool={p.delegation validator e.1}")
  forEach ((p.delegations.get validator).getD ∅).toList fun (e : Pubkey × Nat) =>
    failIf ((accounting.delegations.get e.1).map EpochStakeAccumulator.amount ≠ some e.2)
      (s!"validator {validator} current delegation from {e.1} " ++
        "is absent from epoch accounting")

def checkAccounting (state : StakingV2EpochState)
    (currentExposure : EpochSlashExposureSnapshot) (saturationLimit : Nat)
    (e : Pubkey × ValidatorEpochAccounting) : Except String Unit := do
  let validator := e.1
  let accounting := e.2
  failIf (accounting.validator ≠ validator)
    (s!"Staking V2 validator key {validator} does not match " ++
      s!"accounting owner {accounting.validator}")
  failIf (accounting.leaderWeight = 0) s!"validator {validator} has zero epoch leader weight"
  failIf (accounting.consensusPower = 0) s!"validator {validator} has zero epoch consensus power"
  let exposure ← okOr (currentExposure.validators.get validator)
    s!"validator {validator} is missing current slash exposure"
  let exposed ← exposure.total
  failIf (exposed ≠ accounting.consensusPower)
    (s!"validator {validator} slash exposure {exposed} differs " ++
      s!"from frozen power {accounting.consensusPower}")
  failIf (accounting.selfBond.lastCheckpointSlot < state.epochStartSlot)
    s!"validator {validator} self-bond checkpoint predates the epoch"
  let stake ← okOr (p.stakes.get validator)
    s!"Staking V2 accounting references unknown validator {validator}"
  failIf (saturationLimit < stake.totalStake)
    (s!"validator {validator} effective stake {stake.totalStake} exceeds " ++
      s!"network saturation limit {saturationLimit}")
  failIf (accounting.selfBond.amount ≠ stake.amount)
    (s!"validator {validator} self-bond accounting mismatch: " ++
      s!"state={accounting.selfBond.amount}, pool={stake.amount}")
  failIf (stake.blocksProduced < accounting.productionBaseline)
    s!"validator {validator} production baseline exceeds cumulative production"
  let commission ← okOr (state.commissions.get validator)
    s!"validator {validator} has no committed commission schedule"
  failIf (accounting.commissionBps ≠ commission.currentBps)
    (s!"validator {validator} epoch commission {accounting.commissionBps} differs " ++
      s!"from current schedule {commission.currentBps}")
  p.checkDelegationAccounting state.epochStartSlot validator accounting

/-- `validate_staking_v2_state`. -/
def validateStakingV2State (state : StakingV2EpochState) : Except String Unit := do
  checkEpochHeader state
  forEach state.commissions.toList fun (e : Pubkey × ValidatorCommissionState) =>
    mapErr (fun error => s!"validator {e.1} commission state: {error}") e.2.validate
  failIf (SLASHING_V2_EVIDENCE_WINDOW_EPOCHS + 1 < state.slashExposureSnapshots.size)
    "too many Staking V2 slash-exposure snapshots retained"
  let currentExposure ← okOr (state.slashExposureSnapshots.get state.currentEpoch)
    "current Staking V2 slash-exposure snapshot is missing"
  forEach state.slashExposureSnapshots.toList (checkSnapshot state.currentEpoch)
  failIf (currentExposure.validators.size ≠ state.validators.size)
    "current slash-exposure validator set differs from epoch accounting"
  let effective ← p.activeEffectiveStake state
  let saturationBps ← validatorSaturationCapBps state.validators.size
  let saturationLimit ← mulDivCeil effective saturationBps 10000
  forEach state.validators.toList (p.checkAccounting state currentExposure saturationLimit)

/-- The five-times-self-bond rule; an inactive validator is exempt. -/
def checkMultiplier (e : Pubkey × StakeInfo) : Except String Unit :=
  if e.2.isActive = false then .ok ()
  else do
    let maximum ← okOr (U64.checkedMul e.2.amount MAX_VALIDATOR_EFFECTIVE_STAKE_MULTIPLIER)
      s!"validator {e.1} V2 cap overflow"
    failIf (maximum < e.2.totalStake)
      s!"validator {e.1} effective stake {e.2.totalStake} exceeds V2 cap {maximum}"

/-- What `validate_v2_invariants` asks beyond `validate_invariants`. -/
def validateV2Rules : Except String Unit := do
  forEach p.stakes.toList checkMultiplier
  match p.stakingV2State with
  | none => pure ()
  | some state => p.validateStakingV2State state

def validateV2Invariants : Except String Unit := do
  p.validateInvariants
  p.validateV2Rules

end StakePool
end Lichen.Staking
