/-
  Slashing an equivocator (`apply_staking_v2_equivocation_slash` in `core/src/consensus.rs`).

  The loss is a fraction of what every owner had at stake in the epoch of the offence.  Stake that
  is cooling down since then pays first, then what is still bonded; the MossStake share is reported
  to the caller.  The offender is switched off, checkpointed, and the whole pool is validated again:
  the slash shrinks the epoch's stake, so it can put another validator above its share.
-/
import Lichen.Staking.Moss

open Base
namespace Lichen.Staking

structure StakingV2SlashOwnerLoss where
  owner : Pubkey
  activeStake : Nat
  coolingDownStake : Nat
  deriving DecidableEq, Repr

structure StakingV2SlashSettlement where
  validator : Pubkey
  offenseEpoch : Nat
  slashPercent : Nat
  ownerLosses : List StakingV2SlashOwnerLoss
  mossstakeRequestedLoss : Nat
  deriving DecidableEq, Repr

/-- `total`. -/
def StakingV2SlashOwnerLoss.total (l : StakingV2SlashOwnerLoss) : Except String Nat :=
  okOr (U64.checkedAdd l.activeStake l.coolingDownStake) "slash owner loss overflow"

/-- `native_loss`. -/
def StakingV2SlashSettlement.nativeLoss (r : StakingV2SlashSettlement) : Except String Nat :=
  tryFold (fun total l => do
    let loss ← l.total
    okOr (U64.checkedAdd total loss) "native slash settlement overflow") 0 r.ownerLosses

/-- The loop state of the slash: the clone and the running totals. -/
structure SlashProgress where
  updated : StakePool
  ownerLosses : List StakingV2SlashOwnerLoss
  mossstakeRequestedLoss : Nat
  activeLossTotal : Nat
  nativeLossTotal : Nat

namespace StakePool

variable (p : StakePool)

/-- What of `requested` a pending exit pays: only one requested since the snapshot was taken. -/
def coolingDownStake (validator owner : Pubkey) (snapshotStart requested : Nat) :
    Nat :=
  match p.unstakeRequests.get (validator, owner) with
  | none => 0
  | some request =>
    match U64.checkedSub request.unlockSlot UNSTAKE_COOLDOWN_SLOTS with
    | none => 0
    | some requestedAt =>
      if snapshotStart ≤ requestedAt then min request.amount requested else 0

/-- Take `loss` out of a pending exit, dropping it when nothing is left. -/
def takeCoolingDown (validator owner : Pubkey) (loss : Nat) : StakePool :=
  match p.unstakeRequests.get (validator, owner) with
  | none => p
  | some request =>
    if loss = 0 then p
    else if request.amount - loss = 0 then
      { p with unstakeRequests := p.unstakeRequests.remove (validator, owner) }
    else
      let request := { request with amount := request.amount - loss }
      { p with unstakeRequests := p.unstakeRequests.put (validator, owner) request }

/-- Take up to `remaining` of the offender's own bond. -/
def takeSelfBond (validator : Pubkey) (remaining : Nat) :
    Except String (Nat × StakePool) := do
  let info ← okOr (p.stakes.get validator) s!"validator {validator} stake is missing"
  let s := info.slash remaining
  pure (s.2, { p with stakes := p.stakes.put validator s.1 })

/-- Take up to `remaining` of one delegation; `is_active` is not touched here. -/
def takeDelegation (validator owner : Pubkey) (remaining : Nat) :
    Except String (Nat × StakePool) :=
  let activeLoss := min (p.delegation validator owner) remaining
  if activeLoss = 0 then .ok (0, p)
  else do
    let info ← okOr (p.stakes.get validator) s!"validator {validator} stake is missing"
    let delegatedAmount ← okOr (U64.checkedSub info.delegatedAmount activeLoss)
      "validator delegated stake underflow"
    pure (activeLoss, { p with
      stakes := p.stakes.put validator { info with delegatedAmount }
      delegations := p.withoutDelegation validator owner activeLoss })

/-- Take up to `remaining` of what the owner has bonded. -/
def takeBonded (validator owner : Pubkey) (remaining : Nat) :
    Except String (Nat × StakePool) :=
  if owner = validator then p.takeSelfBond validator remaining
  else p.takeDelegation validator owner remaining

/-- One turn of the loop over the owners. -/
def slashOwner (validator : Pubkey) (snapshotStart slashPercent : Nat) (s : SlashProgress)
    (e : Pubkey × Nat) : Except String SlashProgress := do
  let product ← okOr (U128.checkedMul e.2 slashPercent) "slash exposure multiplication overflow"
  let requestedLoss ← okOr (U128.tryToU64 (product / 100)) "slash exposure exceeds u64"
  if requestedLoss = 0 then pure s
  else if e.1 = MOSSSTAKE_PROTOCOL_DELEGATOR then
    pure { s with mossstakeRequestedLoss := requestedLoss }
  else
    let cooling := s.updated.coolingDownStake validator e.1 snapshotStart requestedLoss
    let updated := s.updated.takeCoolingDown validator e.1 cooling
    let remaining ← okOr (U64.checkedSub requestedLoss cooling)
      "cooling-down slash exceeds requested loss"
    let taken ← updated.takeBonded validator e.1 remaining
    let actualLoss ← okOr (U64.checkedAdd taken.1 cooling) "owner slash loss overflow"
    if actualLoss = 0 then pure { s with updated := taken.2 }
    else
      let activeLossTotal ← okOr (U64.checkedAdd s.activeLossTotal taken.1)
        "active slash total overflow"
      let nativeLossTotal ← okOr (U64.checkedAdd s.nativeLossTotal actualLoss)
        "native slash total overflow"
      pure { s with
        updated := taken.2
        activeLossTotal
        nativeLossTotal
        ownerLosses := s.ownerLosses ++ [⟨e.1, taken.1, cooling⟩] }

/-- The end of the slash: switch the offender off and book the totals. -/
def settleSlash (validator : Pubkey) (s : SlashProgress) : Except String StakePool := do
  let info ← okOr (s.updated.stakes.get validator) s!"validator {validator} stake is missing"
  let totalStaked ← okOr (U64.checkedSub s.updated.totalStaked s.activeLossTotal)
    "network active stake underflow during slash"
  let totalSlashed ← okOr (U64.checkedAdd s.updated.totalSlashed s.nativeLossTotal)
    "network slashed total overflow"
  pure { s.updated with
    stakes := s.updated.stakes.put validator { info with isActive := false }
    totalStaked
    totalSlashed }

/-- An offender that is still in the epoch is checkpointed. -/
def checkpointOffender (state : StakingV2EpochState) (validator : Pubkey)
    (executionSlot : Nat) : Except String StakePool :=
  if state.validators.containsKey validator = true
  then p.checkpointStakingV2ValidatorInner validator executionSlot else .ok p

/-- `apply_staking_v2_equivocation_slash`. -/
def applyStakingV2EquivocationSlash (validator : Pubkey)
    (offenseSlot slashPercent executionSlot : Nat) :
    Except String (StakingV2SlashSettlement × StakePool) := do
  failIf (slashPercent = 0 ∨ 100 < slashPercent)
    s!"Staking V2 slash percentage must be in 1..=100, found {slashPercent}"
  failIf (executionSlot < offenseSlot) "Staking V2 slash offense is in the future"
  failIf (SLASHING_V2_EVIDENCE_WINDOW_SLOTS < executionSlot - offenseSlot)
    "Staking V2 slashing evidence is outside its window"
  p.validateV2Invariants
  let offenseEpoch := slotToEpoch offenseSlot
  let state ← okOr p.stakingV2State "Staking V2 state is not initialized"
  let snapshot ← okOr (state.slashExposureSnapshots.get offenseEpoch)
    s!"no slash-exposure snapshot retained for epoch {offenseEpoch}"
  let exposure ← okOr (snapshot.validators.get validator)
    s!"validator {validator} had no frozen power in epoch {offenseEpoch}"
  failIf (exposure.delegations.containsKey validator = true)
    "validator self-bond is duplicated in slash exposure"
  let owners := exposure.delegations.put validator exposure.selfBond
  let s ← tryFold (slashOwner validator snapshot.startSlot slashPercent) ⟨p, [], 0, 0, 0⟩
    (sortedEntries owners)
  let updated ← settleSlash validator s
  let updated ← updated.checkpointOffender state validator executionSlot
  updated.validateV2Invariants
  pure (⟨validator, offenseEpoch, slashPercent, s.ownerLosses, s.mossstakeRequestedLoss⟩, updated)

end StakePool
end Lichen.Staking
