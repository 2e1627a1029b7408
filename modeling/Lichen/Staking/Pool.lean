/-
  The stake pool (`core/src/consensus.rs`): stakes, delegations, pending exits and machine
  fingerprints, the checks that a stored pool has to pass, and the operations that do not involve
  epoch accounting.

  The pool keeps every total twice: `amount + delegatedAmount` of each entry is summed up in
  `totalStaked`, the delegation map of a validator in its `delegatedAmount`, the fingerprint of an
  entry in `fingerprintRegistry`.  `validateInvariants` is the function that compares them, and a
  pool that fails it cannot be read back from disk.

  A method that takes `&mut self` is a function from the pool to the pool it leaves behind, inside
  `Except`.  Every one of them returns its errors before its first write, so after an error the pool
  is the one it was called on (`StakePool.settleTo`).  A `u64` is a number; the checked, saturating
  and wrapping operations are those of the source.  The order in which a `HashMap` is walked only
  decides which of several errors is reported.
-/
import Lichen.Base.MapSum
import Lichen.Base.Bisect
import Lichen.Core.Types

open Base
namespace Lichen

/-! ## Keys in messages -/

/-- The alphabet of `bs58`. -/
def base58Alphabet : List Char :=
  "123456789ABCDEFGHJKLMNPQRSTUVWXYZabcdefghijkmnopqrstuvwxyz".toList

/-- The base-58 digits of `n`, most significant first; thirty-two bytes have at most 44. -/
def base58Digits : Nat → Nat → List Char → List Char
  | 0, _, acc => acc
  | fuel + 1, n, acc =>
    if n = 0 then acc
    else base58Digits fuel (n / 58) (base58Alphabet.getD (n % 58) '1' :: acc)

/-- `Pubkey::to_base58`: a `1` for every leading zero byte, then the digits. -/
def Pubkey.toBase58 (k : Pubkey) : String :=
  String.ofList ((k.bytes.takeWhile (· = 0)).map (fun _ => '1') ++ base58Digits 44 k.val.toNat [])

instance : ToString Pubkey := ⟨Pubkey.toBase58⟩

namespace Staking

/-! ## Constants -/

/-- 75,000 LICN in spores. -/
def MIN_VALIDATOR_STAKE : Nat := 75000 * 1000000000

/-- 1,000,000 LICN in spores. -/
def MAX_VALIDATOR_STAKE : Nat := 1000000 * 1000000000

def BOOTSTRAP_GRANT_AMOUNT : Nat := 100000 * 1000000000

def MAX_BOOTSTRAP_VALIDATORS : Nat := 200

def MAX_BOOTSTRAP_SLOTS : Nat := 547 * 216000

def UPTIME_BONUS_THRESHOLD_BPS : Nat := 9500

def PERFORMANCE_BONUS_BPS : Nat := 15000

def MIGRATION_COOLDOWN_SLOTS : Nat := 432000

def UNSTAKE_COOLDOWN_SLOTS : Nat := 1512000

/-- A validator's effective stake cannot exceed five times its self-bond. -/
def MAX_VALIDATOR_EFFECTIVE_STAKE_MULTIPLIER : Nat := 5

/-! ## Stakes -/

inductive BootstrapStatus where
  | bootstrapping
  | fullyVested
  deriving DecidableEq, Repr

/-- `[u8; 32]`; all zeros means that no fingerprint is set. -/
abbrev Fingerprint := BitVec 256

structure StakeInfo where
  validator : Pubkey
  amount : Nat
  earnedAmount : Nat
  bootstrapDebt : Nat
  lockedUntil : Nat
  isActive : Bool
  delegatedAmount : Nat
  rewardsEarned : Nat
  lastRewardSlot : Nat
  status : BootstrapStatus
  blocksProduced : Nat
  graduationSlot : Option Nat
  totalClaimed : Nat
  totalDebtRepaid : Nat
  machineFingerprint : Fingerprint
  startSlot : Nat
  bootstrapIndex : Nat
  lastMigrationSlot : Nat
  penaltyBoostUntil : Nat
  deriving DecidableEq, Repr

structure UnstakeRequest where
  validator : Pubkey
  staker : Pubkey
  amount : Nat
  unlockSlot : Nat
  deriving DecidableEq, Repr

namespace StakeInfo

/-- `with_bootstrap_index`: only the first grants of exactly the grant amount carry a debt. -/
def withBootstrapIndex (validator : Pubkey) (amount currentSlot bootstrapIndex : Nat) :
    StakeInfo :=
  let isBootstrap :=
    bootstrapIndex < MAX_BOOTSTRAP_VALIDATORS ∧ amount = BOOTSTRAP_GRANT_AMOUNT
  let bootstrapDebt := if isBootstrap then amount else 0
  { validator
    amount
    earnedAmount := 0
    bootstrapDebt
    lockedUntil := U64.wrappingAdd currentSlot 1000
    isActive := decide (MIN_VALIDATOR_STAKE ≤ amount)
    delegatedAmount := 0
    rewardsEarned := 0
    lastRewardSlot := currentSlot
    status := if 0 < bootstrapDebt then .bootstrapping else .fullyVested
    blocksProduced := 0
    graduationSlot := none
    totalClaimed := 0
    totalDebtRepaid := 0
    machineFingerprint := 0
    startSlot := currentSlot
    bootstrapIndex
    lastMigrationSlot := 0
    penaltyBoostUntil := 0 }

def new (validator : Pubkey) (amount currentSlot : Nat) : StakeInfo :=
  withBootstrapIndex validator amount currentSlot U64.MAX

def totalStake (s : StakeInfo) : Nat := U64.saturatingAdd s.amount s.delegatedAmount

def meetsMinimum (s : StakeInfo) : Bool := decide (MIN_VALIDATOR_STAKE ≤ s.totalStake)

def isFullyVested (s : StakeInfo) : Bool := decide (s.status = .fullyVested)

/-- `is_active = meets_minimum()`, the line that follows most changes of a stake. -/
def refresh (s : StakeInfo) : StakeInfo := { s with isActive := s.meetsMinimum }

/-- `slash`: burns principal, scales what was earned with it, leaves the bootstrap debt.  Returns
    the amount taken. -/
def slash (s : StakeInfo) (amount : Nat) : StakeInfo × Nat :=
  let slashed := min amount s.amount
  if slashed = 0 ∨ s.amount = 0 then (s, 0)
  else
    let newAmount := U64.saturatingSub s.amount slashed
    let s' := { s with
      earnedAmount := U128.toU64 (s.earnedAmount * newAmount / s.amount)
      amount := newAmount }
    (s'.refresh, slashed)

def addReward (s : StakeInfo) (reward slot : Nat) : StakeInfo :=
  { s with rewardsEarned := U64.saturatingAdd s.rewardsEarned reward, lastRewardSlot := slot }

def uptimeBps (s : StakeInfo) (currentSlot numValidators : Nat) : Nat :=
  let slotsActive := U64.saturatingSub currentSlot s.startSlot
  if slotsActive = 0 then 0
  else
    let expectedBlocks := slotsActive / max numValidators 1
    if expectedBlocks = 0 then (if 0 < s.blocksProduced then 10000 else 0)
    else min (U64.saturatingMul s.blocksProduced 10000 / expectedBlocks) 10000

/-- The part of a reward that goes to the bootstrap debt, and the boost deadline left behind: 90%
    while a penalty boost runs, else 75% for high uptime, else half. -/
def debtFraction (s : StakeInfo) (totalReward currentSlot numValidators : Nat) : Nat × Nat :=
  if 0 < s.penaltyBoostUntil ∧ currentSlot < s.penaltyBoostUntil then
    (U128.toU64 (totalReward * 90 / 100), s.penaltyBoostUntil)
  else
    let boost := if 0 < s.penaltyBoostUntil ∧ s.penaltyBoostUntil ≤ currentSlot then 0
      else s.penaltyBoostUntil
    if UPTIME_BONUS_THRESHOLD_BPS ≤ s.uptimeBps currentSlot numValidators then
      (U128.toU64 (totalReward / 2 * PERFORMANCE_BONUS_BPS / 10000), boost)
    else (totalReward / 2, boost)

/-- `claim_rewards`: everything accumulated, split into a liquid part and a debt payment. -/
def claimRewards (s : StakeInfo) (currentSlot numValidators : Nat) : StakeInfo × Nat × Nat :=
  let totalReward := s.rewardsEarned
  let claimed := U64.saturatingAdd s.totalClaimed totalReward
  if 0 < s.bootstrapDebt then
    if U64.saturatingAdd s.startSlot MAX_BOOTSTRAP_SLOTS ≤ currentSlot then
      -- eighteen months have passed: the remaining debt is forgiven
      ({ s with
          rewardsEarned := 0, bootstrapDebt := 0, status := .fullyVested
          graduationSlot := some currentSlot, penaltyBoostUntil := 0, totalClaimed := claimed },
        totalReward, 0)
    else
      let fraction := s.debtFraction totalReward currentSlot numValidators
      let paid := min fraction.1 s.bootstrapDebt
      let debt := s.bootstrapDebt - paid
      ({ s with
          rewardsEarned := 0
          bootstrapDebt := debt
          earnedAmount := U64.saturatingAdd s.earnedAmount paid
          totalDebtRepaid := U64.saturatingAdd s.totalDebtRepaid paid
          totalClaimed := claimed
          status := if debt = 0 then .fullyVested else s.status
          graduationSlot := if debt = 0 then some currentSlot else s.graduationSlot
          penaltyBoostUntil := if debt = 0 then 0 else fraction.2 },
        totalReward - paid, paid)
  else ({ s with rewardsEarned := 0, totalClaimed := claimed }, totalReward, 0)

def addStake (s : StakeInfo) (additional : Nat) : Except String StakeInfo := do
  failIf (s.isFullyVested = false) "Must be fully vested to add additional stake"
  failIf (U64.saturatingSub MAX_VALIDATOR_STAKE s.amount < additional)
    s!"Cannot exceed maximum stake of {MAX_VALIDATOR_STAKE / 1000000000} LICN"
  pure { s with amount := U64.saturatingAdd s.amount additional }

/-- `top_up_stake`: recovery after a slash; unlike `addStake` it does not require full vesting. -/
def topUpStake (s : StakeInfo) (additional : Nat) : Except String StakeInfo := do
  failIf (additional = 0) "Top-up amount must be greater than zero"
  failIf (U64.saturatingSub MAX_VALIDATOR_STAKE s.amount < additional)
    s!"Cannot exceed maximum stake of {MAX_VALIDATOR_STAKE / 1000000000} LICN"
  pure ({ s with amount := U64.saturatingAdd s.amount additional } : StakeInfo).refresh

def requestUnstake (s : StakeInfo) (amount currentSlot : Nat) (staker : Pubkey) :
    Except String UnstakeRequest := do
  failIf (s.isFullyVested = false) "Must be fully vested to unstake"
  failIf (amount = 0 ∨ s.amount < amount) "Invalid unstake amount"
  let unlockSlot ← okOr (U64.checkedAdd currentSlot UNSTAKE_COOLDOWN_SLOTS)
    "Validator unstake cooldown deadline overflow"
  pure { validator := s.validator, staker, amount, unlockSlot }

end StakeInfo

/-! ## Epoch accounting data -/

/-- Stake-time of one reward owner: `spores * slots`, brought forward when the stake changes. -/
structure EpochStakeAccumulator where
  amount : Nat
  weightedSlotSpores : Nat
  lastCheckpointSlot : Nat
  deriving DecidableEq, Repr

structure ValidatorEpochAccounting where
  validator : Pubkey
  selfBond : EpochStakeAccumulator
  delegations : HashMap Pubkey EpochStakeAccumulator
  productionBaseline : Nat
  consensusPower : Nat
  leaderWeight : Nat
  commissionBps : Nat

/-- The owners whose stake was a validator's frozen voting power. -/
structure ValidatorSlashExposure where
  selfBond : Nat
  delegations : HashMap Pubkey Nat

structure EpochSlashExposureSnapshot where
  epoch : Nat
  startSlot : Nat
  validators : HashMap Pubkey ValidatorSlashExposure

structure PendingValidatorCommission where
  commissionBps : Nat
  activationEpoch : Nat
  deriving DecidableEq, Repr

structure ValidatorCommissionState where
  currentBps : Nat
  pending : Option PendingValidatorCommission
  lastActivatedEpoch : Nat
  deriving DecidableEq, Repr

structure StakingV2EpochState where
  version : Nat
  activationSlot : Nat
  currentEpoch : Nat
  epochStartSlot : Nat
  validators : HashMap Pubkey ValidatorEpochAccounting
  commissions : HashMap Pubkey ValidatorCommissionState
  lastSettledEpoch : Option Nat
  slashExposureSnapshots : HashMap Nat EpochSlashExposureSnapshot

/-! ## The pool -/

structure StakePool where
  stakes : HashMap Pubkey StakeInfo
  totalStaked : Nat
  totalSlashed : Nat
  unstakeRequests : HashMap (Pubkey × Pubkey) UnstakeRequest
  delegations : HashMap Pubkey (HashMap Pubkey Nat)
  fingerprintRegistry : HashMap Fingerprint Pubkey
  bootstrapGrantsIssued : Nat
  stakingV2State : Option StakingV2EpochState

namespace StakePool

def new : StakePool where
  stakes := ∅
  totalStaked := 0
  totalSlashed := 0
  unstakeRequests := ∅
  delegations := ∅
  fingerprintRegistry := ∅
  bootstrapGrantsIssued := 0
  stakingV2State := none

variable (p : StakePool)

/-- The pool after a call: what it returned, or itself when it failed. -/
def settleTo : Except String StakePool → StakePool
  | .ok p' => p'
  | .error _ => p

theorem settleTo_of_isOk {p : StakePool} {r : Except String StakePool} (h : r.isOk = true) :
    r = .ok (p.settleTo r) := by
  obtain ⟨q, rfl⟩ := exists_of_isOk h
  rfl

/-- What `delegator` has delegated to `validator`. -/
def delegation (validator delegator : Pubkey) : Nat :=
  (((p.delegations.get validator).bind fun entries => entries.get delegator)).getD 0

/-! ### Checking a stored pool -/

/-- The delegation map of one validator, summed while it is checked. -/
def checkDelegations (validator : Pubkey) : Except String Nat :=
  match p.delegations.get validator with
  | none => .ok 0
  | some entries => do
    failIf (entries.isEmpty = true) s!"validator {validator} has an empty delegation map"
    tryFold (fun total (e : Pubkey × Nat) => do
      failIf (e.1 = validator) s!"validator {validator} self-bond is duplicated as delegation"
      failIf (e.2 = 0) s!"validator {validator} has zero delegation from {e.1}"
      okOr (U64.checkedAdd total e.2) s!"validator {validator} delegation total overflow")
      0 entries.toList

/-- One turn of the loop over the stakes; `computed` is the total so far. -/
def checkEntry (computed : Nat) (e : Pubkey × StakeInfo) : Except String Nat := do
  let validator := e.1
  let info := e.2
  failIf (info.validator ≠ validator)
    s!"stake key {validator} does not match embedded validator {info.validator}"
  failIf (MAX_VALIDATOR_STAKE < info.amount)
    s!"validator {validator} self-bond {info.amount} exceeds maximum {MAX_VALIDATOR_STAKE}"
  let total ← okOr (U64.checkedAdd info.amount info.delegatedAmount)
    s!"validator {validator} effective stake overflow"
  failIf (info.isActive = true ∧ total < MIN_VALIDATOR_STAKE)
    s!"active validator {validator} has stake {total} below minimum {MIN_VALIDATOR_STAKE}"
  let computed ← okOr (U64.checkedAdd computed total) "network stake total overflow"
  let delegatedTotal ← p.checkDelegations validator
  failIf (delegatedTotal ≠ info.delegatedAmount)
    (s!"validator {validator} delegated stake mismatch: " ++
      s!"entries={delegatedTotal}, recorded={info.delegatedAmount}")
  failIf (info.machineFingerprint ≠ 0
      ∧ p.fingerprintRegistry.get info.machineFingerprint ≠ some validator)
    s!"validator {validator} fingerprint is not owned in the registry"
  pure computed

def checkRequest (e : (Pubkey × Pubkey) × UnstakeRequest) : Except String Unit := do
  failIf (e.2.validator ≠ e.1.1 ∨ e.2.staker ≠ e.1.2)
    (s!"unstake key ({e.1.1}, {e.1.2}) does not match embedded request " ++
      s!"({e.2.validator}, {e.2.staker})")
  failIf (e.2.amount = 0) s!"unstake request ({e.1.1}, {e.1.2}) has zero amount"

def checkFingerprint (e : Fingerprint × Pubkey) : Except String Unit := do
  failIf (e.1 = 0) "zero machine fingerprint is registered"
  let info ← okOr (p.stakes.get e.2)
    s!"fingerprint registry references unknown validator {e.2}"
  failIf (info.machineFingerprint ≠ e.1)
    s!"fingerprint registry entry for {e.2} differs from stake entry"

/-- `validate_invariants`. -/
def validateInvariants : Except String Unit := do
  let computed ← tryFold p.checkEntry 0 p.stakes.toList
  forEach p.delegations.keys fun validator =>
    failIf (p.stakes.containsKey validator = false)
      s!"delegations reference unknown validator {validator}"
  failIf (computed ≠ p.totalStaked)
    s!"stake-pool total mismatch: entries={computed}, recorded={p.totalStaked}"
  forEach p.unstakeRequests.toList checkRequest
  forEach p.fingerprintRegistry.toList p.checkFingerprint

/-! ### Self-bonds -/

/-- `stake_with_index`: add to an existing self-bond, or open an entry. -/
def stakeWithIndex (validator : Pubkey) (amount currentSlot bootstrapIndex : Nat) :
    Except String StakePool := do
  failIf (amount < MIN_VALIDATOR_STAKE)
    s!"Stake {amount} is below minimum {MIN_VALIDATOR_STAKE}"
  match p.stakes.get validator with
  | some existing =>
    let newTotal := U64.saturatingAdd existing.amount amount
    failIf (MAX_VALIDATOR_STAKE < newTotal)
      s!"Stake {newTotal} would exceed max {MAX_VALIDATOR_STAKE} per validator"
    let info := { existing with amount := newTotal }
    pure { p with
      stakes := p.stakes.put validator info.refresh
      totalStaked := U64.saturatingAdd p.totalStaked amount }
  | none =>
    failIf (MAX_VALIDATOR_STAKE < amount)
      s!"Stake {amount} exceeds max {MAX_VALIDATOR_STAKE} per validator"
    pure { p with
      stakes := p.stakes.put validator
        (StakeInfo.withBootstrapIndex validator amount currentSlot bootstrapIndex)
      totalStaked := U64.saturatingAdd p.totalStaked amount }

/-- `stake`: the same for a self-funded validator. -/
def stake (validator : Pubkey) (amount currentSlot : Nat) :
    Except String StakePool :=
  p.stakeWithIndex validator amount currentSlot U64.MAX

def addValidatorStake (validator : Pubkey) (additional : Nat) :
    Except String StakePool := do
  let info ← okOr (p.stakes.get validator) "Validator not found"
  let info ← info.addStake additional
  pure { p with
    stakes := p.stakes.put validator info
    totalStaked := U64.saturatingAdd p.totalStaked additional }

def topUpStake (p : StakePool) (validator : Pubkey) (amount : Nat) : Except String StakePool := do
  let info ← okOr (p.stakes.get validator) "Validator not found in stake pool"
  let info ← info.topUpStake amount
  pure { p with
    stakes := p.stakes.put validator info
    totalStaked := U64.saturatingAdd p.totalStaked amount }

/-- `slash_validator`; an unknown validator loses nothing. -/
def slashValidator (validator : Pubkey) (amount : Nat) : StakePool :=
  match p.stakes.get validator with
  | none => p
  | some info =>
    let s := info.slash amount
    { p with
      stakes := p.stakes.put validator s.1
      totalStaked := U64.saturatingSub p.totalStaked s.2
      totalSlashed := U64.saturatingAdd p.totalSlashed s.2 }

def recordBlockProduced (validator : Pubkey) : Except String StakePool :=
  match p.stakes.get validator with
  | none => .ok p
  | some info => do
    let blocksProduced ← okOr (U64.checkedAdd info.blocksProduced 1)
      s!"validator {validator} production counter overflow"
    pure { p with stakes := p.stakes.put validator { info with blocksProduced } }

/-! ### Exits -/

/-- Take `amount` out of one delegation entry, dropping what becomes empty. -/
def withoutDelegation (validator delegator : Pubkey) (amount : Nat) :
    HashMap Pubkey (HashMap Pubkey Nat) :=
  match p.delegations.get validator with
  | none => p.delegations
  | some entries =>
    let entries := match entries.get delegator with
      | none => entries
      | some d => if d - amount = 0 then entries.remove delegator
        else entries.put delegator (d - amount)
    if HashMap.isEmpty entries = true then p.delegations.remove validator
    else p.delegations.put validator entries

def undelegate (delegator validator : Pubkey) (amount : Nat) :
    Except String StakePool := do
  failIf (amount = 0) "Undelegation amount must be greater than zero"
  let delegated := p.delegation validator delegator
  failIf (delegated < amount) s!"Insufficient delegation: have {delegated}, requested {amount}"
  let info ← okOr (p.stakes.get validator) "Validator not found"
  failIf (info.delegatedAmount < amount) "Insufficient delegated amount"
  let info := { info with delegatedAmount := info.delegatedAmount - amount }
  pure { p with
    stakes := p.stakes.put validator info.refresh
    totalStaked := U64.saturatingSub p.totalStaked amount
    delegations := p.withoutDelegation validator delegator amount }

/-- `request_delegation_unstake`: the delegation stops counting at once and becomes a request. -/
def requestDelegationUnstake (delegator validator : Pubkey)
    (amount currentSlot : Nat) : Except String StakePool := do
  failIf (amount = 0) "Undelegation amount must be greater than zero"
  failIf (p.unstakeRequests.containsKey (validator, delegator) = true)
    "Unstake already in progress"
  let delegated := p.delegation validator delegator
  failIf (delegated < amount) s!"Insufficient delegation: have {delegated}, requested {amount}"
  let unlockSlot ← okOr (U64.checkedAdd currentSlot UNSTAKE_COOLDOWN_SLOTS)
    "Delegation cooldown deadline overflow"
  let request : UnstakeRequest := { validator, staker := delegator, amount, unlockSlot }
  let p ← p.undelegate delegator validator amount
  pure { p with unstakeRequests := p.unstakeRequests.put (validator, delegator) request }

/-- `request_unstake`: the same for a self-bond. -/
def requestUnstake (p : StakePool) (validator : Pubkey) (amount currentSlot : Nat)
    (staker : Pubkey) : Except String StakePool := do
  let info ← okOr (p.stakes.get validator) "Validator not found"
  failIf (p.unstakeRequests.containsKey (validator, staker) = true) "Unstake already in progress"
  let request ← info.requestUnstake amount currentSlot staker
  let info := { info with amount := U64.saturatingSub info.amount request.amount }
  pure { p with
    unstakeRequests := p.unstakeRequests.put (validator, staker) request
    stakes := p.stakes.put validator info.refresh
    totalStaked := U64.saturatingSub p.totalStaked request.amount }

/-- `claim_unstake`: the matured request, and the pool without it. -/
def claimUnstake (validator : Pubkey) (currentSlot : Nat) (staker : Pubkey) :
    Except String (Nat × StakePool) := do
  let request ← okOr (p.unstakeRequests.get (validator, staker)) "No unstake request found"
  let remaining := request.unlockSlot - currentSlot
  let hours := remaining * 400 / 1000 / 3600
  failIf (currentSlot < request.unlockSlot)
    s!"Cooldown not complete. {remaining} slots remaining (~{hours} hours)"
  pure (request.amount,
    { p with unstakeRequests := p.unstakeRequests.remove (validator, staker) })

/-- Who `remove_ghost_validators` removes: inactive, without self-bond, and idle for longer than
    the grace period. -/
def isGhost (currentSlot graceSlots : Nat) (info : StakeInfo) : Bool :=
  !info.isActive && decide (info.amount = 0)
    && decide (graceSlots < U64.saturatingSub currentSlot info.lastRewardSlot)

/-- One removal. -/
def removeGhost (validator : Pubkey) : StakePool :=
  match p.stakes.get validator with
  | none => p
  | some info =>
    { p with
      stakes := p.stakes.remove validator
      totalStaked := U64.saturatingSub p.totalStaked info.amount
      fingerprintRegistry := if info.machineFingerprint = 0 then p.fingerprintRegistry
        else p.fingerprintRegistry.remove info.machineFingerprint }

def ghosts (currentSlot graceSlots : Nat) : List Pubkey :=
  (p.stakes.toList.filter fun e => isGhost currentSlot graceSlots e.2).map Prod.fst

def removeGhostValidators (currentSlot graceSlots : Nat) : StakePool :=
  (p.ghosts currentSlot graceSlots).foldl removeGhost p

/-! ### Machine fingerprints -/

/-- The validator other than `validator` that owns `fingerprint`. -/
def foreignOwner (validator : Pubkey) (fingerprint : Fingerprint) :
    Option Pubkey :=
  (p.fingerprintRegistry.get fingerprint).filter fun existing => decide (existing ≠ validator)

def registerFingerprint (validator : Pubkey) (fingerprint : Fingerprint) :
    Except String StakePool :=
  if fingerprint = 0 then .ok p
  else match p.fingerprintRegistry.get fingerprint with
    | some existing => do
      failIf (existing ≠ validator)
        s!"Machine fingerprint already registered to validator {existing}"
      pure p
    | none => .ok { p with
        fingerprintRegistry := p.fingerprintRegistry.put fingerprint validator
        stakes := match p.stakes.get validator with
          | none => p.stakes
          | some info => p.stakes.put validator { info with machineFingerprint := fingerprint } }

def migrateFingerprint (validator : Pubkey) (newFingerprint : Fingerprint)
    (currentSlot : Nat) : Except String StakePool :=
  if newFingerprint = 0 then .error "Cannot migrate to empty fingerprint"
  else match p.foreignOwner validator newFingerprint with
  | some existing =>
    .error s!"New machine fingerprint already registered to validator {existing}"
  | none => do
    let info ← okOr (p.stakes.get validator) "Validator not found"
    let release := U64.wrappingAdd info.lastMigrationSlot MIGRATION_COOLDOWN_SLOTS
    let remaining := release - currentSlot
    let hours := remaining * 400 / 1000 / 3600
    failIf (0 < info.lastMigrationSlot ∧ currentSlot < release)
      s!"Migration cooldown active. {remaining} slots remaining (~{hours} hours)"
    let registry := if info.machineFingerprint = 0 then p.fingerprintRegistry
      else p.fingerprintRegistry.remove info.machineFingerprint
    pure { p with
      fingerprintRegistry := registry.put newFingerprint validator
      stakes := p.stakes.put validator
        { info with machineFingerprint := newFingerprint, lastMigrationSlot := currentSlot } }

/-- The part of `try_bootstrap_with_fingerprint` for a validator that has an entry: up to the
    requested amount, never beyond. -/
def bootstrapExisting (validator : Pubkey) (info : StakeInfo) (amount : Nat)
    (fingerprint : Fingerprint) : Except String ((Nat × Bool) × StakePool) :=
  if amount ≤ info.amount then do
    let p ← p.registerFingerprint validator fingerprint
    pure ((info.bootstrapIndex, false), p)
  else do
    failIf (MAX_VALIDATOR_STAKE < amount)
      s!"Stake {amount} would exceed max {MAX_VALIDATOR_STAKE} per validator"
    let raised : StakeInfo := { info with amount }
    let p := { p with
      stakes := p.stakes.put validator raised.refresh
      totalStaked := U64.saturatingAdd p.totalStaked (amount - info.amount) }
    let p ← p.registerFingerprint validator fingerprint
    pure ((info.bootstrapIndex, false), p)

/-- The part for a new validator.  The index counter is put back when the amount is too small. -/
def bootstrapNew (validator : Pubkey) (amount currentSlot : Nat)
    (fingerprint : Fingerprint) : Except String ((Nat × Bool) × StakePool) := do
  failIf (amount < MIN_VALIDATOR_STAKE)
    s!"Stake {amount} is below minimum {MIN_VALIDATOR_STAKE}"
  let underCap := p.bootstrapGrantsIssued < MAX_BOOTSTRAP_VALIDATORS
  let bootstrapIndex := if underCap then p.bootstrapGrantsIssued else U64.MAX
  let info := StakeInfo.withBootstrapIndex validator amount currentSlot bootstrapIndex
  pure ((bootstrapIndex, true), { p with
    bootstrapGrantsIssued := if underCap then p.bootstrapGrantsIssued + 1
      else p.bootstrapGrantsIssued
    stakes := p.stakes.put validator { info with machineFingerprint := fingerprint }
    totalStaked := U64.saturatingAdd p.totalStaked amount
    fingerprintRegistry := if fingerprint = 0 then p.fingerprintRegistry
      else p.fingerprintRegistry.put fingerprint validator })

/-- `try_bootstrap_with_fingerprint`; returns the bootstrap index and whether the entry is new. -/
def tryBootstrapWithFingerprint (validator : Pubkey) (amount currentSlot : Nat)
    (fingerprint : Fingerprint) : Except String ((Nat × Bool) × StakePool) :=
  match if fingerprint = 0 then none else p.foreignOwner validator fingerprint with
  | some existing =>
    .error (s!"Machine fingerprint already registered to validator {existing}. " ++
      "Each machine can only receive one bootstrap grant.")
  | none =>
    match p.stakes.get validator with
    | some info => p.bootstrapExisting validator info amount fingerprint
    | none => p.bootstrapNew validator amount currentSlot fingerprint

/-- Accept a higher stake amount. -/
def mergeAmount (i entry : StakeInfo) : StakeInfo :=
  if i.amount < entry.amount then { i with amount := entry.amount } else i

/-- Sync the bootstrap fields if the remote entry has repaid more. -/
def mergeDebt (i entry : StakeInfo) : StakeInfo :=
  if i.totalDebtRepaid < entry.totalDebtRepaid then
    { i with
      bootstrapDebt := entry.bootstrapDebt, totalDebtRepaid := entry.totalDebtRepaid
      earnedAmount := entry.earnedAmount, status := entry.status
      graduationSlot := entry.graduationSlot }
  else i

/-- Accept a bootstrap index, and with it a missing debt. -/
def mergeIndex (i entry : StakeInfo) : StakeInfo :=
  if i.bootstrapIndex = U64.MAX ∧ entry.bootstrapIndex ≠ U64.MAX then
    if i.bootstrapDebt = 0 ∧ 0 < entry.bootstrapDebt then
      { i with
        bootstrapIndex := entry.bootstrapIndex
        bootstrapDebt := entry.bootstrapDebt, status := entry.status }
    else { i with bootstrapIndex := entry.bootstrapIndex }
  else i

/-- Accept a higher production count. -/
def mergeBlocks (i entry : StakeInfo) : StakeInfo :=
  if i.blocksProduced < entry.blocksProduced then { i with blocksProduced := entry.blocksProduced }
  else i

/-- Accept a later end of the penalty boost. -/
def mergeBoost (i entry : StakeInfo) : StakeInfo :=
  if i.penaltyBoostUntil < entry.penaltyBoostUntil then
    { i with penaltyBoostUntil := entry.penaltyBoostUntil }
  else i

/-- What `upsert_stake_full` takes over from a remote entry into an existing one, the fingerprint
    aside. -/
def mergeEntry (info entry : StakeInfo) : StakeInfo :=
  let i := mergeAmount info entry
  let i := mergeDebt i entry
  let i := mergeIndex i entry
  let i := mergeBlocks i entry
  mergeBoost i entry

/-- The fingerprint of a remote entry is taken over if the local one is empty, unless another
    validator owns it. -/
def takesOver (info entry : StakeInfo) : Bool :=
  decide (info.machineFingerprint = 0 ∧ entry.machineFingerprint ≠ 0) &&
    (p.foreignOwner entry.validator entry.machineFingerprint).isNone

/-- `upsert_stake_full`: merge a remote entry, or insert it as it is. -/
def upsertStakeFull (entry : StakeInfo) : StakePool :=
  match p.stakes.get entry.validator with
  | some info =>
    let merged := mergeEntry info entry
    let merged := if p.takesOver info entry = true
      then { merged with machineFingerprint := entry.machineFingerprint } else merged
    { p with
      totalStaked := if info.amount < entry.amount
        then U64.saturatingAdd p.totalStaked (entry.amount - info.amount) else p.totalStaked
      fingerprintRegistry := if p.takesOver info entry = true
        then p.fingerprintRegistry.put entry.machineFingerprint entry.validator
        else p.fingerprintRegistry
      stakes := p.stakes.put entry.validator merged.refresh }
  | none =>
    { p with
      totalStaked := U64.saturatingAdd p.totalStaked entry.amount
      fingerprintRegistry := if entry.machineFingerprint = 0 then p.fingerprintRegistry
        else p.fingerprintRegistry.put entry.machineFingerprint entry.validator
      bootstrapGrantsIssued :=
        if entry.bootstrapIndex ≠ U64.MAX ∧ p.bootstrapGrantsIssued ≤ entry.bootstrapIndex
        then entry.bootstrapIndex + 1 else p.bootstrapGrantsIssued
      stakes := p.stakes.put entry.validator entry }

end StakePool
end Staking
end Lichen
