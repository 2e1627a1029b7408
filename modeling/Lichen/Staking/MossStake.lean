/-
  MossStake, the liquid staking pool (`core/src/mossstake.rs`), with slot-only locks and cooldowns.

  A user deposits LICN and holds a position of stLICN shares.  The pool keeps one value in four
  places: the principal and rewards of every position, the supply of shares, the backing, and the
  rate between the two; and it owes what has been requested and not claimed yet.
  `validateInvariants` compares them.

  A method that takes `&mut self` returns what it leaves of the pool beside its result.  Those that
  make their errors before their first write are written as functions into `Except` and run through
  `commit`.  The order in which a `HashMap` is walked only decides which of several errors is
  reported; a `BTreeMap` is walked in key order.
-/
import Lichen.Base.Apportion
import Lichen.Staking.EpochOps

open Base
open Lichen.Staking (sortedEntries keyLe UNSTAKE_COOLDOWN_SLOTS)
namespace Lichen.MossStake

/-! ## The token -/

structure StLicnToken where
  totalSupply : Nat
  totalLicnStaked : Nat
  exchangeRateFp : Nat
  deriving DecidableEq, Repr

def RATE_PRECISION : Nat := 1000000000

namespace StLicnToken

def new : StLicnToken := ⟨0, 0, RATE_PRECISION⟩

def calculateExchangeRateFp (t : StLicnToken) : Nat :=
  if t.totalSupply = 0 then RATE_PRECISION
  else U128.toU64 (t.totalLicnStaked * RATE_PRECISION / t.totalSupply)

def licnToStLicn (t : StLicnToken) (licnAmount : Nat) : Nat :=
  if t.totalSupply = 0 then licnAmount
  else U128.toU64 (licnAmount * RATE_PRECISION / max t.exchangeRateFp 1)

/-- New totals, and the rate between them. -/
def withTotals (totalSupply totalLicnStaked : Nat) : StLicnToken :=
  let t : StLicnToken := ⟨totalSupply, totalLicnStaked, 0⟩
  { t with exchangeRateFp := t.calculateExchangeRateFp }

end StLicnToken

/-! ## Positions and requests -/

inductive LockTier where
  | Flexible
  | Lock30
  | Lock180
  | Lock365
  deriving DecidableEq, Repr

namespace LockTier

def rewardMultiplierBp : LockTier → Nat
  | Flexible => 10000
  | Lock30 => 16000
  | Lock180 => 24000
  | Lock365 => 36000

def lockDurationSlots : LockTier → Nat
  | Flexible => 0
  | Lock30 => 6480000
  | Lock180 => 38880000
  | Lock365 => 78840000

def displayName : LockTier → String
  | Flexible => "Flexible"
  | Lock30 => "30-Day Lock"
  | Lock180 => "180-Day Lock"
  | Lock365 => "365-Day Lock"

/-- The name `Debug` prints. -/
def debugName : LockTier → String
  | Flexible => "Flexible"
  | Lock30 => "Lock30"
  | Lock180 => "Lock180"
  | Lock365 => "Lock365"

end LockTier

structure StakingPosition where
  owner : Pubkey
  stLicnAmount : Nat
  licnDeposited : Nat
  depositedAt : Nat
  depositedAtUnixSeconds : Nat
  rewardsEarned : Nat
  lockTier : LockTier
  lockUntil : Nat
  lockUntilUnixSeconds : Nat
  deriving DecidableEq, Repr

structure UnstakeRequest where
  owner : Pubkey
  stLicnAmount : Nat
  licnToReceive : Nat
  requestedAt : Nat
  claimableAt : Nat
  requestedAtUnixSeconds : Nat
  claimableAtUnixSeconds : Nat
  deriving DecidableEq, Repr

/-- The pool, without the two figures it only displays. -/
structure MossStakePool where
  stLicnToken : StLicnToken
  positions : HashMap Pubkey StakingPosition
  unstakeRequests : HashMap Pubkey (List UnstakeRequest)

namespace MossStakePool

def new : MossStakePool := ⟨StLicnToken.new, ∅, ∅⟩

variable (p : MossStakePool)

/-- The rate of the totals as they are. -/
def updateExchangeRate : MossStakePool :=
  { p with stLicnToken := .withTotals p.stLicnToken.totalSupply p.stLicnToken.totalLicnStaked }

/-! ## Checking a pool -/

/-- One turn of the loop over the positions, with the shares and the value so far. -/
def checkPosition (acc : Nat × Nat) (e : Pubkey × StakingPosition) : Except String (Nat × Nat) := do
  let (owner, position) := e
  failIf (position.owner ≠ owner)
    s!"MossStake position key {owner} does not match embedded owner {position.owner}"
  failIf (position.stLicnAmount = 0) s!"MossStake position {owner} has zero stLICN"
  let shares ← okOr (U64.checkedAdd acc.1 position.stLicnAmount)
    "MossStake position share total overflow"
  let value ← okOr (U64.checkedAdd position.licnDeposited position.rewardsEarned)
    s!"MossStake position value overflow for {owner}"
  let values ← okOr (U64.checkedAdd acc.2 value) "MossStake position value total overflow"
  pure (shares, values)

def checkRequest (owner : Pubkey) (request : UnstakeRequest) : Except String Unit := do
  failIf (request.owner ≠ owner)
    s!"MossStake request key {owner} does not match embedded owner {request.owner}"
  failIf (request.stLicnAmount = 0 ∨ request.licnToReceive = 0)
    s!"MossStake request for {owner} has zero value"
  failIf (request.claimableAt < request.requestedAt)
    s!"MossStake request for {owner} has a slot deadline before its request"
  failIf (0 < request.claimableAtUnixSeconds
      ∧ request.claimableAtUnixSeconds < request.requestedAtUnixSeconds)
    s!"MossStake request for {owner} has a timestamp deadline before its request"

def checkBucket (e : Pubkey × List UnstakeRequest) : Except String Unit := do
  failIf (e.2 = []) s!"MossStake request bucket {e.1} is empty"
  forEach e.2 (checkRequest e.1)

/-- `validate_invariants`. -/
def validateInvariants : Except String Unit := do
  let (shares, values) ← tryFold checkPosition (0, 0) (sortedEntries p.positions)
  failIf (shares ≠ p.stLicnToken.totalSupply)
    s!"MossStake share mismatch: positions={shares}, total_supply={p.stLicnToken.totalSupply}"
  failIf (values ≠ p.stLicnToken.totalLicnStaked)
    s!"MossStake backing mismatch: positions={values}, backing={p.stLicnToken.totalLicnStaked}"
  let expectedRate := p.stLicnToken.calculateExchangeRateFp
  failIf (p.stLicnToken.exchangeRateFp ≠ expectedRate)
    (s!"MossStake exchange-rate mismatch: stored={p.stLicnToken.exchangeRateFp}, "
      ++ s!"expected={expectedRate}")
  forEach p.unstakeRequests.toList checkBucket

/-! ## Deposits -/

/-- The lock of a deposit. -/
def lockDeadline (currentSlot : Nat) (tier : LockTier) : Except String Nat :=
  if 0 < tier.lockDurationSlots then
    okOr (U64.checkedAdd currentSlot tier.lockDurationSlots) "MossStake lock deadline overflow"
  else .ok 0

/-- A position with `minted` shares and `licnAmount` more; the lock is extended, never shortened. -/
def enlarge (position : StakingPosition) (minted licnAmount lockUntil : Nat) :
    Except String StakingPosition := do
  let stLicnAmount ← okOr (U64.checkedAdd position.stLicnAmount minted)
    "MossStake position share overflow"
  let licnDeposited ← okOr (U64.checkedAdd position.licnDeposited licnAmount)
    "MossStake position principal overflow"
  pure { position with
    stLicnAmount
    licnDeposited
    lockUntil := max position.lockUntil lockUntil
    depositedAtUnixSeconds := 0
    lockUntilUnixSeconds := 0 }

/-- The position of a deposit: an old one enlarged, or a new one. -/
def depositInto (user : Pubkey) (minted licnAmount currentSlot lockUntil : Nat)
    (tier : LockTier) : Except String StakingPosition :=
  match p.positions.get user with
  | some position => enlarge position minted licnAmount lockUntil
  | none => .ok
      { owner := user
        stLicnAmount := minted
        licnDeposited := licnAmount
        depositedAt := currentSlot
        depositedAtUnixSeconds := 0
        rewardsEarned := 0
        lockTier := tier
        lockUntil
        lockUntilUnixSeconds := 0 }

/-- A position keeps its tier. -/
def checkTier (user : Pubkey) (tier : LockTier) : Except String Unit :=
  match p.positions.get user with
  | some position => failIf (tier ≠ position.lockTier)
      (s!"Cannot change lock tier on existing position (current: {position.lockTier.debugName}, "
        ++ s!"requested: {tier.debugName}). Withdraw first.")
  | none => .ok ()

/-- `stake_with_tier`: the shares minted, and the pool. -/
def stakeWithTier (user : Pubkey) (licnAmount currentSlot : Nat)
    (tier : LockTier) : Except String (Nat × MossStakePool) := do
  failIf (licnAmount = 0) "Cannot stake 0 LICN"
  p.checkTier user tier
  let minted := p.stLicnToken.licnToStLicn licnAmount
  failIf (minted = 0) "Deposit is too small to mint one stLICN spore at the current exchange rate"
  let totalSupply ← okOr (U64.checkedAdd p.stLicnToken.totalSupply minted)
    "stLICN total supply overflow"
  let totalLicnStaked ← okOr (U64.checkedAdd p.stLicnToken.totalLicnStaked licnAmount)
    "MossStake backing overflow"
  let lockUntil ← lockDeadline currentSlot tier
  let position ← p.depositInto user minted licnAmount currentSlot lockUntil tier
  pure (minted, { p with
    stLicnToken := .withTotals totalSupply totalLicnStaked
    positions := p.positions.put user position })

/-! ## Exits -/

/-- `split_position_value_for_unstake`: principal, rewards and their sum. -/
def splitPositionValueForUnstake (position : StakingPosition) (stLicnAmount : Nat) :
    Except String (Nat × Nat × Nat) := do
  failIf (position.stLicnAmount = 0) "Position has no stLICN"
  failIf (position.stLicnAmount < stLicnAmount)
    s!"Insufficient stLICN: have {position.stLicnAmount}, need {stLicnAmount}"
  if stLicnAmount = position.stLicnAmount then
    let licn ← okOr (U64.checkedAdd position.licnDeposited position.rewardsEarned)
      "MossStake position value overflow"
    pure (position.licnDeposited, position.rewardsEarned, licn)
  else
    let principalOut := U128.toU64 (stLicnAmount * position.licnDeposited / position.stLicnAmount)
    let rewardsOut := U128.toU64 (stLicnAmount * position.rewardsEarned / position.stLicnAmount)
    let licn ← okOr (U64.checkedAdd principalOut rewardsOut) "MossStake unstake value overflow"
    pure (principalOut, rewardsOut, licn)

/-- A position that gives away shares with their principal and rewards. -/
def reduce (position : StakingPosition) (shares principal rewards : Nat) : StakingPosition :=
  { position with
    stLicnAmount := position.stLicnAmount - shares
    licnDeposited := U64.saturatingSub position.licnDeposited principal
    rewardsEarned := U64.saturatingSub position.rewardsEarned rewards }

/-- A position written back, or dropped if nothing is left of it. -/
def setPosition (positions : HashMap Pubkey StakingPosition) (user : Pubkey)
    (position : StakingPosition) : HashMap Pubkey StakingPosition :=
  if position.stLicnAmount = 0 ∧ position.licnDeposited = 0 ∧ position.rewardsEarned = 0 then
    positions.remove user
  else positions.put user position

/-- `request_unstake`: the request, and the pool. -/
def requestUnstake (user : Pubkey) (stLicnAmount currentSlot : Nat) :
    Except String (UnstakeRequest × MossStakePool) := do
  failIf (stLicnAmount = 0) "Cannot unstake 0 stLICN"
  let claimableAt ← okOr (U64.checkedAdd currentSlot UNSTAKE_COOLDOWN_SLOTS)
    "MossStake cooldown deadline overflow"
  let position ← okOr (p.positions.get user) "No staking position found"
  let remainingDays := (position.lockUntil - currentSlot) / 216000
  failIf (0 < position.lockUntil ∧ currentSlot < position.lockUntil)
    (s!"Position locked for {remainingDays} more days ({position.lockTier.displayName} tier). "
      ++ s!"Unlock at slot {position.lockUntil}")
  failIf (position.stLicnAmount < stLicnAmount)
    s!"Insufficient stLICN: have {position.stLicnAmount}, need {stLicnAmount}"
  let (principalOut, rewardsOut, licnToReceive) ←
    splitPositionValueForUnstake position stLicnAmount
  let totalSupply ← okOr (U64.checkedSub p.stLicnToken.totalSupply stLicnAmount)
    "stLICN total supply underflow"
  let totalLicnStaked ← okOr (U64.checkedSub p.stLicnToken.totalLicnStaked licnToReceive)
    "MossStake backing underflow"
  let request : UnstakeRequest :=
    { owner := user
      stLicnAmount
      licnToReceive
      requestedAt := currentSlot
      claimableAt
      requestedAtUnixSeconds := 0
      claimableAtUnixSeconds := 0 }
  pure (request, {
    stLicnToken := .withTotals totalSupply totalLicnStaked
    positions := setPosition p.positions user (reduce position stLicnAmount principalOut rewardsOut)
    unstakeRequests := p.unstakeRequests.entryPush user request })

/-- Whether the cooldown of a request is over. -/
def claimable (currentSlot : Nat) (request : UnstakeRequest) : Bool :=
  decide (request.claimableAt ≤ currentSlot)

/-- The buckets after a claim. -/
def withBucket (requests : HashMap Pubkey (List UnstakeRequest)) (user : Pubkey)
    (remaining : List UnstakeRequest) : HashMap Pubkey (List UnstakeRequest) :=
  if remaining = [] then requests.remove user else requests.put user remaining

/-- `claim_unstake`: what is claimed, and the pool.  The requests are drained before the sum of the
    claimable ones is looked at; if it is zero, only the others are put back. -/
def claimUnstake (user : Pubkey) (currentSlot : Nat) :
    Except String Nat × MossStakePool :=
  match p.unstakeRequests.get user with
  | none => (.error "No unstake requests found", p)
  | some requests =>
    let totalClaimable := (requests.filter (claimable currentSlot)).foldl
      (fun total request => U64.wrappingAdd total request.licnToReceive) 0
    let remaining := requests.filter fun request => !claimable currentSlot request
    if totalClaimable = 0 then
      (.error "No claimable unstake requests",
        { p with unstakeRequests := p.unstakeRequests.put user remaining })
    else
      (.ok totalClaimable,
        updateExchangeRate
          { p with unstakeRequests := withBucket p.unstakeRequests user remaining })

/-! ## Transfers -/

/-- `assert_transferable_position`. -/
def assertTransferablePosition (position : StakingPosition) (currentSlot : Nat) :
    Except String Unit := do
  failIf (position.lockTier ≠ .Flexible)
    (s!"{position.lockTier.displayName} positions are not transferable. Unstake after the lock "
      ++ "expires to receive LICN, or use the Flexible tier for liquid stLICN.")
  failIf (currentSlot < position.lockUntil)
    (s!"Position locked until slot {position.lockUntil}; "
      ++ "locked MossStake positions are not transferable")

/-- A receiver with a position must hold it unlocked. -/
def checkReceiver (positions : HashMap Pubkey StakingPosition) (target : Pubkey)
    (currentSlot : Nat) : Except String Unit :=
  match positions.get target with
  | some receiver => assertTransferablePosition receiver currentSlot
  | none => .ok ()

/-- What the receiver of a transfer holds then. -/
def receive (positions : HashMap Pubkey StakingPosition) (user : Pubkey)
    (shares principal rewards currentSlot : Nat) : StakingPosition :=
  match positions.get user with
  | some receiver => { receiver with
      stLicnAmount := U64.wrappingAdd receiver.stLicnAmount shares
      licnDeposited := U64.wrappingAdd receiver.licnDeposited principal
      rewardsEarned := U64.wrappingAdd receiver.rewardsEarned rewards }
  | none =>
    { owner := user
      stLicnAmount := shares
      licnDeposited := principal
      depositedAt := currentSlot
      depositedAtUnixSeconds := 0
      rewardsEarned := rewards
      lockTier := .Flexible
      lockUntil := 0
      lockUntilUnixSeconds := 0 }

/-- `transfer`. -/
def transfer (p : MossStakePool) (source target : Pubkey) (stLicnAmount currentSlot : Nat) :
    Except String MossStakePool := do
  failIf (stLicnAmount = 0) "Cannot transfer 0 stLICN"
  failIf (source = target) "Cannot transfer stLICN to self"
  let sender ← okOr (p.positions.get source) "Sender has no staking position"
  assertTransferablePosition sender currentSlot
  failIf (sender.stLicnAmount < stLicnAmount)
    s!"Insufficient stLICN: have {sender.stLicnAmount}, need {stLicnAmount}"
  checkReceiver p.positions target currentSlot
  let (deposited, rewards, _) ← splitPositionValueForUnstake sender stLicnAmount
  let positions := setPosition p.positions source (reduce sender stLicnAmount deposited rewards)
  pure { p with
    positions := positions.put target (receive positions target stLicnAmount deposited rewards
      currentSlot) }

/-! ## Rewards -/

/-- The weight of a position in a distribution. -/
def rewardWeight (tierWeighted : Bool) (position : StakingPosition) : Nat :=
  if tierWeighted then position.stLicnAmount * position.lockTier.rewardMultiplierBp / 10000
  else position.stLicnAmount

/-- `total_weighted_st_licn`. -/
def totalWeightedStLicn : Nat :=
  p.positions.sumBy fun _ position => rewardWeight true position

/-- The share of a position: by weight, in plain 128-bit arithmetic, or what is left. -/
def rewardShare (totalRewards totalWeighted distributed weight : Nat) (last : Bool) :
    Except String Nat :=
  if last then okOr (U64.checkedSub totalRewards distributed) "MossStake reward remainder underflow"
  else .ok (U128.toU64 (weight * totalRewards % 2 ^ 128 / totalWeighted))

/-- One turn of the loop over the positions, with what is distributed so far and the new rewards. -/
def rewardStep (tierWeighted : Bool) (totalRewards totalWeighted : Nat) (last : Bool)
    (acc : Nat × List (Pubkey × Nat)) (e : Pubkey × StakingPosition) :
    Except String (Nat × List (Pubkey × Nat)) := do
  let (owner, position) := e
  let share ← rewardShare totalRewards totalWeighted acc.1 (rewardWeight tierWeighted position) last
  let distributed ← okOr (U64.checkedAdd acc.1 share) "MossStake distributed reward overflow"
  let newRewards ← okOr (U64.checkedAdd position.rewardsEarned share)
    s!"MossStake position reward overflow for {owner}"
  pure (distributed, acc.2 ++ [(owner, newRewards)])

/-- The rewards of one position set. -/
def setRewards (positions : HashMap Pubkey StakingPosition) (update : Pubkey × Nat) :
    Except String (HashMap Pubkey StakingPosition) := do
  let (owner, rewardsEarned) := update
  let position ← okOr (positions.get owner)
    s!"MossStake position {owner} disappeared during apply"
  pure (positions.put owner { position with rewardsEarned })

/-- `distribute_rewards_with_policy`. -/
def distributeRewardsWithPolicy (totalRewards : Nat) (tierWeighted : Bool) :
    Except String MossStakePool :=
  if totalRewards = 0 ∨ p.stLicnToken.totalSupply = 0 then .ok p
  else do
    let totalWeighted := if tierWeighted then p.totalWeightedStLicn else p.stLicnToken.totalSupply
    failIf (totalWeighted = 0) "stLICN supply exists without weighted positions"
    let totalLicnStaked ← okOr (U64.checkedAdd p.stLicnToken.totalLicnStaked totalRewards)
      "MossStake backing overflow during reward distribution"
    let (distributed, updates) ← tryFoldLast (rewardStep tierWeighted totalRewards totalWeighted)
      (0, []) (sortedEntries p.positions)
    failIf (distributed ≠ totalRewards)
      (s!"MossStake reward conservation failure: distributed {distributed}, "
        ++ s!"expected {totalRewards}")
    let positions ← tryFold setRewards p.positions updates
    pure { p with
      stLicnToken := .withTotals p.stLicnToken.totalSupply totalLicnStaked
      positions }

/-- `distribute_rewards`: locked positions weigh more. -/
def distributeRewards (totalRewards : Nat) : Except String MossStakePool :=
  p.distributeRewardsWithPolicy totalRewards true

/-- The pool after a call that makes its errors before its first write. -/
def commit {α : Type} (p : MossStakePool) : Except String (α × MossStakePool) →
    Except String α × MossStakePool
  | .ok (a, p') => (.ok a, p')
  | .error e => (.error e, p)

/-- `distribute_rewards_v2`: the pool is checked before, and again after it has changed. -/
def distributeRewardsV2 (totalRewards : Nat) :
    Except String Unit × MossStakePool :=
  match p.validateInvariants with
  | .error e => (.error e, p)
  | .ok () =>
    match p.distributeRewardsWithPolicy totalRewards false with
    | .error e => (.error e, p)
    | .ok p' => (p'.validateInvariants, p')

/-! ## Slashing -/

structure MossStakeSlashSettlement where
  requestedLoss : Nat
  activeBackingLoss : Nat
  coolingDownLoss : Nat
  deriving DecidableEq, Repr

/-- A request that can still be slashed: its owner, its place in the bucket and what it is worth. -/
structure EligibleRequest where
  owner : Pubkey
  index : Nat
  amount : Nat
  deriving DecidableEq, Repr

/-- The requests made since the offence epoch began. -/
def eligibleRequests (offenseEpochStartSlot : Nat) : List EligibleRequest :=
  p.unstakeRequests.toList.flatMap fun e =>
    (e.2.zipIdx.filter fun x => decide (offenseEpochStartSlot ≤ x.1.requestedAt)).map fun x =>
      ⟨e.1, x.2, x.1.licnToReceive⟩

/-- The order of `sort_by_key(|(owner, index, _)| (owner.0, *index))`. -/
def requestLe (a b : EligibleRequest) : Prop :=
  a.owner.val < b.owner.val ∨ a.owner = b.owner ∧ a.index ≤ b.index

instance : DecidableRel requestLe := fun a b =>
  inferInstanceAs (Decidable (a.owner.val < b.owner.val ∨ a.owner = b.owner ∧ a.index ≤ b.index))

/-- What the two loops of a slash say when a share does not fit. -/
structure ShareTexts where
  remainder : String
  product : String
  exceeds : String

/-- The part of `loss` that falls to `value` out of `available`; the last gets what is left. -/
def lossShare (texts : ShareTexts) (loss available distributed value : Nat) (last : Bool) :
    Except String Nat :=
  if last then okOr (U64.checkedSub loss distributed) texts.remainder
  else do
    let product ← okOr (U128.checkedMul loss value) texts.product
    okOr (U128.tryToU64 (product / available)) texts.exceeds

def activeTexts : ShareTexts where
  remainder := "MossStake active slash remainder underflow"
  product := "MossStake position slash overflow"
  exceeds := "MossStake position slash exceeds u64"

def coolingTexts : ShareTexts where
  remainder := "MossStake cooling-down slash remainder underflow"
  product := "MossStake exit slash overflow"
  exceeds := "MossStake exit slash exceeds u64"

/-- The value of a position, if it has any. -/
def positiveStep (acc : List (Pubkey × Nat)) (e : Pubkey × StakingPosition) :
    Except String (List (Pubkey × Nat)) := do
  let value ← okOr (U64.checkedAdd e.2.licnDeposited e.2.rewardsEarned)
    s!"MossStake position value overflow for {e.1}"
  pure (if 0 < value then acc ++ [(e.1, value)] else acc)

/-- Rewards are lost before principal. -/
def slashPosition (position : StakingPosition) (loss : Nat) : Except String StakingPosition := do
  let rewardLoss := min loss position.rewardsEarned
  let rewardsEarned ← okOr (U64.checkedSub position.rewardsEarned rewardLoss)
    "MossStake reward slash underflow"
  let principalLoss ← okOr (U64.checkedSub loss rewardLoss)
    "MossStake principal slash split underflow"
  let licnDeposited ← okOr (U64.checkedSub position.licnDeposited principalLoss)
    "MossStake principal slash underflow"
  pure { position with rewardsEarned, licnDeposited }

/-- One turn of the loop over the positions with value. -/
def activeStep (loss available : Nat) (last : Bool)
    (acc : Nat × HashMap Pubkey StakingPosition) (e : Pubkey × Nat) :
    Except String (Nat × HashMap Pubkey StakingPosition) := do
  let (owner, value) := e
  let share ← lossShare activeTexts loss available acc.1 value last
  failIf (value < share) s!"MossStake slash exceeds active position value for {owner}"
  let distributed ← okOr (U64.checkedAdd acc.1 share) "MossStake active slash total overflow"
  let position ← okOr (acc.2.get owner) s!"MossStake position {owner} disappeared during slash"
  let slashed ← slashPosition position share
  pure (distributed, acc.2.put owner slashed)

/-- The active part of a slash: the backing and the positions after it. -/
def slashActive (loss : Nat) : Except String MossStakePool :=
  if loss = 0 then .ok p
  else do
    let positive ← tryFold positiveStep [] (sortedEntries p.positions)
    failIf (positive = [] ∨ p.stLicnToken.totalLicnStaked = 0)
      "MossStake active slash has no backing positions"
    let (distributed, positions) ← tryFoldLast (activeStep loss p.stLicnToken.totalLicnStaked)
      (0, p.positions) positive
    failIf (distributed ≠ loss) "MossStake active slash conservation failure"
    let totalLicnStaked ← okOr (U64.checkedSub p.stLicnToken.totalLicnStaked loss)
      "MossStake backing slash underflow"
    pure { p with positions, stLicnToken := { p.stLicnToken with totalLicnStaked } }

/-- A request with a smaller payment. -/
def slashRequest (requests : HashMap Pubkey (List UnstakeRequest)) (owner : Pubkey)
    (index loss : Nat) : Except String (HashMap Pubkey (List UnstakeRequest)) := do
  let bucket ← okOr (requests.get owner) "MossStake exit disappeared during slash"
  let request ← okOr (bucket[index]?) "MossStake exit disappeared during slash"
  let licnToReceive ← okOr (U64.checkedSub request.licnToReceive loss)
    "MossStake exit slash underflow"
  pure (requests.put owner (bucket.set index { request with licnToReceive }))

/-- One turn of the loop over the requests. -/
def coolingStep (loss available : Nat) (last : Bool)
    (acc : Nat × HashMap Pubkey (List UnstakeRequest)) (e : EligibleRequest) :
    Except String (Nat × HashMap Pubkey (List UnstakeRequest)) := do
  let share ← lossShare coolingTexts loss available acc.1 e.amount last
  failIf (e.amount < share) s!"MossStake slash exceeds cooling-down request for {e.owner}"
  let distributed ← okOr (U64.checkedAdd acc.1 share) "MossStake cooling-down slash total overflow"
  let requests ← slashRequest acc.2 e.owner e.index share
  pure (distributed, requests)

/-- Requests that are worth nothing go, and so do empty buckets. -/
def dropWorthless (requests : HashMap Pubkey (List UnstakeRequest)) :
    HashMap Pubkey (List UnstakeRequest) :=
  (requests.mapValues fun _ bucket => bucket.filter fun r => decide (0 < r.licnToReceive)).retain
    fun _ bucket => !bucket.isEmpty

/-- The cooling-down part of a slash. -/
def slashCooling (eligible : List EligibleRequest) (loss available : Nat) :
    Except String MossStakePool :=
  if loss = 0 then .ok p
  else do
    let (distributed, requests) ← tryFoldLast (coolingStep loss available) (0, p.unstakeRequests)
      (eligible.insertionSort requestLe)
    failIf (distributed ≠ loss) "MossStake cooling-down slash conservation failure"
    pure { p with unstakeRequests := dropWorthless requests }

/-- The part of a loss that falls to the requests. -/
def coolingLoss (actualLoss coolingAvailable totalAvailable : Nat) : Except String Nat :=
  if coolingAvailable = 0 then .ok 0
  else do
    let product ← okOr (U128.checkedMul actualLoss coolingAvailable)
      "MossStake cooling-down slash overflow"
    okOr (U128.tryToU64 (product / totalAvailable)) "MossStake cooling-down slash exceeds u64"

/-- `apply_staking_v2_slash`. -/
def applyStakingV2Slash (requestedLoss offenseEpochStartSlot : Nat) :
    Except String (MossStakeSlashSettlement × MossStakePool) := do
  p.validateInvariants
  if requestedLoss = 0 then pure (⟨requestedLoss, 0, 0⟩, p)
  else
    let eligible := p.eligibleRequests offenseEpochStartSlot
    let coolingAvailable ← tryFold (fun total (e : EligibleRequest) =>
      okOr (U64.checkedAdd total e.amount) "MossStake slashable exit total overflow") 0 eligible
    let activeAvailable := p.stLicnToken.totalLicnStaked
    let totalAvailable ← okOr (U64.checkedAdd activeAvailable coolingAvailable)
      "MossStake slashable value overflow"
    let actualLoss := min requestedLoss totalAvailable
    if actualLoss = 0 then pure (⟨requestedLoss, 0, 0⟩, p)
    else
      let coolingDownLoss ← coolingLoss actualLoss coolingAvailable totalAvailable
      let activeBackingLoss ← okOr (U64.checkedSub actualLoss coolingDownLoss)
        "MossStake slash class split underflow"
      failIf (activeAvailable < activeBackingLoss ∨ coolingAvailable < coolingDownLoss)
        "MossStake slash class split exceeds available value"
      let updated ← p.slashActive activeBackingLoss
      let updated ← updated.slashCooling eligible coolingDownLoss coolingAvailable
      let updated := updated.updateExchangeRate
      updated.validateInvariants
      pure (⟨requestedLoss, activeBackingLoss, coolingDownLoss⟩, updated)

end MossStakePool
end Lichen.MossStake
