/-
  Validator sets, stake pools and what consensus reads from them (`core/src/consensus.rs`):
  eligible voting stake, the canonical powers a block header commits to, and the weighted
  round-robin leader schedule.

  Only the fields these functions read are kept.  A validator set carries the fact that
  `add_validator` maintains: no key is in it twice.  Stakes are `u64`; sums are the `u128` sums of
  the source, which cannot overflow for any set that fits in memory, and are natural numbers here.
-/
import Mathlib.Data.List.Sort
import Lichen.Base.HashMap
import Lichen.Core.Types

open Base
namespace Lichen

/-! ## Data -/

structure ValidatorInfo where
  pubkey : Pubkey
  stake : UInt64
  pendingActivation : Bool
  deriving DecidableEq, Repr

structure ValidatorSet where
  validators : List ValidatorInfo
  nodup : (validators.map ValidatorInfo.pubkey).Nodup

structure StakeInfo where
  amount : UInt64
  delegatedAmount : UInt64
  deriving DecidableEq, Repr

structure ValidatorEpochAccounting where
  consensusPower : UInt64
  leaderWeight : UInt64
  deriving DecidableEq, Repr

structure StakingV2EpochState where
  validators : HashMap Pubkey ValidatorEpochAccounting

structure StakePool where
  stakes : HashMap Pubkey StakeInfo
  stakingV2State : Option StakingV2EpochState

/-- `MIN_VALIDATOR_STAKE`: 75,000 LICN in spores. -/
def MIN_VALIDATOR_STAKE : UInt64 := 75000000000000

/-- `MAX_VALIDATOR_STAKE`: 1,000,000 LICN in spores. -/
def MAX_VALIDATOR_STAKE : UInt64 := 1000000000000000

/-- `u64::saturating_add`. -/
def saturatingAdd (a b : UInt64) : UInt64 :=
  if a.toNat + b.toNat < 2 ^ 64 then a + b else UInt64.ofNat (2 ^ 64 - 1)

def StakeInfo.totalStake (s : StakeInfo) : UInt64 := saturatingAdd s.amount s.delegatedAmount

namespace StakePool

def getStake (p : StakePool) (validator : Pubkey) : Option StakeInfo := p.stakes.get validator

def stakingV2LeaderWeight (p : StakePool) (validator : Pubkey) : Option UInt64 :=
  p.stakingV2State.bind fun s => (s.validators.get validator).map (·.leaderWeight)

def stakingV2ConsensusPower (p : StakePool) (validator : Pubkey) : Option UInt64 :=
  p.stakingV2State.bind fun s => (s.validators.get validator).map (·.consensusPower)

end StakePool

namespace ValidatorSet

def getValidator (vs : ValidatorSet) (pubkey : Pubkey) : Option ValidatorInfo :=
  vs.validators.find? (fun v => v.pubkey == pubkey)

/-- The order of `sort_by_key(|v| v.pubkey.0)`. -/
def keyLe (a b : ValidatorInfo) : Prop := a.pubkey.val ≤ b.pubkey.val

instance : DecidableRel keyLe := fun a b => inferInstanceAs (Decidable (a.pubkey.val ≤ b.pubkey.val))

def sortedValidators (vs : ValidatorSet) : List ValidatorInfo :=
  vs.validators.insertionSort keyLe

end ValidatorSet

/-- Active validators with these keys and stakes, without delegations and without Staking V2. -/
def ValidatorSet.ofStakes (l : List (Pubkey × UInt64)) (h : (l.map Prod.fst).Nodup) :
    ValidatorSet where
  validators := l.map fun p => ⟨p.1, p.2, false⟩
  nodup := by
    rw [List.map_map]
    exact h

def StakePool.ofStakes (l : List (Pubkey × UInt64)) : StakePool where
  stakes := l.foldl (fun m p => m.put p.1 ⟨p.2, 0⟩) ∅
  stakingV2State := none

/-! ## Eligible stake -/

/-- The power `m` gives to `k`: nothing if `k` is not eligible. -/
def powerIn (m : HashMap Pubkey UInt64) (k : Pubkey) : Nat := ((m.get k).map UInt64.toNat).getD 0

theorem powerIn_outside (k) (h : k ∉ m.keys) : powerIn m k = 0 := by
  grind [powerIn, HashMap.not_mem_keys_iff]

/-- What all of them have together. -/
def totalIn (m : HashMap Pubkey UInt64) : Nat := (m.keys.map (powerIn m)).sum

/-- `eligible_validator_stake`: with Staking V2 state the epoch-frozen power, whatever the minimum;
    without it the live stake, if that reaches the minimum. -/
def eligibleValidatorStake (validator : Pubkey) (vs : ValidatorSet) (pool : StakePool)
    (minValidatorStake : UInt64) : Option UInt64 :=
  match vs.getValidator validator with
  | none => none
  | some info =>
    if info.pendingActivation then none
    else if pool.stakingV2State.isSome then pool.stakingV2ConsensusPower validator
    else match pool.getStake validator with
      | none => none
      | some s => if s.totalStake < minValidatorStake then none else some s.totalStake

/-! ## Canonical powers -/

structure CanonicalValidatorPower where
  validator : Pubkey
  power : UInt64
  deriving DecidableEq, Repr

def canonicalValidatorPowers (vs : ValidatorSet) (pool : StakePool) :
    List CanonicalValidatorPower :=
  if pool.stakingV2State.isSome then
    (vs.sortedValidators.filter fun v => !v.pendingActivation).filterMap fun v =>
      (pool.stakingV2ConsensusPower v.pubkey).map fun power => ⟨v.pubkey, power⟩
  else
    vs.sortedValidators.map fun v =>
      ⟨v.pubkey, ((pool.getStake v.pubkey).map StakeInfo.totalStake).getD 0⟩

namespace CanonicalValidatorPower

def keyLe (a b : CanonicalValidatorPower) : Prop := a.validator.val ≤ b.validator.val

instance : DecidableRel keyLe :=
  fun a b => inferInstanceAs (Decidable (a.validator.val ≤ b.validator.val))

/-- One entry of the hashed list: the key, then the power in little-endian. -/
def bytes (p : CanonicalValidatorPower) : List UInt8 :=
  p.validator.bytes ++ leBytes 8 p.power.toNat

end CanonicalValidatorPower

def canonicalValidatorPowersHash [Crypto] (powers : List CanonicalValidatorPower) : Hash :=
  Crypto.hash ((powers.insertionSort CanonicalValidatorPower.keyLe).flatMap
    CanonicalValidatorPower.bytes)

/-- `compute_validators_hash`, what a proposer writes into the header. -/
def computeValidatorsHash [Crypto] (vs : ValidatorSet) (pool : StakePool) : Hash :=
  canonicalValidatorPowersHash (canonicalValidatorPowers vs pool)

/-! ## Leader selection -/

/-- The `while y < x` loop of `integer_sqrt`; `x` falls at every turn, so fuel `x` is enough. -/
def integerSqrtLoop (value : Nat) : Nat → Nat → Nat → Nat
  | 0, x, _ => x
  | fuel + 1, x, y => if y < x then integerSqrtLoop value fuel y ((y + value / y) / 2) else x

def integerSqrt (value : UInt64) : Nat :=
  if value = 0 then 0
  else integerSqrtLoop value.toNat value.toNat value.toNat ((value.toNat + 1) / 2)

/-- `i64::from_le_bytes` of the first eight bytes of a hash. -/
def seedOffset (h : Hash) : Int :=
  let raw := ofLeBytes (h.bytes.take 8)
  if raw < 2 ^ 63 then (raw : Int) else (raw : Int) - 2 ^ 64

/-- Index of the first maximum: the `p > max_priority` scan. -/
def argMax (priorities : List Int) : Nat :=
  (priorities.zipIdx.foldl
    (fun (best : Int × Nat) (p : Int × Nat) => if best.1 < p.1 then p else best)
    (priorities.headD 0, 0)).2

/-- One simulated round: add the weights, pick the highest priority, charge it the total. -/
def leaderRound (weights : List Int) (total : Int) (s : List Int × Nat) : List Int × Nat :=
  let raised := List.zipWith (· + ·) s.1 weights
  let idx := argMax raised
  (raised.modify idx (· - total), idx)

/-- `rounds` simulated rounds. -/
def leaderRounds (weights : List Int) (total : Int) : Nat → List Int × Nat → List Int × Nat
  | 0, s => s
  | n + 1, s => leaderRounds weights total n (leaderRound weights total s)

/-- The leader's weight: the frozen V2 weight, else `sqrt(stake) + 1`. -/
def leaderWeightOf (pool : StakePool) (v : ValidatorInfo) : Int :=
  match pool.stakingV2LeaderWeight v.pubkey with
  | some w => (w.toNat : Int)
  | none =>
    let stake := match pool.getStake v.pubkey with
      | some s => min s.totalStake MAX_VALIDATOR_STAKE
      | none => min v.stake MAX_VALIDATOR_STAKE
    ((integerSqrt (max stake 1) : Nat) : Int) + 1

/-- Who may lead: active, and either in the frozen V2 set or above the minimum stake. -/
def leaderEligible (pool : StakePool) (minValidatorStake : UInt64) (v : ValidatorInfo) : Bool :=
  if v.pendingActivation then false
  else if pool.stakingV2State.isSome then (pool.stakingV2LeaderWeight v.pubkey).isSome
  else minValidatorStake ≤ ((pool.getStake v.pubkey).map StakeInfo.totalStake).getD 0

namespace ValidatorSet

/-- `select_leader_round_robin`, the fallback when every weight is zero. -/
def selectLeader (vs : ValidatorSet) (slot : UInt64) : Option Pubkey :=
  let sorted := vs.sortedValidators
  if sorted.isEmpty then none else (sorted[slot.toNat % sorted.length]?).map (·.pubkey)

def selectLeaderWeighted [Crypto] (vs : ValidatorSet) (slot : UInt64) (pool : StakePool)
    (randomnessSeed : List UInt8) (minValidatorStake : UInt64) : Option Pubkey :=
  if vs.validators.isEmpty then none
  else
    let eligible := vs.sortedValidators.filter (leaderEligible pool minValidatorStake)
    match eligible with
    | [] => none
    | [v] => some v.pubkey
    | _ =>
      let weights := eligible.map (leaderWeightOf pool)
      let total := weights.sum
      if total = 0 then vs.selectLeader slot
      else
        let epochLen := eligible.length * 4
        let effectiveRounds := slot.toNat % max epochLen 1
        let priorities : List Int :=
          if randomnessSeed.isEmpty then eligible.map fun _ => 0
          else eligible.zipIdx.map fun p =>
            Int.tmod (seedOffset (Crypto.hash (randomnessSeed ++ leBytes 8 p.2)))
              (Int.tdiv total 2 + 1)
        let idx := (leaderRounds weights total (effectiveRounds + 1) (priorities, 0)).2
        (eligible[idx]?).map (·.pubkey)

end ValidatorSet
end Lichen
