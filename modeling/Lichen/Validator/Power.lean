/-
  The voting power a height is decided with (`ConsensusPowerSnapshot` in
  `validator/src/consensus.rs`): the live stake of every active validator that reaches the
  network's minimum, frozen when the height starts.

  The snapshot carries the one fact every quorum argument starts from: its total is the sum of the
  powers in it.  `build` computes the two side by side in one loop, so the fact is an invariant of
  that loop; it needs that no validator is visited twice, which is what a `ValidatorSet` carries.
-/
import Lichen.Core.Stake

open Base HashMap
namespace Lichen
open List

/-- `ConsensusPowerSnapshot`: the frozen stake of every eligible validator, and their sum. -/
structure ConsensusPowerSnapshot where
  eligiblePower : HashMap Pubkey UInt64
  totalEligibleStake : Nat
  total_eq : totalEligibleStake = (eligiblePower.keys.map (powerIn eligiblePower)).sum

namespace ConsensusPowerSnapshot

/-- One turn of the loop of `build`. -/
def buildStep (pool : StakePool) (minValidatorStake : UInt64) (s : HashMap Pubkey UInt64 × Nat)
    (v : ValidatorInfo) : HashMap Pubkey UInt64 × Nat :=
  if v.pendingActivation then s
  else match (pool.getStake v.pubkey).map StakeInfo.totalStake with
    | none => s
    | some stake =>
      if stake < minValidatorStake then s else (s.1.put v.pubkey stake, s.2 + stake.toNat)

/-- The loop of `build`: live stake of the active validators that reach the minimum. -/
def buildRaw (vs : ValidatorSet) (pool : StakePool) (minValidatorStake : UInt64) :
    HashMap Pubkey UInt64 × Nat :=
  vs.sortedValidators.foldl (buildStep pool minValidatorStake) (∅, 0)

variable {v : ValidatorInfo} {pool : StakePool} {s : HashMap Pubkey UInt64 × Nat}

/-- What the loop keeps: the running total is the sum over the map built so far. -/
theorem buildStep_total (hnew : s.1.get v.pubkey = none)
    (hs : s.2 = (s.1.keys.map (powerIn s.1)).sum) :
    (buildStep pool minStake s v).2
      = ((buildStep pool minStake s v).1.keys.map (powerIn (buildStep pool minStake s v).1)).sum := by
  unfold buildStep
  split
  · exact hs
  · split
    · exact hs
    · split
      · exact hs
      · rename_i stake _ _
        -- the old keys are not `v`'s, so they keep their power
        have hold : s.1.keys.map (powerIn (s.1.put v.pubkey stake))
            = s.1.keys.map (powerIn s.1) := by
          apply map_congr_left
          intro k hk
          have hne : k ≠ v.pubkey := by
            rintro rfl
            exact (not_mem_keys_iff _ _).mpr hnew hk
          unfold powerIn
          rw [get_put_ne _ _ hne]
        have hself : powerIn (s.1.put v.pubkey stake) v.pubkey = stake.toNat := by
          simp [powerIn]
        show s.2 + stake.toNat = _
        rw [keys_put_of_get_none _ hnew, map_cons, sum_cons, hold, hself, ← hs]
        omega

/-- A turn touches no other validator's entry. -/
theorem buildStep_get_ne (hk : k ≠ v.pubkey) :
    (buildStep pool minStake s v).1.get k = s.1.get k := by
  grind [buildStep]

theorem foldl_buildStep_total (pool : StakePool) (minStake : UInt64) (l : List ValidatorInfo) :
    ∀ s : HashMap Pubkey UInt64 × Nat, (l.map ValidatorInfo.pubkey).Nodup →
      (∀ v ∈ l, s.1.get v.pubkey = none) → s.2 = (s.1.keys.map (powerIn s.1)).sum →
      (l.foldl (buildStep pool minStake) s).2 = ((l.foldl (buildStep pool minStake) s).1.keys.map
            (powerIn (l.foldl (buildStep pool minStake) s).1)).sum := by
  induction l with
  | nil => intro s _ _ hs; exact hs
  | cons v l ih =>
    intro s hnd hnew hs
    rw [map_cons, nodup_cons] at hnd
    rw [foldl_cons]
    apply ih _ hnd.2
    · simp_all [buildStep_get_ne]
    · exact buildStep_total (hnew v mem_cons_self) hs

/-- `ConsensusPowerSnapshot::build`. -/
def build (vs : ValidatorSet) (pool : StakePool) (minValidatorStake : UInt64) :
    ConsensusPowerSnapshot where
  eligiblePower := (buildRaw vs pool minValidatorStake).1
  totalEligibleStake := (buildRaw vs pool minValidatorStake).2
  total_eq := foldl_buildStep_total pool minValidatorStake vs.sortedValidators (∅, 0)
    (((vs.validators.perm_insertionSort ValidatorSet.keyLe).map _).nodup_iff.mpr vs.nodup)
    (fun _ _ => get_empty _) rfl

/-- What the loop finds for a validator: its live stake, if it is active and reaches the minimum. -/
def liveStake (pool : StakePool) (minValidatorStake : UInt64) (v : ValidatorInfo) : Option UInt64 :=
  if v.pendingActivation then none
  else ((pool.getStake v.pubkey).map StakeInfo.totalStake).filter
    fun stake => decide (minValidatorStake ≤ stake)

theorem buildStep_get_self (hnew : s.1.get v.pubkey = none) :
    (buildStep pool minStake s v).1.get v.pubkey = liveStake pool minStake v := by
  unfold buildStep liveStake
  grind

theorem foldl_buildStep_get (pool : StakePool) (minStake : UInt64) (l : List ValidatorInfo) :
    ∀ s : HashMap Pubkey UInt64 × Nat, (l.map ValidatorInfo.pubkey).Nodup →
      (∀ v ∈ l, s.1.get v.pubkey = none) →
      (∀ v ∈ l, (l.foldl (buildStep pool minStake) s).1.get v.pubkey = liveStake pool minStake v)
        ∧ ∀ k, k ∉ l.map ValidatorInfo.pubkey →
          (l.foldl (buildStep pool minStake) s).1.get k = s.1.get k := by
  induction l with
  | nil =>
    simp
  | cons v l ih =>
    intro s hnd _
    rw [map_cons, nodup_cons] at hnd
    obtain ⟨hin, hout⟩ := ih (buildStep pool minStake s v) hnd.2 (by
      grind [buildStep_get_ne])
    grind [buildStep_get_self, buildStep_get_ne]

theorem get_build_of_mem (hv : v ∈ vs.validators) (pool : StakePool) (minStake : UInt64) :
    (build vs pool minStake).eligiblePower.get v.pubkey = liveStake pool minStake v := by
  have hperm := vs.validators.perm_insertionSort ValidatorSet.keyLe
  exact (foldl_buildStep_get pool minStake _ _ ((hperm.map _).nodup_iff.mpr vs.nodup)
    (fun _ _ => get_empty _)).1 v (hperm.mem_iff.mpr hv)

theorem get_build_of_not_mem
    (hk : k ∉ vs.validators.map ValidatorInfo.pubkey) (pool : StakePool) (minStake : UInt64) :
    (build vs pool minStake).eligiblePower.get k = none := by
  have hperm := vs.validators.perm_insertionSort ValidatorSet.keyLe
  exact (foldl_buildStep_get pool minStake _ _ ((hperm.map _).nodup_iff.mpr vs.nodup)
    (fun _ _ => get_empty _)).2 k (fun hmem => hk ((hperm.map _).mem_iff.mp hmem))

def eligibleStake (s : ConsensusPowerSnapshot) (validator : Pubkey) : Option UInt64 :=
  s.eligiblePower.get validator

end ConsensusPowerSnapshot
end Lichen
