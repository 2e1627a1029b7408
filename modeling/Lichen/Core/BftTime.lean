/-
  BFT time (`compute_bft_timestamp` in `core/src/block.rs`): the stake-weighted median of the
  timestamps on the precommits that committed a block, not below the block's own.

  What the median buys is that validators with less than half of the signers' stake cannot move it
  out of the range of the others' timestamps (`computeBftTimestamp_between`).
-/
import Lichen.Base.Median
import Lichen.Core.Stake

open Base
namespace Lichen
open List

/-- `sort_by_key(|(ts, _)| *ts)`. -/
def timestampLe (a b : UInt64) : Prop := a ≤ b

instance : DecidableRel timestampLe := fun a b => inferInstanceAs (Decidable (a ≤ b))

instance : Std.Total timestampLe := ⟨UInt64.le_total⟩

instance : IsTrans UInt64 timestampLe := ⟨fun _ _ _ => UInt64.le_trans⟩

section
variable (commitSignatures : List CommitSignature) (vs : ValidatorSet) (pool : StakePool)

/-- The active commit voters' timestamps, with their stakes. -/
def weightedTimestamps : List (UInt64 × Nat) :=
  commitSignatures.filterMap fun cs =>
    (eligibleValidatorStake cs.validator vs pool MIN_VALIDATOR_STAKE).map fun stake =>
      (cs.timestamp, stake.toNat)

/-- `compute_bft_timestamp`. -/
def computeBftTimestamp (minTimestamp : Option UInt64) : Option UInt64 :=
  if commitSignatures.isEmpty then none
  else match weightedMedian timestampLe (weightedTimestamps commitSignatures vs pool) with
    | none => none
    | some medianTs =>
      match minTimestamp with
      | some minTs => if medianTs < minTs then some minTs else some medianTs
      | none => some medianTs

/-- The stake `compute_bft_timestamp` gives a signature. -/
def timeStake (cs : CommitSignature) : Nat :=
  ((eligibleValidatorStake cs.validator vs pool MIN_VALIDATOR_STAKE).map UInt64.toNat).getD 0

/-- The signatures that count. -/
def activeSignatures : List CommitSignature :=
  commitSignatures.filter fun cs =>
    (eligibleValidatorStake cs.validator vs pool MIN_VALIDATOR_STAKE).isSome

end

section
variable (sigs : List CommitSignature) (vs : ValidatorSet) (pool : StakePool)

theorem weightedTimestamps_eq : weightedTimestamps sigs vs pool
      = (activeSignatures sigs vs pool).map fun cs => (cs.timestamp, timeStake vs pool cs) := by
  unfold weightedTimestamps activeSignatures
  induction sigs with
  | nil => rfl
  | cons cs sigs ih =>
    rw [filterMap_cons, filter_cons, ih]
    cases hstake : eligibleValidatorStake cs.validator vs pool MIN_VALIDATOR_STAKE with
    | none => rfl
    | some stake =>
      have htime : timeStake vs pool cs = stake.toNat := by
        unfold timeStake
        rw [hstake]
        rfl
      simp [htime]

/-- Signatures that do not count weigh nothing. -/
theorem sum_activeSignatures (p : CommitSignature → Bool) :
    (((activeSignatures sigs vs pool).filter p).map (timeStake vs pool)).sum
      = ((sigs.filter p).map (timeStake vs pool)).sum := by
  unfold activeSignatures
  induction sigs with
  | nil => rfl
  | cons cs sigs ih =>
    rw [filter_cons, filter_cons]
    cases hstake : eligibleValidatorStake cs.validator vs pool MIN_VALIDATOR_STAKE with
    | none =>
      have hzero : timeStake vs pool cs = 0 := by
        unfold timeStake
        rw [hstake]
        rfl
      cases hp : p cs with
      | false => simpa using ih
      | true => simpa [hzero] using ih
    | some stake =>
      cases hp : p cs with
      | false => simpa [hp] using ih
      | true => simpa [hp] using ih

end

/-- There is a BFT time if any stake has signed. -/
theorem exists_computeBftTimestamp (minTimestamp : Option UInt64)
    (hpos : 0 < (sigs.map (timeStake vs pool)).sum) :
    ∃ ts, computeBftTimestamp sigs vs pool minTimestamp = some ts := by
  have hactive : activeSignatures sigs vs pool ≠ [] := by
    intro hnil
    have hall := sum_activeSignatures sigs vs pool fun _ => true
    simp only [filter_true, hnil] at hall
    rw [← hall] at hpos
    exact absurd hpos (lt_irrefl 0)
  have hsigs : sigs.isEmpty = false := by
    cases sigs with
    | nil => exact absurd hpos (lt_irrefl 0)
    | cons cs sigs => rfl
  have hne : weightedTimestamps sigs vs pool ≠ [] := by
    rw [weightedTimestamps_eq]
    simpa using hactive
  obtain ⟨medianTs, hmedian⟩ := exists_weightedMedian timestampLe hne
  unfold computeBftTimestamp
  rw [hsigs, if_neg Bool.false_ne_true, hmedian]
  cases minTimestamp with
  | none => exact ⟨medianTs, rfl⟩
  | some minTs =>
    dsimp only
    split
    · exact ⟨minTs, rfl⟩
    · exact ⟨medianTs, rfl⟩

/-- **BFT time is between correct timestamps**, or the minimum: if the signers that are not `good`
    have less than half of the signers' stake, it lies between the timestamps of two that are. -/
theorem computeBftTimestamp_between (good : Pubkey → Bool)
    (hts : computeBftTimestamp sigs vs pool minTimestamp = some ts)
    (hminor : ((sigs.filter fun cs => !good cs.validator).map (timeStake vs pool)).sum * 2
      < (sigs.map (timeStake vs pool)).sum) :
    minTimestamp = some ts
      ∨ (∃ cs ∈ sigs, good cs.validator = true ∧ ts ≤ cs.timestamp)
        ∧ ∃ cs ∈ sigs, good cs.validator = true ∧ cs.timestamp ≤ ts := by
  unfold computeBftTimestamp at hts
  split at hts
  · exact nomatch hts
  split at hts
  · exact nomatch hts
  rename_i medianTs hmedian
  have hresult : minTimestamp = some ts ∨ medianTs = ts := by
    split at hts
    · split at hts
      · exact .inl hts
      · exact .inr (Option.some.inj hts)
    · exact .inr (Option.some.inj hts)
  rcases hresult with hmin | rfl
  · exact .inl hmin
  right
  have hall := sum_activeSignatures sigs vs pool fun _ => true
  simp only [filter_true] at hall
  have hbad := sum_activeSignatures sigs vs pool fun cs => !good cs.validator
  rw [weightedTimestamps_eq] at hmedian
  obtain ⟨⟨a, ha, hgood, hle⟩, b, hb, hgood', hle'⟩ := weightedMedian_between
    CommitSignature.timestamp (timeStake vs pool) (fun cs => !good cs.validator)
    (by rw [hall, hbad]; exact hminor) hmedian
  exact ⟨⟨a, mem_of_mem_filter ha, (Bool.not_eq_false' _).mp hgood, hle⟩,
    b, mem_of_mem_filter hb, (Bool.not_eq_false' _).mp hgood', hle'⟩

end Lichen
