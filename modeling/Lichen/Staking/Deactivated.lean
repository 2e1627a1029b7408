/-
  A slashed equivocator between the slash and the next epoch.

  The slash switches the offender off by `is_active = false`.  The same flag is recomputed as "the
  stake meets the minimum" whenever the entry is touched: by a delegator that leaves, by a
  delegation, by a top-up, and when MossStake moves its allocation away.  So the offender stays off
  exactly as long as every call that touches it leaves it below the minimum.
-/
import Lichen.Staking.Books
import Lichen.Staking.Reallocate

open Base
namespace Lichen.Staking
open StakeInfo

theorem StakeInfo.refresh_isActive_eq_false (i : StakeInfo) :
    i.refresh.isActive = false ↔ i.amount + i.delegatedAmount < MIN_VALIDATOR_STAKE := by
  rw [← Bool.not_eq_true, i.refresh_isActive_iff, Nat.not_le]

/-! ## Calls that can touch the offender -/

/-- A call by others while `v` is off, MossStake being allocated to other validators. -/
inductive OffenderCall (v : Pubkey) where
  | requestDelegationUnstake (delegator validator : Pubkey) (amount slot : Nat)
  | delegate (delegator validator : Pubkey) (amount : Nat)
  | topUpStake (validator : Pubkey) (amount : Nat)
  | rebalanceMossstakeAllocations (target : Nat) (active : List Pubkey) (slot : Nat)
    (others : v ∉ active)
  | checkpointStakingV2Validator (validator : Pubkey) (slot : Nat)

namespace OffenderCall

def call (p : StakePool) : OffenderCall v → Except String StakePool
  | requestDelegationUnstake d w amount slot => p.requestDelegationUnstake d w amount slot
  | delegate d w amount => p.delegate d w amount
  | topUpStake w amount => p.topUpStake w amount
  | rebalanceMossstakeAllocations target active slot _ =>
    p.rebalanceMossstakeAllocations target active slot
  | checkpointStakingV2Validator w slot => p.checkpointStakingV2Validator w slot

/-- The pool after a call, unchanged by an error. -/
def run (p : StakePool) (c : OffenderCall v) : StakePool := p.settleTo (c.call p)

/-- A call on `v` that leaves its stake below the minimum, or a call on another validator. -/
def Quiet (p : StakePool) : OffenderCall v → Prop
  | requestDelegationUnstake _ w amount _ => w = v → ∀ i, p.stakes.get v = some i →
    i.amount + (i.delegatedAmount - amount) < MIN_VALIDATOR_STAKE
  | delegate _ w amount => w = v → ∀ i, p.stakes.get v = some i →
    i.amount + (i.delegatedAmount + amount) < MIN_VALIDATOR_STAKE
  | topUpStake w amount => w = v → ∀ i, p.stakes.get v = some i →
    i.amount + amount + i.delegatedAmount < MIN_VALIDATOR_STAKE
  | rebalanceMossstakeAllocations _ _ _ _ => 0 < p.mossOf v → ∀ i, p.stakes.get v = some i →
    i.amount + (i.delegatedAmount - p.mossOf v) < MIN_VALIDATOR_STAKE
  | checkpointStakingV2Validator _ _ => True

end OffenderCall

namespace StakePool

variable {p p' q : StakePool}

/-- A statement about the entry of `v`, once the entry is known. -/
theorem forall_entry_iff {R : StakeInfo → Prop} (hi : p.stakes.get v = some i) :
    (∀ j, p.stakes.get v = some j → R j) ↔ R i := by
  rw [hi]
  exact ⟨fun h => h i rfl, fun h j hj => Option.some.inj hj ▸ h⟩

/-- The entry of `v` after `w`'s was written; `R` says when the new one is below the minimum. -/
theorem inactive_after_refresh {R : StakeInfo → Prop} (hi : p.stakes.get v = some i)
    (hoff : i.isActive = false) (hk : p.stakes.get w = some k)
    (hs : p'.stakes = p.stakes.put w i') (hw : i'.isActive = false ↔ R k) :
    ∃ j, p'.stakes.get v = some j
      ∧ (j.isActive = false ↔ (w = v → ∀ j, p.stakes.get v = some j → R j)) := by
  by_cases heq : w = v
  · subst heq
    rw [hs, HashMap.get_put_self, forall_entry_iff hk]
    exact ⟨i', rfl, fun hoff' _ => hw.mp hoff', fun hR => hw.mpr (hR rfl)⟩
  · rw [hs, HashMap.get_put_ne _ _ (Ne.symm heq)]
    exact ⟨i, hi, fun _ hwv => absurd hwv heq, fun _ => hoff⟩

/-- **One call.**  The offender is off afterwards exactly when the call was quiet. -/
theorem offender_call {c : OffenderCall v} (hi : p.stakes.get v = some i)
    (hoff : i.isActive = false) (hc : c.call p = .ok p') :
    ∃ j, p'.stakes.get v = some j ∧ (j.isActive = false ↔ c.Quiet p) := by
  cases c with
  | requestDelegationUnstake d w amount slot =>
    obtain ⟨-, -, -, -, k, hk, -, hp'⟩ := requestDelegationUnstake_eq_ok.mp hc
    have hs : p'.stakes = p.stakes.put w
      ({ k with delegatedAmount := k.delegatedAmount - amount } : StakeInfo).refresh := by rw [hp']
    exact inactive_after_refresh hi hoff hk hs (refresh_isActive_eq_false _)
  | delegate d w amount =>
    obtain ⟨k, hk, -, -, hp'⟩ := delegate_eq_ok hc
    have hs : p'.stakes = p.stakes.put w
      ({ k with delegatedAmount := k.delegatedAmount + amount } : StakeInfo).refresh := by rw [hp']
    exact inactive_after_refresh hi hoff hk hs (refresh_isActive_eq_false _)
  | topUpStake w amount =>
    obtain ⟨k, hk, -, -, hp'⟩ := topUpStake_eq_ok.mp hc
    have hs : p'.stakes = p.stakes.put w
      ({ k with amount := U64.saturatingAdd k.amount amount } : StakeInfo).refresh := by rw [hp']
    refine inactive_after_refresh hi hoff hk hs ?_
    rw [refresh_isActive_eq_false]
    show U64.saturatingAdd k.amount amount + k.delegatedAmount < _ ↔ _
    unfold U64.saturatingAdd U64.MAX MIN_VALIDATOR_STAKE
    omega
  | rebalanceMossstakeAllocations target active slot others =>
    have hout := rebalance_outside hc others
    by_cases hpos : 0 < p.mossOf v
    · rw [if_pos hpos, hi] at hout
      refine ⟨_, hout, ?_⟩
      show (shed (p.mossOf v) i).isActive = false ↔ (0 < p.mossOf v → _)
      rw [forall_entry_iff hi]
      have hshed : (shed (p.mossOf v) i).isActive = false
          ↔ i.amount + (i.delegatedAmount - p.mossOf v) < MIN_VALIDATOR_STAKE :=
        refresh_isActive_eq_false _
      rw [hshed]
      exact ⟨fun hlt _ => hlt, fun hlt => hlt hpos⟩
    · rw [if_neg hpos, hi] at hout
      exact ⟨i, hout, fun _ hpos' => absurd hpos' hpos, fun _ => hoff⟩
  | checkpointStakingV2Validator w slot =>
    have hop : p.checkpointStakingV2Validator w slot = .ok p' := hc
    grind [checkpointStakingV2Validator, checkpoint_stakes, OffenderCall.Quiet]

/-! ## Runs after a slash -/

/-- The slash leaves the offender switched off. -/
theorem slash_deactivates
    (h : p.applyStakingV2EquivocationSlash v offense percent execution = .ok (settlement, q)) :
    ∃ i, q.stakes.get v = some i ∧ i.isActive = false := by
  unfold applyStakingV2EquivocationSlash at h
  simp only [ok_rules, Prod.mk.injEq] at h
  obtain ⟨-, -, -, -, s, -, snapshot, -, exposure, -, -, progress, -, settled, hsettle, u, hu, -, -,
    rfl⟩ := h
  have hoff : ∃ i, settled.stakes.get v = some i ∧ i.isActive = false := by
    unfold settleSlash at hsettle
    simp only [ok_rules] at hsettle
    obtain ⟨i, -, t, -, sl, -, rfl⟩ := hsettle
    exact ⟨{ i with isActive := false }, HashMap.get_put_self _ _ _, rfl⟩
  have hsame : u.stakes = settled.stakes := by
    unfold checkpointOffender at hu
    split at hu
    · exact checkpoint_stakes hu
    · rw [Except.ok.inj hu]
  rw [hsame]
  exact hoff

end StakePool

/-- The pools that calls lead to of which the accepted ones are quiet. -/
inductive OffenderRun (v : Pubkey) (p : StakePool) : StakePool → Prop
  | start : OffenderRun v p p
  | call {q : StakePool} (c : OffenderCall v) (run : OffenderRun v p q)
    (quiet : ∀ q', c.call q = .ok q' → c.Quiet q) : OffenderRun v p (c.run q)

theorem OffenderRun.inactive {v : Pubkey}
    (hp : ∃ i, p.stakes.get v = some i ∧ i.isActive = false) (h : OffenderRun v p q) :
    ∃ i, q.stakes.get v = some i ∧ i.isActive = false := by
  induction h with
  | start => exact hp
  | @call q c _ hquiet ih =>
    obtain ⟨i, hi, hoff⟩ := ih
    unfold OffenderCall.run
    cases hc : c.call q with
    | error e => exact ⟨i, hi, hoff⟩
    | ok q' =>
      obtain ⟨j, hj, hiff⟩ := StakePool.offender_call hi hoff hc
      exact ⟨j, hj, hiff.mpr (hquiet q' hc)⟩

/-- **A slashed equivocator stays off** in every pool that quiet calls reach, and the first accepted
    call that is not quiet switches it on again. -/
theorem slashed_offender_stays_inactive {p q r : StakePool} {v : Pubkey}
    {offense percent execution : Nat} {settlement : StakingV2SlashSettlement}
    (hslash : p.applyStakingV2EquivocationSlash v offense percent execution = .ok (settlement, q))
    (hrun : OffenderRun v q r) :
    (∃ i, r.stakes.get v = some i ∧ i.isActive = false) ∧
    ∀ (c : OffenderCall v) (r' : StakePool), c.call r = .ok r' →
      ∃ i, r'.stakes.get v = some i ∧ (i.isActive = false ↔ c.Quiet r) := by
  obtain ⟨i, hi, hoff⟩ := hrun.inactive (StakePool.slash_deactivates hslash)
  exact ⟨⟨i, hi, hoff⟩, fun c r' hc => StakePool.offender_call hi hoff hc⟩

section

/-- Two validators of 100 000 LICN each and a delegator of ten spores, in their first epoch. -/
private def opened : StakePool :=
  let p := [PoolCall.stake ⟨1⟩ 100000000000000 0, .stake ⟨2⟩ 100000000000000 0,
    .delegate ⟨3⟩ ⟨1⟩ 10 key_ne].foldl PoolCall.run StakePool.new
  p.settleTo (p.initializeStakingV2 0 [⟨1⟩, ⟨2⟩])

private def slashedAt (percent : Nat) : StakePool :=
  opened.settleTo ((opened.applyStakingV2EquivocationSlash ⟨1⟩ 1 percent 2).map Prod.snd)

private theorem slash_opened (percent : Nat)
    (h : (opened.applyStakingV2EquivocationSlash ⟨1⟩ 1 percent 2).isOk = true) :
    ∃ s, opened.applyStakingV2EquivocationSlash ⟨1⟩ 1 percent 2 = .ok (s, slashedAt percent) := by
  obtain ⟨r, hr⟩ := exists_of_isOk h
  unfold slashedAt
  rw [hr]
  exact ⟨r.1, rfl⟩

/-- Half of its stake burned, the offender stays off while its delegator leaves. -/
theorem slashed_offender_stays_inactive_below_minimum :
    (∃ s, opened.applyStakingV2EquivocationSlash ⟨1⟩ 1 50 2 = .ok (s, slashedAt 50)) ∧
    ∃ i, (OffenderCall.run (v := ⟨1⟩) (slashedAt 50)
      (.requestDelegationUnstake ⟨3⟩ ⟨1⟩ 5 3)).stakes.get ⟨1⟩ = some i ∧ i.isActive = false := by
  obtain ⟨s, hs⟩ := slash_opened 50 (by decide +kernel)
  have hquiet : (OffenderCall.requestDelegationUnstake (v := ⟨1⟩) ⟨3⟩ ⟨1⟩ 5 3).Quiet
      (slashedAt 50) := by
    intro _ i hi
    have hget : ((slashedAt 50).stakes.get ⟨1⟩).map
        (fun i => decide (i.amount + (i.delegatedAmount - 5) < MIN_VALIDATOR_STAKE)) = some true := by
      decide +kernel
    rw [hi] at hget
    exact of_decide_eq_true (Option.some.inj hget)
  exact ⟨⟨s, hs⟩, (slashed_offender_stays_inactive hs (.call _ .start fun _ _ => hquiet)).1⟩

/-- A tenth of its stake burned: the offender is off, its delegator takes five of its remaining
    spores out, and it is active again; the pool passes the checkpoint that follows. -/
theorem requestDelegationUnstake_reactivates_offender :
    let before := slashedAt 10
    let after := OffenderCall.run (v := ⟨1⟩) before (.requestDelegationUnstake ⟨3⟩ ⟨1⟩ 5 3)
    opened.validateV2Invariants = .ok ()
      ∧ (opened.applyStakingV2EquivocationSlash ⟨1⟩ 1 10 2).isOk = true
      ∧ (before.stakes.get ⟨1⟩).map StakeInfo.isActive = some false
      ∧ (after.stakes.get ⟨1⟩).map StakeInfo.isActive = some true
      ∧ (after.checkpointStakingV2Validator ⟨1⟩ 3).isOk = true := by
  decide +kernel

end
end Lichen.Staking
