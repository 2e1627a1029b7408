/-
  One validator loses stake inside an epoch.

  A slash and an exit have the same effect on what the epoch looks at: the entry of one validator is
  `loss` lighter, everybody else is as before (`Lighter`).  The epoch's stake falls by the same
  amount.  The limit of the validator itself falls by at most its own loss, so it stays within it;
  the limit of the others falls too, and nothing about them has changed.  `Lighter.checkpoint_iff`
  is exact.
-/
import Lichen.Staking.Checkpoint

open Base HashMap
namespace Lichen.Staking

/-- Losing `loss` of the stake lowers the limit by at most that. -/
theorem saturationLimit_sub (h : loss ≤ stake) (n : Nat) :
    saturationLimit stake n ≤ saturationLimit (stake - loss) n + loss := by
  have hbps := saturationBps_le n
  have hsplit : stake * saturationBps n
      = (stake - loss) * saturationBps n + loss * saturationBps n := by
    rw [← add_mul, Nat.sub_add_cancel h]
  have hloss : loss * saturationBps n ≤ loss * 10000 := Nat.mul_le_mul_left loss hbps
  unfold saturationLimit
  omega

namespace StakePool

variable {p u : StakePool} {v w : Pubkey} {i : StakeInfo} {loss : Nat}

/-- Validity does not look at the counters and the epoch. -/
theorem Valid.congr {p' : StakePool} (h : p.Valid) (hs : p'.stakes = p.stakes)
    (ht : p'.totalStaked = p.totalStaked) (hr : p'.unstakeRequests = p.unstakeRequests)
    (hd : p'.delegations = p.delegations)
    (hf : p'.fingerprintRegistry = p.fingerprintRegistry) : p'.Valid := by
  obtain ⟨stakes, total, slashed, requests, delegations, registry, grants, epoch⟩ := p'
  obtain rfl : stakes = p.stakes := hs
  obtain rfl : total = p.totalStaked := ht
  obtain rfl : requests = p.unstakeRequests := hr
  obtain rfl : delegations = p.delegations := hd
  obtain rfl : registry = p.fingerprintRegistry := hf
  exact ⟨⟨h.totals, h.delegated, h.known, h.active⟩, ⟨h.owned, h.carried⟩, h.fits, h.keyed, h.bonded,
    h.nonempty, h.entries, h.requests⟩

/-- No accumulator of the epoch is past `slot`. -/
theorem checkpoints_le (s : StakingV2EpochState) (slot : Nat) (hall : (s.validators.toList.all fun e =>
      decide (e.2.selfBond.lastCheckpointSlot ≤ slot) && e.2.delegations.toList.all fun d =>
        decide (d.2.lastCheckpointSlot ≤ slot)) = true) (w a) (ha : s.validators.get w = some a) :
    a.selfBond.lastCheckpointSlot ≤ slot
      ∧ ∀ d y, a.delegations.get d = some y → y.lastCheckpointSlot ≤ slot := by
  have hw := List.all_eq_true.mp hall (w, a) (HashMap.mem_toList.mpr ha)
  rw [Bool.and_eq_true, decide_eq_true_eq] at hw
  refine ⟨hw.1, fun d y hy => ?_⟩
  exact of_decide_eq_true (List.all_eq_true.mp hw.2 (d, y) (HashMap.mem_toList.mpr hy))

/-- The epoch of a pool in which only `v` has changed is in order after the checkpoint of `v` exactly
    when the accumulators of `v` hold and everybody is within the limit. -/
theorem checkpoint_iff_saturated (hepoch : p.EpochOk s) (hu : u.Valid)
    (hus : u.stakingV2State = some s)
    (hstakes : ∀ w, w ≠ v → u.stakes.get w = p.stakes.get w)
    (hmaps : ∀ w, w ≠ v → u.delegations.get w = p.delegations.get w)
    (hi : p.stakes.get v = some i) (hj : u.stakes.get v = some j)
    (hblocks : j.blocksProduced = i.blocksProduced)
    (ha : s.validators.get v = some a) (hlast : a.selfBond.lastCheckpointSlot ≤ slot) :
    (∃ q, u.checkpointStakingV2ValidatorInner v slot = .ok q ∧ q.Valid ∧ q.stakes = u.stakes
      ∧ ∀ s', q.stakingV2State = some s' → q.EpochOk s') ↔
      a.Fits slot ∧ ∀ w b, s.validators.get w = some b →
        u.effective w ≤ saturationLimit (u.epochStake s) s.validators.size := by
  have hstart : s.epochStartSlot ≤ slot := le_trans (hepoch.current v a ha).fresh hlast
  have hepochOk : ∀ {a'}, u.Checkpointed s.epochStartSlot v slot a a' →
      ((u.withAccounting s v a').EpochOk { s with validators := s.validators.put v a' } ↔
        ∀ w b, s.validators.get w = some b →
          u.effective w ≤ saturationLimit (u.epochStake s) s.validators.size) := by
    intro a' hcp
    refine epochOk_checkpoints (l := [v]) hepoch hu hstart (fun w hw => ?_) (fun w b k hb hk => ?_)
      ⟨rfl, fun w hw => get_put_ne _ _ (by simpa using hw), fun w hw => ?_⟩
    · have hne : w ≠ v := by simpa using hw
      exact ⟨hstakes w hne, hmaps w hne⟩
    · obtain ⟨i₀, hi₀, -, hle⟩ := (hepoch.current w b hb).bond
      by_cases hw : w = v
      · subst hw
        rw [hj] at hk
        rw [hi] at hi₀
        cases hk
        cases hi₀
        omega
      · rw [hstakes w hw, hi₀] at hk
        cases hk
        exact hle
    · obtain rfl := List.mem_singleton.mp hw
      exact ⟨a, a', ha, get_put_self _ _ _, hcp⟩
  constructor
  · rintro ⟨q, hq, -, -, hok⟩
    obtain ⟨-, a₁, a', ha₁, hfits, hcp, rfl⟩ := checkpointInner_spec hus hq
    rw [ha] at ha₁
    cases ha₁
    exact ⟨hfits, (hepochOk hcp).mp (hok _ rfl)⟩
  · rintro ⟨hfits, hsat⟩
    obtain ⟨q, hq⟩ := exists_checkpointInner hus hstart ha hj hfits
    obtain ⟨-, a₁, a', ha₁, -, hcp, rfl⟩ := checkpointInner_spec hus hq
    rw [ha] at ha₁
    cases ha₁
    refine ⟨_, hq, hu.congr rfl rfl rfl rfl rfl, rfl, fun s' hs' => ?_⟩
    cases hs'
    exact (hepochOk hcp).mpr hsat

/-- The pool `u` is `p` with `loss` less stake on `v`. -/
structure Lighter (p u : StakePool) (v : Pubkey) (loss : Nat) : Prop where
  valid : u.Valid
  entry : ∀ i, p.stakes.get v = some i → ∃ i', u.stakes.get v = some i'
    ∧ i'.blocksProduced = i.blocksProduced
    ∧ i'.amount + i'.delegatedAmount + loss = i.amount + i.delegatedAmount
  epoch : u.stakingV2State = p.stakingV2State
  stakes : ∀ w, w ≠ v → u.stakes.get w = p.stakes.get w
  maps : ∀ w, w ≠ v → u.delegations.get w = p.delegations.get w

section
variable (h : Lighter p u v loss)
include h

theorem Lighter.effective_self (hp : p.Valid)
    (hi : p.stakes.get v = some i) : u.effective v + loss = p.effective v := by
  obtain ⟨j, hj, -, hsum⟩ := h.entry i hi
  rw [h.valid.effective_eq hj, hp.effective_eq hi]
  exact hsum

theorem Lighter.effective_other (hw : w ≠ v) : u.effective w = p.effective w := by
  unfold effective HashMap.share
  rw [h.stakes w hw]

theorem Lighter.epochStake (hp : p.Valid) (hi : p.stakes.get v = some i)
    (ha : s.validators.get v = some a) : u.epochStake s + loss = p.epochStake s := by
  have hupd : s.validators.sumBy (fun w _ => u.effective w) + _ = _ :=
    HashMap.sumBy_update s.validators (g := fun w _ => p.effective w) (k := v)
      fun w _ hw => h.effective_other hw
  rw [HashMap.share_of_get ha, HashMap.share_of_get ha] at hupd
  have hself := h.effective_self hp hi
  unfold StakePool.epochStake
  omega

/-- A cap that holds for the lighter validator holds for all. -/
theorem Lighter.capped (hcap : p.Capped) (hv : ∀ i, u.stakes.get v = some i → i.isActive = true →
      i.amount + i.delegatedAmount ≤ MAX_VALIDATOR_EFFECTIVE_STAKE_MULTIPLIER * i.amount) :
    u.Capped := by
  grind [stakes, Capped]

/-- A validator outside the epoch can get lighter without anyone noticing. -/
theorem Lighter.epochOk (hepoch : p.EpochOk s) (ha : s.validators.get v = none) : u.EpochOk s := by
  have hne : ∀ w a, s.validators.get w = some a → w ≠ v := by
    rintro w a hw rfl
    rw [ha] at hw
    simp at hw
  grind [EpochOk.frame, maps, stakes]

/-- **The checkpoint of a lighter validator.**  Its epoch is in order again exactly when its
    accumulators hold and the other validators are within the limit that is left. -/
theorem Lighter.checkpoint_iff (hp : p.Valid) (hepoch : p.EpochOk s)
    (hs : p.stakingV2State = some s) (hi : p.stakes.get v = some i)
    (ha : s.validators.get v = some a) (hlast : a.selfBond.lastCheckpointSlot ≤ slot) :
    (∃ q, u.checkpointStakingV2ValidatorInner v slot = .ok q ∧ q.Valid ∧ q.stakes = u.stakes
      ∧ ∀ s', q.stakingV2State = some s' → q.EpochOk s') ↔
      a.Fits slot ∧ ∀ w b, w ≠ v → s.validators.get w = some b →
        p.effective w ≤ saturationLimit (p.epochStake s - loss) s.validators.size := by
  obtain ⟨j, hj, hblocks, -⟩ := h.entry i hi
  have hstake := h.epochStake hp hi ha
  have hself := h.effective_self hp hi
  have hlimit : p.epochStake s - loss = u.epochStake s := by omega
  -- the limit of the validator itself falls by at most its loss
  have hown : u.effective v ≤ saturationLimit (u.epochStake s) s.validators.size := by
    have hold := hepoch.saturated v a ha
    have hsub : saturationLimit (p.epochStake s) s.validators.size
        ≤ saturationLimit (p.epochStake s - loss) s.validators.size + loss :=
      saturationLimit_sub (by omega) _
    rw [hlimit] at hsub
    omega
  rw [checkpoint_iff_saturated hepoch h.valid (h.epoch.trans hs) h.stakes h.maps hi hj hblocks ha
    hlast, hlimit]
  refine and_congr_right fun _ => ⟨fun hsat w b hw hb => ?_, fun hroom w b hb => ?_⟩
  · rw [← h.effective_other hw]
    exact hsat w b hb
  · by_cases hw : w = v
    · exact hw ▸ hown
    · rw [h.effective_other hw]
      exact hroom w b hw hb

end
end StakePool
end Lichen.Staking
