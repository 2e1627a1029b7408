/-
  Rolling an epoch over.

  `advance_staking_v2_epoch` opens the next epoch over a list of validators, from the pool as it is.
  Everything that the new state is checked for follows from its making — the exposure snapshots that
  are kept, the commission schedules, the accumulators — except one thing: the listed validators have
  to be within the saturation limit of what *they* have together.  `advance_iff` says that this, and
  the range of the counters, is all that a roll-over of a settled epoch depends on.
-/
import Lichen.Staking.Lighter
import Lichen.Staking.Opening

open Base HashMap
namespace Lichen.Staking
open Option

/-! ## Commission schedules -/

namespace ValidatorCommissionState

theorem validate_new (epoch : Nat) : (new epoch).validate = .ok () := by
  have hbps : ¬ MAX_VALIDATOR_COMMISSION_BPS < DEFAULT_VALIDATOR_COMMISSION_BPS := by decide
  unfold validate new
  grind

theorem validate_activate {c : ValidatorCommissionState} (h : c.validate = .ok ()) (epoch : Nat) :
    (c.activate epoch).validate = .ok () := by
  unfold activate
  cases hp : c.pending with
  | none => exact h
  | some pending =>
    show (if pending.activationEpoch ≤ epoch then _ else c).validate = _
    split
    · unfold validate at h ⊢
      grind
    · exact h

end ValidatorCommissionState

namespace StakePool

variable {p q : StakePool} {v : Pubkey} {i : StakeInfo} {s : StakingV2EpochState}
  {l : List Pubkey} {start bps epoch : Nat}

/-! ## What an opened validator exposes -/

/-- An active validator that meets the minimum has a bond of its own. -/
theorem Eligible.bond_pos (h : p.Eligible v i) (hp : p.Valid) (hcap : p.Capped) : i.amount ≠ 0 := by
  have hle := hcap v i h.entry h.active
  have hmin := hp.active v i h.entry h.active
  unfold MIN_VALIDATOR_STAKE at hmin
  unfold MAX_VALIDATOR_EFFECTIVE_STAKE_MULTIPLIER at hle
  omega

theorem Valid.exposure_delegations (h : p.Valid) (d : Pubkey) :
    (slashExposure (p.opening v start bps i)).delegations.get d = (p.delegationsOf v).get d := by
  unfold slashExposure opening EpochStakeAccumulator.new
  rw [get_mapValues, get_retain, get_mapValues]
  cases hd : (p.delegationsOf v).get d with
  | none => rfl
  | some n => simp [(h.delegationsOf_entry hd).2]

theorem Valid.exposure_total (h : p.Valid) (hi : p.stakes.get v = some i) :
    (slashExposure (p.opening v start bps i)).total = .ok i.totalStake := by
  have hsum : (slashExposure (p.opening v start bps i)).delegations.sumBy (fun _ n => n)
      = p.delegatedTo v := HashMap.sumBy_congr_get fun d => h.exposure_delegations d
  have hlt := h.effective_lt hi
  have hdel := h.delegated v i hi
  have hbond : (slashExposure (p.opening v start bps i)).selfBond = i.amount := rfl
  rw [ValidatorSlashExposure.total_eq_ok (by omega), hsum, hbond, h.totalStake_eq hi, hdel]
  exact ⟨by omega, rfl⟩

theorem Valid.exposure_checked (h : p.Valid) (hcap : p.Capped) (helig : p.Eligible v i) :
    checkExposure epoch (v, slashExposure (p.opening v start bps i)) = .ok () := by
  rw [checkExposure_eq_ok]
  refine ⟨helig.bond_pos h hcap, ?_, _, h.exposure_total helig.entry⟩
  intro d n hd
  rw [h.exposure_delegations] at hd
  obtain ⟨hne, hpos⟩ := h.delegationsOf_entry hd
  exact ⟨hne, Nat.ne_of_gt hpos⟩

theorem buildSlashExposureSnapshot_eq_ok :
    buildSlashExposureSnapshot epoch start validators = .ok x ↔
      (∀ v a, validators.get v = some a → (slashExposure a).total = .ok a.consensusPower)
      ∧ x = ⟨epoch, start, validators.mapValues fun _ a => slashExposure a⟩ := by
  unfold buildSlashExposureSnapshot
  simp only [ok_rules, forEach_eq_ok, forall_mem_toList, not_not, ne_eq, exists_eq_right]
  exact and_congr_right fun _ => eq_comm

/-- The accumulators of an opened validator hold what the pool has. -/
theorem Valid.current_opening (h : p.Valid) (hi : p.stakes.get v = some i) :
    p.Current start v (p.opening v start bps i) := by
  refine ⟨⟨i, hi, rfl, le_refl _⟩, le_refl _, ?_, ?_⟩
  · intro d x hx
    unfold opening at hx
    rw [get_mapValues, map_eq_some_iff] at hx
    obtain ⟨n, hn, rfl⟩ := hx
    refine ⟨(h.delegationsOf_entry hn).1, le_refl _, ?_⟩
    rw [delegation_eq, hn]
    rfl
  · intro d n hn
    unfold opening
    rw [get_mapValues, hn]
    exact ⟨_, rfl, rfl⟩

/-! ## The next state -/

/-- The state that a roll-over writes. -/
def nextState (s : StakingV2EpochState) (epochEnd : Nat)
    (opened : HashMap Pubkey ValidatorEpochAccounting × HashMap Pubkey ValidatorCommissionState)
    (exposure : EpochSlashExposureSnapshot) : StakingV2EpochState where
  version := STAKING_V2_STATE_VERSION
  activationSlot := s.activationSlot
  currentEpoch := s.currentEpoch + 1
  epochStartSlot := epochEnd
  validators := opened.1
  commissions := opened.2
  lastSettledEpoch := some s.currentEpoch
  slashExposureSnapshots := (s.slashExposureSnapshots.put (s.currentEpoch + 1) exposure).retain
    fun epoch _ => decide (s.currentEpoch + 1 - SLASHING_V2_EVIDENCE_WINDOW_EPOCHS ≤ epoch)

/-- The schedules that a roll-over starts from. -/
def activatedCommissions (s : StakingV2EpochState) : HashMap Pubkey ValidatorCommissionState :=
  s.commissions.mapValues fun _ c => c.activate (s.currentEpoch + 1)

theorem advance_eq_ok (hp : p.validateV2Invariants = .ok ()) (hs : p.stakingV2State = some s) :
    p.advanceStakingV2Epoch epochEnd l = .ok q ↔
      s.lastSettledEpoch = some s.currentEpoch ∧ epochEnd = s.epochStartSlot + SLOTS_PER_EPOCH
      ∧ epochEnd < 2 ^ 64 ∧ s.currentEpoch + 1 < 2 ^ 64
      ∧ ∃ opened, p.openAccounting (s.currentEpoch + 1) epochEnd
          (fun validator => s!"duplicate next-epoch validator {validator}") (activatedCommissions s) l
          = .ok opened
        ∧ ¬ opened.1.isEmpty = true
        ∧ ∃ x, buildSlashExposureSnapshot (s.currentEpoch + 1) epochEnd opened.1 = .ok x
          ∧ q = { p with stakingV2State := some (nextState s epochEnd opened x) }
          ∧ q.validateV2Invariants = .ok () := by
  unfold advanceStakingV2Epoch
  simp only [hp, hs, ok_rules, not_not, ne_eq, Option.some.injEq, exists_eq_left']
  constructor
  · rintro ⟨-, hset, e, ⟨hlt, rfl⟩, rfl, n, ⟨hn, rfl⟩, opened, hopen, hne, x, hx, hval, rfl⟩
    exact ⟨hset, rfl, hlt, hn, opened, hopen, hne, x, hx, rfl, hval⟩
  · rintro ⟨hset, rfl, hlt, hn, opened, hopen, hne, x, hx, rfl, hval⟩
    exact ⟨trivial, hset, _, ⟨hlt, rfl⟩, rfl, _, ⟨hn, rfl⟩, opened, hopen, hne, x, hx, hval, rfl⟩

/-- The slot at which an epoch ends is the start of the next one. -/
theorem epochStartSlot_succ (h : epochStartSlot epoch + SLOTS_PER_EPOCH < 2 ^ 64) :
    epochStartSlot (epoch + 1) = epochStartSlot epoch + SLOTS_PER_EPOCH := by
  unfold epochStartSlot at h ⊢
  unfold SLOTS_PER_EPOCH at h ⊢
  omega

/-- What the validators of a list have together. -/
def stakeOf (p : StakePool) (l : List Pubkey) : Nat := (l.map p.effective).sum

section
variable {commissions : HashMap Pubkey ValidatorCommissionState}

section
variable {opened} (h : p.Opened epoch start l (∅, commissions) opened)
include h

theorem Opened.epochStake (hv : s.validators = opened.1) : p.epochStake s = p.stakeOf l := by
  unfold StakePool.epochStake stakeOf
  rw [hv]
  exact sumBy_of_keys h.distinct h.isSome_iff p.effective

end

/-- The schedules of the next epoch pass their own check. -/
theorem EpochOk.next_commissions {opened} (hok : p.EpochOk s)
    (h : p.Opened epoch start l (∅, activatedCommissions s) opened) :
    ∀ v c, opened.2.get v = some c → c.validate = .ok () := by
  have hold : ∀ v c, (activatedCommissions s).get v = some c → c.validate = .ok () := by
    intro v c hc
    unfold activatedCommissions at hc
    rw [get_mapValues, map_eq_some_iff] at hc
    obtain ⟨c₀, hc₀, rfl⟩ := hc
    exact ValidatorCommissionState.validate_activate (hok.commissions v c₀ hc₀) _
  intro v c hc
  rw [h.schedules] at hc
  split at hc
  · cases hc
    unfold scheduleOf
    cases hget : (activatedCommissions s).get v with
    | none => exact ValidatorCommissionState.validate_new epoch
    | some c₀ => exact hold v c₀ hget
  · exact hold v c hc

theorem nextState_snapshot {opened}
    (hy : (nextState s epochEnd opened x).slashExposureSnapshots.get e = some y) :
    s.currentEpoch + 1 - SLASHING_V2_EVIDENCE_WINDOW_EPOCHS ≤ e
      ∧ ((e = s.currentEpoch + 1 ∧ y = x) ∨ s.slashExposureSnapshots.get e = some y) := by
  unfold nextState at hy
  rw [get_retain, filter_eq_some_iff, decide_eq_true_eq] at hy
  grind

/-- The frozen part of an opened validator. -/
theorem Opened.frozen {opened} (hp : p.Valid)
    (h : p.Opened epoch start l (∅, activatedCommissions s) opened) (hs' : s'.commissions = opened.2)
    (hx : x.validators = opened.1.mapValues fun _ a => slashExposure a)
    (ha : opened.1.get v = some a) : a.Frozen s' x v := by
  obtain ⟨hv, i, hi, rfl⟩ := h.get ha
  have hmin : MIN_VALIDATOR_STAKE ≤ i.totalStake := of_decide_eq_true hi.minimum
  have hpos : (p.opening v start (scheduleOf (activatedCommissions s) epoch v).currentBps
      i).consensusPower ≠ 0 := by
    show i.totalStake ≠ 0
    unfold MIN_VALIDATOR_STAKE at hmin
    omega
  have hexposed : x.validators.get v = some (slashExposure (p.opening v start
      (scheduleOf (activatedCommissions s) epoch v).currentBps i)) := by
    rw [hx, get_mapValues, ha]
    rfl
  refine ⟨rfl, Nat.succ_ne_zero _, hpos, ⟨_, hexposed, hp.exposure_total hi.entry⟩, ?_⟩
  rw [hs', h.schedules, if_pos hv]
  exact ⟨_, rfl, rfl⟩

/-- **The next state is in order exactly when its validators are within their limit.** -/
theorem EpochOk.next_iff {opened} (hp : p.Valid) (hcap : p.Capped) (hok : p.EpochOk s)
    (hend : epochEnd = s.epochStartSlot + SLOTS_PER_EPOCH) (hfit : epochEnd < 2 ^ 64)
    (h : p.Opened (s.currentEpoch + 1) epochEnd l (∅, activatedCommissions s) opened)
    (hne : l ≠ [])
    (hx : x = ⟨s.currentEpoch + 1, epochEnd, opened.1.mapValues fun _ a => slashExposure a⟩)
    (hq : q.stakes = p.stakes) (hqd : q.delegations = p.delegations) :
    q.EpochOk (nextState s epochEnd opened x) ↔
      ∀ v ∈ l, p.effective v ≤ saturationLimit (p.stakeOf l) l.length := by
  have hstart : s.epochStartSlot = epochStartSlot s.currentEpoch := by
    have hhead := hok.header
    unfold checkEpochHeader at hhead
    simp only [ok_rules, not_not, ne_eq] at hhead
    exact hhead.2.2.1
  have hnext : epochStartSlot (s.currentEpoch + 1) = epochEnd := by
    rw [hend, hstart] at hfit ⊢
    exact epochStartSlot_succ hfit
  have hsize : (nextState s epochEnd opened x).validators.size = l.length :=
    size_of_keys h.distinct h.isSome_iff
  have heff : q.effective = p.effective := by
    unfold effective
    rw [hq]
  have hstake : q.epochStake (nextState s epochEnd opened x) = p.stakeOf l := by
    rw [← h.epochStake (s := nextState s epochEnd opened x) rfl]
    unfold epochStake
    rw [heff]
  constructor
  · intro hok' v hv
    obtain ⟨a, ha⟩ := isSome_iff_exists.mp ((h.isSome_iff v).mpr hv)
    have hsat := hok'.saturated v a ha
    rwa [hsize, hstake, heff] at hsat
  · intro hsat
    refine ⟨?_, hok.next_commissions h, ?_, ?_, ⟨x, ?_, ?_, ?_⟩, ?_, ?_, ?_, ?_⟩
    · have hhead := hok.header
      unfold checkEpochHeader at hhead ⊢
      simp only [ok_rules, not_not, ne_eq, not_lt] at hhead ⊢
      obtain ⟨-, halign, -, hact, -⟩ := hhead
      refine ⟨rfl, halign, hnext.symm, ?_, ?_⟩
      · show s.activationSlot ≤ epochEnd
        omega
      · show ¬ decide (s.currentEpoch + 1 < s.currentEpoch) = true
        simp
    -- at most the window's epochs are left
    · refine size_le_of_keys (l := [s.currentEpoch - 1, s.currentEpoch, s.currentEpoch + 1]) ?_
      intro e y hy
      obtain ⟨hle, hcase⟩ := nextState_snapshot hy
      have hub : e ≤ s.currentEpoch + 1 := by
        rcases hcase with ⟨rfl, -⟩ | hold
        · exact le_refl _
        · obtain ⟨-, -, hrange, -⟩ := checkSnapshot_eq_ok.mp (hok.snapshots e y hold)
          omega
      grind [SLASHING_V2_EVIDENCE_WINDOW_EPOCHS]
    · intro e y hy
      obtain ⟨hle, hcase⟩ := nextState_snapshot hy
      rw [checkSnapshot_eq_ok]
      rcases hcase with ⟨rfl, rfl⟩ | hold
      · refine ⟨by rw [hx], by rw [hx]; exact hnext.symm, ⟨hle, le_refl _⟩, ?_⟩
        intro v e hve
        rw [hx, get_mapValues, map_eq_some_iff] at hve
        obtain ⟨a, ha, rfl⟩ := hve
        obtain ⟨-, i, hi, rfl⟩ := h.get ha
        exact hp.exposure_checked hcap hi
      · obtain ⟨hepoch, hslot, hrange, hall⟩ := checkSnapshot_eq_ok.mp (hok.snapshots e y hold)
        refine ⟨hepoch, hslot, ⟨hle, ?_⟩, hall⟩
        show e ≤ s.currentEpoch + 1
        omega
    · show (HashMap.retain _ _).get (s.currentEpoch + 1) = some x
      rw [get_retain, get_put_self]
      simp
    · grind [size_eq_sumBy, sumBy_mapValues, nextState]
    · exact fun v a ha => h.frozen hp rfl (by rw [hx]) ha
    · grind
    · intro v a ha
      obtain ⟨-, i, hi, rfl⟩ := h.get ha
      exact (hp.current_opening hi.entry).frame (by rw [hq]) (by rw [hqd])
    · rw [hstake, ← h.epochStake (s := nextState s epochEnd opened x) rfl]
      exact lt_of_le_of_lt (hp.epochStake_le _) hp.fits
    · intro v a ha
      rw [hsize, hstake, heff]
      exact hsat v (h.get ha).1

end

/-! ## The roll-over -/

/-- A list of validators that an epoch can be opened with. -/
structure Electable (p : StakePool) (l : List Pubkey) : Prop where
  occupied : l ≠ []
  distinct : l.Nodup
  eligible : ∀ v ∈ l, ∃ i, p.Eligible v i

/-- A pool whose epoch is settled. -/
structure EpochSettled (p : StakePool) (s : StakingV2EpochState) : Prop where
  valid : p.validateV2Invariants = .ok ()
  epoch : p.stakingV2State = some s
  settled : s.lastSettledEpoch = some s.currentEpoch

/-- What a roll-over leaves. -/
structure Advanced (p : StakePool) (l : List Pubkey) (epochEnd : Nat) (q : StakePool)
    (s' : StakingV2EpochState) : Prop where
  pool : q = { p with stakingV2State := some s' }
  valid : q.validateV2Invariants = .ok ()
  start : s'.epochStartSlot = epochEnd
  listed : ∀ v ∈ l, ∃ i bps, p.Eligible v i
    ∧ s'.validators.get v = some (p.opening v epochEnd bps i)
  unlisted : ∀ v, v ∉ l → s'.validators.get v = none

theorem advance_spec (hp : p.validateV2Invariants = .ok ()) (hs : p.stakingV2State = some s)
    (h : p.advanceStakingV2Epoch epochEnd l = .ok q) : ∃ s', p.Advanced l epochEnd q s' := by
  obtain ⟨-, -, -, -, opened, hopen, -, x, -, rfl, hval⟩ := (advance_eq_ok hp hs).mp h
  have hopened := openAccounting_spec hopen
  refine ⟨_, rfl, hval, rfl, ?_, ?_⟩
  · intro v hv
    obtain ⟨a, ha⟩ := isSome_iff_exists.mp ((hopened.isSome_iff v).mpr hv)
    obtain ⟨-, i, hi, rfl⟩ := hopened.get ha
    exact ⟨i, _, hi, ha⟩
  · intro v hv
    have hnone := (hopened.isSome_iff v).not.mpr hv
    exact not_isSome_iff_eq_none.mp hnone

/-- **A settled epoch rolls over** exactly when the counters hold and the listed validators are
    within the limit of what they have together. -/
theorem advance_iff (hp : p.EpochSettled s) (hl : p.Electable l)
    (hend : epochEnd = s.epochStartSlot + SLOTS_PER_EPOCH) :
    (∃ q, p.advanceStakingV2Epoch epochEnd l = .ok q) ↔
      epochEnd < 2 ^ 64 ∧ s.currentEpoch + 1 < 2 ^ 64
      ∧ ∀ v ∈ l, p.effective v ≤ saturationLimit (p.stakeOf l) l.length := by
  obtain ⟨hvalid, hcap, hepoch⟩ := validateV2Invariants_eq_ok.mp hp.valid
  have hok := hepoch s hp.epoch
  constructor
  · rintro ⟨q, hq⟩
    obtain ⟨-, -, hfit, hnum, opened, hopen, -, x, hx, rfl, hval⟩ :=
      (advance_eq_ok hp.valid hp.epoch).mp hq
    obtain ⟨-, hx⟩ := buildSlashExposureSnapshot_eq_ok.mp hx
    obtain ⟨-, -, hok'⟩ := validateV2Invariants_eq_ok.mp hval
    have hiff := hok.next_iff (q := { p with stakingV2State := some (nextState s epochEnd opened x) })
      hvalid hcap hend hfit (openAccounting_spec hopen) hl.occupied hx rfl rfl
    exact ⟨hfit, hnum, hiff.mp (hok' _ rfl)⟩
  · rintro ⟨hfit, hnum, hsat⟩
    have hex : ∃ opened, p.openAccounting (s.currentEpoch + 1) epochEnd _ _ l = .ok opened :=
      exists_openAccounting hl.distinct hl.eligible
        (fun validator => s!"duplicate next-epoch validator {validator}") (activatedCommissions s)
    obtain ⟨opened, hopen⟩ := hex
    have hopened := openAccounting_spec hopen
    have hne : ¬ opened.1.isEmpty = true := by
      intro hempty
      obtain ⟨v, hv⟩ := List.exists_mem_of_ne_nil l hl.occupied
      have hsome := (hopened.isSome_iff v).mpr hv
      rw [HashMap.isEmpty_iff.mp hempty v] at hsome
      exact absurd hsome (by simp)
    have hexp : ∀ v a, opened.1.get v = some a →
        (slashExposure a).total = .ok a.consensusPower := by
      intro v a ha
      obtain ⟨-, i, hi, rfl⟩ := hopened.get ha
      exact hvalid.exposure_total hi.entry
    obtain ⟨x, hx⟩ : ∃ x : EpochSlashExposureSnapshot, x = ⟨s.currentEpoch + 1, epochEnd,
      opened.1.mapValues fun _ a => slashExposure a⟩ := ⟨_, rfl⟩
    have hbuild := buildSlashExposureSnapshot_eq_ok.mpr ⟨hexp, hx⟩
    have hiff := hok.next_iff (q := { p with stakingV2State := some (nextState s epochEnd opened x) })
      hvalid hcap hend hfit hopened hl.occupied hx rfl rfl
    refine ⟨_, (advance_eq_ok hp.valid hp.epoch).mpr ⟨hp.settled, hend, hfit, hnum, opened, hopen, hne,
      x, hbuild, rfl, ?_⟩⟩
    refine validateV2Invariants_eq_ok.mpr ⟨hvalid.congr rfl rfl rfl rfl rfl, hcap, ?_⟩
    intro s' hs'
    cases hs'
    exact hiff.mpr hsat

end StakePool
end Lichen.Staking
