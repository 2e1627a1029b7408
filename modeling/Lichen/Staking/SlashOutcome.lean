/-
  When a proven equivocation can be slashed.

  The slash itself cannot fail on a valid pool with an entry for the offender, as long as the
  counters hold.  What can fail is the validation at the end: the offender's loss shrinks the stake
  of the epoch, hence the limit of every other validator, and one that was close to its limit is now
  above it.  `slash_ok_iff` is exact.
-/
import Lichen.Staking.SlashLoss
import Lichen.Staking.Lighter
import Lichen.Staking.Books

open Base HashMap
namespace Lichen.Staking
open StakePool List

/-- The owners behind an exposure: the operator and its delegators. -/
def ValidatorSlashExposure.owners (x : ValidatorSlashExposure) (v : Pubkey) : HashMap Pubkey Nat :=
  x.delegations.put v x.selfBond

namespace StakePool

variable {p q u : StakePool} {v : Pubkey} {i : StakeInfo} {s : StakingV2EpochState}
  {x : ValidatorSlashExposure} {start : Nat}

/-- The stake that a slash takes out of the pool. -/
def slashActive (p : StakePool) (v : Pubkey) (start percent : Nat) (x : ValidatorSlashExposure) :
    Nat :=
  (x.owners v).sumBy fun o n => p.activeLoss v start percent (o, n)

/-- What it burns altogether, pending exits included. -/
def slashNative (p : StakePool) (v : Pubkey) (start percent : Nat) (x : ValidatorSlashExposure) :
    Nat :=
  (x.owners v).sumBy fun o n => p.nativeLoss v start percent (o, n)

theorem takeBonded_missing
    (hnone : q.stakes.get v = none) (h : q.takeBonded v o remaining = .ok taken) :
    taken.2 = q := by
  unfold takeBonded at h
  grind [takeSelfBond, takeDelegation]

/-- The loop does not make up an entry for the offender. -/
theorem slashOwners_missing (hnone : t.updated.stakes.get v = none)
    (h : tryFold (slashOwner v start percent) t l = .ok t') : t'.updated.stakes.get v = none := by
  refine tryFold_induct (P := fun t => t.updated.stakes.get v = none) hnone ?_ h
  intro t e t' _ hnone ht
  unfold slashOwner at ht
  simp only [bind_eq_ok] at ht
  obtain ⟨product, -, requested, -, ht⟩ := ht
  split at ht
  · rw [pure_eq_ok] at ht
    rw [← ht]
    exact hnone
  split at ht
  · rw [pure_eq_ok] at ht
    rw [← ht]
    exact hnone
  -- the bond of a missing entry is not touched
  · simp only [bind_eq_ok] at ht
    obtain ⟨remaining, -, taken, htaken, actual, -, ht⟩ := ht
    have hsame := (takeCoolingDown_same (q := t.updated) (v := v) (o := e.1)
      (t.updated.coolingDownStake v e.1 start requested)).1
    grind [takeBonded_missing]

/-! ## The pool after the losses -/

/-- A pool in which the offender is off and `loss` poorer, and everyone else is as in `p`. -/
structure Slashed (p u : StakePool) (v : Pubkey) (loss : Nat) : Prop extends Lighter p u v loss where
  off : ∀ i, u.stakes.get v = some i → i.isActive = false

theorem settleSlash_eq_ok : settleSlash v t = .ok u ↔ ∃ i, t.updated.stakes.get v = some i
      ∧ t.activeLossTotal ≤ t.updated.totalStaked
      ∧ t.updated.totalSlashed + t.nativeLossTotal < 2 ^ 64
      ∧ u = { t.updated with
        stakes := t.updated.stakes.put v { i with isActive := false }
        totalStaked := t.updated.totalStaked - t.activeLossTotal
        totalSlashed := t.updated.totalSlashed + t.nativeLossTotal } := by
  unfold settleSlash
  simp only [ok_rules]
  grind

theorem SlashInv.slashed (h : SlashInv p v t) (hu : settleSlash v t = .ok u) :
    Slashed p u v t.activeLossTotal := by
  obtain ⟨i, hi, -, -, hu⟩ := settleSlash_eq_ok.mp hu
  have hvalid := h.valid
  rw [switchedOff_of_get hi] at hvalid
  refine ⟨⟨hvalid.congr (by rw [hu]) (by rw [hu]) (by rw [hu]) (by rw [hu]) (by rw [hu]), ?_, ?_, ?_,
    ?_⟩, ?_⟩
  · grind [entry]
  · rw [hu]
    exact h.epoch
  · grind [stakes]
  · intro w hw
    rw [hu]
    exact h.maps w hw
  · grind

/-- The settlement only needs the counter of slashed stake to hold. -/
theorem SlashInv.settles (h : SlashInv p v t) (hp : p.Valid)
    (hi : p.stakes.get v = some i) (hcount : p.totalSlashed + t.nativeLossTotal < 2 ^ 64) :
    ∃ u, settleSlash v t = .ok u := by
  obtain ⟨j, hj, -, hsum⟩ := h.entry i hi
  have hshare := hp.share_le hi
  have htotal := h.totalStaked
  have hslashed := h.totalSlashed
  exact ⟨_, settleSlash_eq_ok.mpr ⟨j, hj, by omega, by omega, rfl⟩⟩

/-! ## Validation -/

/-- **The last check of a slash.**  It passes exactly when the offender's accumulators hold, and the
    other validators of the epoch are within the limit that the smaller epoch stake leaves them. -/
theorem Slashed.validates_iff (h : Slashed p u v loss) (hp : p.Valid)
    (hcap : p.Capped) (hepoch : p.EpochOk s) (hs : p.stakingV2State = some s)
    (hi : p.stakes.get v = some i)
    (hslot : ∀ a, s.validators.get v = some a → a.selfBond.lastCheckpointSlot ≤ slot) :
    (∃ q, u.checkpointOffender s v slot = .ok q ∧ q.validateV2Invariants = .ok ()) ↔
      ∀ a, s.validators.get v = some a → a.Fits slot ∧ ∀ w b, w ≠ v → s.validators.get w = some b →
        p.effective w ≤ saturationLimit (p.epochStake s - loss) s.validators.size := by
  unfold checkpointOffender HashMap.containsKey
  have hcapped : u.Capped := by
    refine h.capped hcap fun k hk hact => ?_
    rw [h.off k hk] at hact
    simp at hact
  cases ha : s.validators.get v with
  | none =>
    simp only [Option.isSome_none, Bool.false_eq_true, if_false, Except.ok.injEq, exists_eq_left']
    refine ⟨fun _ a ha => absurd ha (by simp), fun _ => ?_⟩
    refine validateV2Invariants_eq_ok.mpr ⟨h.valid, hcapped, fun s' hs' => ?_⟩
    obtain rfl : s = s' := Option.some.inj ((h.epoch.trans hs).symm.trans hs')
    exact h.epochOk hepoch ha
  | some a =>
    simp only [Option.isSome_some, if_true, Option.some.injEq, forall_eq']
    rw [← h.checkpoint_iff hp hepoch hs hi ha (hslot a ha)]
    constructor
    · rintro ⟨q, hq, hval⟩
      obtain ⟨hvalid, -, hok⟩ := validateV2Invariants_eq_ok.mp hval
      obtain ⟨-, _, _, -, -, -, rfl⟩ := checkpointInner_spec (h.epoch.trans hs) hq
      exact ⟨_, hq, hvalid, rfl, hok⟩
    · rintro ⟨q, hq, hvalid, hstakes, hok⟩
      refine ⟨q, hq, validateV2Invariants_eq_ok.mpr ⟨hvalid, ?_, hok⟩⟩
      intro w j hj
      rw [hstakes] at hj
      exact hcapped w j hj

/-! ## The whole slash -/

variable {snapshot : EpochSlashExposureSnapshot}

section
variable {epoch : Nat} (h : p.EpochOk s)
  (hsnap : s.slashExposureSnapshots.get epoch = some snapshot)
  (hx : snapshot.validators.get v = some x)
include h hsnap hx

/-- What a retained exposure is known to be. -/
theorem EpochOk.exposure :
    x.delegations.get v = none ∧ (x.selfBond < 2 ^ 64 → ∀ d n, x.delegations.get d = some n →
      n < 2 ^ 64) := by
  obtain ⟨-, -, -, hall⟩ := checkSnapshot_eq_ok.mp (h.snapshots epoch snapshot hsnap)
  obtain ⟨-, hdel, t, ht⟩ := checkExposure_eq_ok.mp (hall v x hx)
  constructor
  · cases hd : x.delegations.get v with
    | none => rfl
    | some n => exact absurd rfl (hdel v n hd).1
  · grind [ValidatorSlashExposure.total_eq_ok, le_sumBy_of_get]

theorem EpochOk.owners_lt (hbond : x.selfBond < 2 ^ 64) :
    ∀ e ∈ sortedEntries (x.owners v), e.2 < 2 ^ 64 := by
  rintro ⟨o, n⟩ he
  rw [mem_sortedEntries, ValidatorSlashExposure.owners, get_put] at he
  split at he
  · exact Option.some.inj he ▸ hbond
  · exact (h.exposure hsnap hx).2 hbond o n he

end

theorem Valid.slashInv (h : p.Valid) : SlashInv p v ⟨p, [], 0, 0, 0⟩ := by
  refine ⟨?_, Nat.two_pow_pos 64, fun i hi => ⟨i, hi, rfl, rfl⟩, rfl, rfl, rfl, fun _ _ => rfl,
    fun _ _ => rfl⟩
  show (p.switchedOff v 0).Valid
  unfold switchedOff
  cases hi : p.stakes.get v with
  | none => exact h
  | some i =>
    exact h.setBond hi rfl rfl (h.bonded v i hi) (fun hact => absurd hact (by simp)) rfl rfl rfl
      h.fits h.requests rfl rfl

/-- **The loop of a slash that goes through.** -/
theorem Valid.slashRun (h : p.Valid) (hpercent : percent ≤ 100)
    (hsmall : ∀ e ∈ sortedEntries (x.owners v), e.2 < 2 ^ 64)
    (ht : tryFold (slashOwner v start percent) ⟨p, [], 0, 0, 0⟩ (sortedEntries (x.owners v)) = .ok t)
    (hu : settleSlash v t = .ok u) :
    ∃ i, p.stakes.get v = some i ∧ SlashInv p v t
      ∧ ChargedAll p ⟨p, [], 0, 0, 0⟩ t v start percent (sortedEntries (x.owners v)) := by
  cases hi : p.stakes.get v with
  | none =>
    obtain ⟨i, hi', -⟩ := settleSlash_eq_ok.mp hu
    rw [slashOwners_missing hi ht] at hi'
    simp at hi'
  | some i =>
    have hloop := slashOwners_spec start hi (h.effective_lt hi) hpercent
      (nodup_sortedEntries (x.owners v)) h.slashInv hsmall (fun _ _ => ⟨rfl, rfl⟩)
    obtain ⟨t', ht', hinv, hall⟩ := hloop.1 (hloop.2 t ht)
    obtain rfl : t = t' := Except.ok.inj (ht.symm.trans ht')
    exact ⟨i, rfl, hinv, hall⟩

/-- What a slash needs from the pool: an entry for the offender, counters that hold, and the other
    validators of the epoch within the limit of the epoch's stake less the loss. -/
structure Slashable (p : StakePool) (s : StakingV2EpochState) (v : Pubkey)
    (start percent slot : Nat) (x : ValidatorSlashExposure) : Prop where
  staked : ∃ i, p.stakes.get v = some i
  counted : p.totalSlashed + p.slashNative v start percent x < 2 ^ 64
  timed : ∀ a, s.validators.get v = some a → a.Fits slot
  room : ∀ a, s.validators.get v = some a → ∀ w b, w ≠ v → s.validators.get w = some b →
    p.effective w
      ≤ saturationLimit (p.epochStake s - p.slashActive v start percent x) s.validators.size

/-! ## The settlement -/

/-- A sum over the lines of a settlement. -/
theorem sum_lossLines (f : StakingV2SlashOwnerLoss → Nat)
    (hf : ∀ e, f ⟨e.1, p.activeLoss v start percent e, p.coolingLoss v start percent e⟩ = g e)
    (hg : ∀ e, g e ≤ p.nativeLoss v start percent e) (l : List (Pubkey × Nat)) :
    ((l.flatMap (p.lossLine v start percent)).map f).sum = (l.map g).sum := by
  induction l with
  | nil => rfl
  | cons e l ih =>
    rw [flatMap_cons, map_append, sum_append, ih, map_cons, sum_cons, lossLine]
    split
    · have hnone := hg e
      simp only [map_nil, sum_nil]
      omega
    · simp [hf e]

/-- The native loss of a settlement is the sum of its lines. -/
theorem nativeLoss_eq_ok {r : StakingV2SlashSettlement}
    (h : (r.ownerLosses.map fun l => l.activeStake + l.coolingDownStake).sum < 2 ^ 64) :
    r.nativeLoss = .ok (r.ownerLosses.map fun l => l.activeStake + l.coolingDownStake).sum := by
  refine (tryFold_sum_eq_ok (fun l => l.activeStake + l.coolingDownStake < 2 ^ 64)
    (fun l => l.activeStake + l.coolingDownStake) (fun t l c => ?_) (Nat.two_pow_pos 64)).mpr
      ⟨fun l hl => ?_, by omega, by omega⟩
  · simp only [StakingV2SlashOwnerLoss.total, ok_rules]
    constructor
    · rintro ⟨_, ⟨hlt, rfl⟩, hsum, rfl⟩
      exact ⟨hlt, hsum, rfl⟩
    · rintro ⟨hlt, hsum, rfl⟩
      exact ⟨_, ⟨hlt, rfl⟩, hsum, rfl⟩
  · have hle := le_sum_of_mem (mem_map_of_mem
      (f := fun l : StakingV2SlashOwnerLoss => l.activeStake + l.coolingDownStake) hl)
    exact lt_of_le_of_lt hle h

/-- The last checkpoint only touches the accounting of the epoch. -/
theorem checkpointOffender_eq (hs : u.stakingV2State = some s)
    (h : u.checkpointOffender s v slot = .ok q) : ∃ state, q = { u with stakingV2State := state } := by
  unfold checkpointOffender at h
  split at h
  · obtain ⟨-, _, _, -, -, -, rfl⟩ := checkpointInner_spec hs h
    exact ⟨_, rfl⟩
  · cases h
    exact ⟨_, rfl⟩

end StakePool

/-- **When an equivocation can be slashed.** -/
theorem equivocation_slash_ok_iff {p : StakePool} {s : StakingV2EpochState} {v : Pubkey}
    {snapshot : EpochSlashExposureSnapshot} {x : ValidatorSlashExposure}
    {offense percent execution : Nat} (hp : p.validateV2Invariants = .ok ())
    (hs : p.stakingV2State = some s)
    (hsnap : s.slashExposureSnapshots.get (slotToEpoch offense) = some snapshot)
    (hx : snapshot.validators.get v = some x) (hbond : x.selfBond < 2 ^ 64)
    (hle : offense ≤ execution) (hwindow : execution - offense ≤ SLASHING_V2_EVIDENCE_WINDOW_SLOTS)
    (hslot : ∀ w a, s.validators.get w = some a → a.selfBond.lastCheckpointSlot ≤ execution
      ∧ ∀ d y, a.delegations.get d = some y → y.lastCheckpointSlot ≤ execution)
    (hpercent : 1 ≤ percent ∧ percent ≤ 100) :
    (∃ r, p.applyStakingV2EquivocationSlash v offense percent execution = .ok r) ↔
      p.Slashable s v snapshot.startSlot percent execution x := by
  obtain ⟨hvalid, hcap, hepochs⟩ := validateV2Invariants_eq_ok.mp hp
  have hepoch := hepochs s hs
  have hself := (hepoch.exposure hsnap hx).1
  have hsmall := hepoch.owners_lt hsnap hx hbond
  -- the checks before the loop all pass
  have hunfold : (∃ r, p.applyStakingV2EquivocationSlash v offense percent execution = .ok r) ↔
      ∃ t, tryFold (StakePool.slashOwner v snapshot.startSlot percent) ⟨p, [], 0, 0, 0⟩
          (sortedEntries (x.owners v)) = .ok t
        ∧ ∃ u, StakePool.settleSlash v t = .ok u
        ∧ ∃ q, u.checkpointOffender s v execution = .ok q ∧ q.validateV2Invariants = .ok () := by
    unfold StakePool.applyStakingV2EquivocationSlash
    simp only [ok_rules, hp, hs, hsnap, hx, HashMap.containsKey, hself, Option.some.injEq, true_and,
      exists_eq_left']
    constructor
    · rintro ⟨r, -, -, -, -, t, ht, u, hu, q, hq, hval, -⟩
      exact ⟨t, ht, u, hu, q, hq, hval⟩
    · rintro ⟨t, ht, u, hu, q, hq, hval⟩
      exact ⟨_, by omega, by omega, by omega, by simp, t, ht, u, hu, q, hq, hval, rfl⟩
  rw [hunfold]
  constructor
  · rintro ⟨t, ht, u, hu, hlast⟩
    obtain ⟨i, hi, hinv, hall⟩ := hvalid.slashRun hpercent.2 hsmall ht hu
    have hactive := hall.active
    have hnative := hall.native
    rw [sum_sortedEntries, zero_add] at hactive hnative
    have hrest := ((hinv.slashed hu).validates_iff hvalid hcap hepoch hs hi
      fun a ha => (hslot v a ha).1).mp hlast
    obtain ⟨j, -, -, hcount, -⟩ := settleSlash_eq_ok.mp hu
    rw [hinv.totalSlashed, hnative] at hcount
    rw [hactive] at hrest
    exact ⟨⟨i, hi⟩, hcount, fun a ha => (hrest a ha).1, fun a ha => (hrest a ha).2⟩
  · rintro ⟨⟨i, hi⟩, hcount, htimed, hroom⟩
    have hloop := slashOwners_spec snapshot.startSlot hi
      (hvalid.effective_lt hi) hpercent.2 (nodup_sortedEntries (x.owners v)) hvalid.slashInv hsmall
      (fun _ _ => ⟨rfl, rfl⟩)
    rw [sum_sortedEntries, zero_add] at hloop
    have hfit : p.slashNative v snapshot.startSlot percent x < 2 ^ 64 := by omega
    obtain ⟨t, ht, hinv, hall⟩ := hloop.1 hfit
    have hactive := hall.active
    have hnative := hall.native
    rw [sum_sortedEntries, zero_add] at hactive hnative
    obtain ⟨u, hu⟩ := hinv.settles hvalid hi (by rw [hnative]; exact hcount)
    refine ⟨t, ht, u, hu, ((hinv.slashed hu).validates_iff hvalid hcap hepoch hs hi
      fun a ha => (hslot v a ha).1).mpr fun a ha => ⟨htimed a ha, ?_⟩⟩
    rw [hactive]
    exact hroom a ha

/-- **What a slash takes.**  Each owner behind the exposure loses at most its share, first out of a
    pending exit and then out of its bond; the totals of the pool change by the sums of these losses,
    nothing else changes, and a slash that fails changes nothing. -/
theorem equivocation_slash_exact {p : StakePool} {s : StakingV2EpochState} {v : Pubkey}
    {snapshot : EpochSlashExposureSnapshot} {x : ValidatorSlashExposure}
    {offense percent execution : Nat} (hs : p.stakingV2State = some s)
    (hsnap : s.slashExposureSnapshots.get (slotToEpoch offense) = some snapshot)
    (hx : snapshot.validators.get v = some x) (hbond : x.selfBond < 2 ^ 64) :
    (∀ e, p.applyStakingV2EquivocationSlash v offense percent execution = .error e →
      p.settleTo ((p.applyStakingV2EquivocationSlash v offense percent execution).map Prod.snd) = p) ∧
    ∀ r p', p.applyStakingV2EquivocationSlash v offense percent execution = .ok (r, p') →
      (∀ o n, (x.owners v).get o = some n →
        p.nativeLoss v snapshot.startSlot percent (o, n) ≤ n * percent / 100
          ∧ p'.bondedBy v o + p.activeLoss v snapshot.startSlot percent (o, n) = p.bondedBy v o
          ∧ p'.requested v o + p.coolingLoss v snapshot.startSlot percent (o, n) = p.requested v o)
      ∧ r.ownerLosses
        = (sortedEntries (x.owners v)).flatMap (p.lossLine v snapshot.startSlot percent)
      ∧ p'.totalStaked + (r.ownerLosses.map fun l => l.activeStake).sum = p.totalStaked
      ∧ ((x.owners v).sumBy fun o _ => p'.requested v o)
          + (r.ownerLosses.map fun l => l.coolingDownStake).sum
        = ((x.owners v).sumBy fun o _ => p.requested v o)
      ∧ (∃ loss, r.nativeLoss = .ok loss ∧ p'.totalSlashed = p.totalSlashed + loss)
      ∧ ∀ w, w ≠ v → p'.stakes.get w = p.stakes.get w ∧ p'.delegations.get w = p.delegations.get w
        ∧ ∀ o, p'.unstakeRequests.get (w, o) = p.unstakeRequests.get (w, o) := by
  refine ⟨fun e he => by rw [he]; rfl, fun r p' h => ?_⟩
  unfold StakePool.applyStakingV2EquivocationSlash at h
  simp only [ok_rules, hs, hsnap, hx, Option.some.injEq, exists_eq_left'] at h
  obtain ⟨hpercent, -, -, hp, -, t, ht, u, hu, q, hq, -, hr⟩ := h
  cases hr
  obtain ⟨hvalid, -, hepochs⟩ := validateV2Invariants_eq_ok.mp hp
  obtain ⟨i, -, hinv, hall⟩ := hvalid.slashRun (by omega)
    ((hepochs s hs).owners_lt hsnap hx hbond) ht hu
  obtain ⟨state, rfl⟩ := checkpointOffender_eq ((hinv.slashed hu).epoch.trans hs) hq
  obtain ⟨j, hj, hactive, -, rfl⟩ := settleSlash_eq_ok.mp hu
  have hlines : t.ownerLosses
      = (sortedEntries (x.owners v)).flatMap (p.lossLine v snapshot.startSlot percent) := hall.listed
  have hactives : (t.ownerLosses.map fun l => l.activeStake).sum = t.activeLossTotal := by
    rw [hlines, sum_lossLines _ (fun _ => rfl) fun _ => Nat.le_add_right _ _, hall.active, zero_add]
  have hnatives : (t.ownerLosses.map fun l => l.activeStake + l.coolingDownStake).sum
      = t.nativeLossTotal := by
    rw [hlines, sum_lossLines _ (g := p.nativeLoss v snapshot.startSlot percent) (fun _ => rfl)
      fun _ => le_refl _, hall.native, zero_add]
  have howner := fun o n (ho : (x.owners v).get o = some n) =>
    hall.owners (o, n) (mem_sortedEntries.mpr ho)
  refine ⟨fun o n ho => ⟨losses_le _, ?_, (howner o n ho).2⟩, hlines, ?_, ?_,
    ⟨_, nativeLoss_eq_ok (hnatives.symm ▸ hinv.native), ?_⟩,
    fun w hw => ⟨?_, hinv.maps w hw, fun o => ?_⟩⟩
  · -- switching the offender off leaves its bond
    refine Eq.trans (congrArg (· + _) ?_) (howner o n ho).1
    unfold StakePool.bondedBy
    split
    · rw [bond_of_get hj, bond_of_get (get_put_self _ _ _)]
    · rfl
  · rw [hactives, ← hinv.totalStaked]
    exact Nat.sub_add_cancel hactive
  · rw [hlines, sum_lossLines _ (fun _ => rfl) fun _ => Nat.le_add_left _ _, sum_sortedEntries,
      ← sumBy_add]
    exact sumBy_congr fun o n ho => (howner o n ho).2
  · rw [hnatives, ← hinv.totalSlashed]
  · exact (get_put_ne _ _ hw).trans (hinv.stakes w hw)
  · exact hall.elsewhere (w, o) fun _ _ heq => hw (Prod.mk.inj heq).1

section

/-- Two validators that open the first epoch; the first one has a delegator. -/
private def twoValidators (first second delegated : Nat) : StakePool :=
  let p := [PoolCall.stake ⟨1⟩ first 0, .stake ⟨2⟩ second 0,
    .delegate ⟨3⟩ ⟨1⟩ delegated key_ne].foldl PoolCall.run StakePool.new
  p.settleTo (p.initializeStakingV2 0 [⟨1⟩, ⟨2⟩])

/-- 100 000 LICN each. -/
private def balanced : StakePool := twoValidators 100000000000000 100000000000000 10

private def balancedState : StakingV2EpochState := balanced.stakingV2State.get (by decide +kernel)

private def balancedSnapshot : EpochSlashExposureSnapshot :=
  (balancedState.slashExposureSnapshots.get 0).get (by decide +kernel)

private def balancedExposure : ValidatorSlashExposure :=
  (balancedSnapshot.validators.get ⟨1⟩).get (by decide +kernel)

private theorem equivocation_slash_balanced :
    (balanced.applyStakingV2EquivocationSlash ⟨1⟩ 1 10 2).isOk = true := by
  decide +kernel

theorem equivocation_slash_ok_iff_balanced :
    (balanced.applyStakingV2EquivocationSlash ⟨1⟩ 1 10 2).isOk = true ∧
    balanced.Slashable balancedState ⟨1⟩ balancedSnapshot.startSlot 10 2 balancedExposure := by
  -- every accumulator was last brought forward when the epoch opened
  have hslot := checkpoints_le balancedState 2 (by decide +kernel)
  exact ⟨equivocation_slash_balanced, (equivocation_slash_ok_iff (by decide +kernel)
    (Option.some_get _).symm (Option.some_get _).symm (Option.some_get _).symm (by decide +kernel)
    (by decide) (by decide) hslot (by decide)).mp (exists_of_isOk equivocation_slash_balanced)⟩

/-- The delegator has asked for six of its ten spores back in slot 1. -/
private def exiting : StakePool :=
  balanced.settleTo (do
    let p ← balanced.requestDelegationUnstake ⟨3⟩ ⟨1⟩ 6 1
    p.checkpointStakingV2Validator ⟨1⟩ 1)

private def exitingState : StakingV2EpochState := exiting.stakingV2State.get (by decide +kernel)

private def exitingSnapshot : EpochSlashExposureSnapshot :=
  (exitingState.slashExposureSnapshots.get 0).get (by decide +kernel)

private def exitingExposure : ValidatorSlashExposure :=
  (exitingSnapshot.validators.get ⟨1⟩).get (by decide +kernel)

/-- Four fifths are taken: of the delegator's eight spores six out of its exit and two out of what
    it still has delegated, of the first validator's bond 80 000 LICN. -/
theorem equivocation_slash_exact_exiting : ∃ r p',
    exiting.applyStakingV2EquivocationSlash ⟨1⟩ 1 80 2 = .ok (r, p')
      ∧ exiting.requested ⟨1⟩ ⟨3⟩ = 6 ∧ p'.requested ⟨1⟩ ⟨3⟩ = 0
      ∧ exiting.bondedBy ⟨1⟩ ⟨3⟩ = 4 ∧ p'.bondedBy ⟨1⟩ ⟨3⟩ = 2
      ∧ exiting.nativeLoss ⟨1⟩ 0 80 (⟨3⟩, 10) ≤ 10 * 80 / 100
      ∧ r.ownerLosses = [⟨⟨1⟩, 80000000000000, 0⟩, ⟨⟨3⟩, 2, 6⟩]
      ∧ p'.totalStaked + 80000000000002 = exiting.totalStaked
      ∧ ((exitingExposure.owners ⟨1⟩).sumBy fun o _ => p'.requested ⟨1⟩ o) + 6
        = ((exitingExposure.owners ⟨1⟩).sumBy fun o _ => exiting.requested ⟨1⟩ o)
      ∧ (∃ loss, r.nativeLoss = .ok loss ∧ p'.totalSlashed = exiting.totalSlashed + loss)
      ∧ p'.stakes.get ⟨2⟩ = exiting.stakes.get ⟨2⟩ := by
  have hok : (exiting.applyStakingV2EquivocationSlash ⟨1⟩ 1 80 2).isOk = true := by decide +kernel
  obtain ⟨⟨r, p'⟩, h⟩ := exists_of_isOk hok
  have hsnap : exitingState.slashExposureSnapshots.get (slotToEpoch 1) = some exitingSnapshot :=
    (Option.some_get _).symm
  have hstart : exitingSnapshot.startSlot = 0 := by decide +kernel
  have howner : (exitingExposure.owners ⟨1⟩).get ⟨3⟩ = some 10 := by decide +kernel
  have hlines : (sortedEntries (exitingExposure.owners ⟨1⟩)).flatMap (exiting.lossLine ⟨1⟩ 0 80)
      = [⟨⟨1⟩, 80000000000000, 0⟩, ⟨⟨3⟩, 2, 6⟩] := by decide +kernel
  have hactive : exiting.activeLoss ⟨1⟩ 0 80 (⟨3⟩, 10) = 2 := by decide +kernel
  have hcooling : exiting.coolingLoss ⟨1⟩ 0 80 (⟨3⟩, 10) = 6 := by decide +kernel
  have hbonded : exiting.bondedBy ⟨1⟩ ⟨3⟩ = 4 := by decide +kernel
  have hrequested : exiting.requested ⟨1⟩ ⟨3⟩ = 6 := by decide +kernel
  obtain ⟨howners, hlosses, hstaked, hrequests, hslashed, hothers⟩ :=
    (equivocation_slash_exact (Option.some_get _).symm hsnap (x := exitingExposure)
      (Option.some_get _).symm (by decide +kernel)).2 r p' h
  obtain ⟨hshare, hbond, hrequest⟩ := howners ⟨3⟩ 10 howner
  rw [hstart] at hshare hbond hrequest hlosses
  rw [hlines] at hlosses
  rw [hlosses] at hstaked hrequests
  exact ⟨r, p', h, hrequested, by omega, hbonded, by omega, hshare, hlosses, hstaked, hrequests,
    hslashed, (hothers ⟨2⟩ (by decide)).1⟩

/-- One validator at its limit of 95% (1 000 000 LICN of its own and 425 000 delegated), the other
    with the minimum of 75 000: the pool is in order, and an equivocation of the small validator
    cannot be slashed. -/
theorem slash_of_small_validator_fails :
    let p := twoValidators 1000000000000000 75000000000000 425000000000000
    p.validateV2Invariants = .ok ()
      ∧ (p.stakingV2State.bind fun s => (s.slashExposureSnapshots.get (slotToEpoch 1)).bind fun n =>
        (n.validators.get ⟨2⟩).map fun x => x.selfBond) = some 75000000000000
      ∧ (p.stakingV2State.map fun s => s.validators.toList.all fun e =>
        decide (e.2.selfBond.lastCheckpointSlot ≤ 2)) = some true
      ∧ (p.applyStakingV2EquivocationSlash ⟨2⟩ 1 10 2).isOk = false := by
  decide +kernel

end
end Lichen.Staking
