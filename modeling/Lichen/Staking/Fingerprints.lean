/-
  The machine-fingerprint registry.

  Who runs on which machine is stored twice: in the registry, and in the stake entry of the
  validator.  A pool loads only if the two are inverse to each other.  Five calls write them:

  * `migrate_fingerprint` releases the old fingerprint before it takes the new one;
  * `register_fingerprint`, and with it `try_bootstrap_with_fingerprint` for a validator that
    already has an entry, takes a second fingerprint and leaves the first one registered;
  * `upsert_stake_full` respects the owner of a fingerprint when it merges an entry and overwrites
    it when it inserts one; neither it nor a new bootstrap entry is measured against the maximum.

  The result is about runs: as long as no step takes a second fingerprint, an owned one, or stake
  that does not fit, the relation stays a bijection and the pool stays loadable.
-/
import Lichen.Staking.EpochValid
import Lichen.Staking.Books

open Base HashMap
namespace Lichen.Staking
namespace StakePool
variable {p p' : StakePool} {v : Pubkey} {i : StakeInfo}

/-! ## Pools that load -/

/-- A pool that `from_storage_bytes` accepts. -/
structure Loads (p : StakePool) : Prop where
  valid : p.Valid
  rules : p.EpochRules

theorem Loads.reloads (h : p.Loads) (hc : codec.RoundTrips p) : p.Reloads codec :=
  (reloads_iff hc).mpr ⟨h.valid, h.valid.epochRules_iff.mp h.rules⟩

/-! ## Taking a fingerprint -/

/-- `register_fingerprint` takes nothing over, or for a validator without a fingerprint. -/
def Unclaimed (p : StakePool) (i : StakeInfo) (f : Fingerprint) : Prop :=
  f = 0 ∨ p.fingerprintRegistry.get f ≠ none ∨ i.machineFingerprint = 0

variable {f : Fingerprint} {slot : Nat}

/-- An entry that differs in its fingerprint and its migration slot only. -/
theorem Loads.setFingerprint (h : p.Loads) (hi : p.stakes.get v = some i) (hs : p'.stakes
      = p.stakes.put v { i with machineFingerprint := f, lastMigrationSlot := slot })
    (hbound : p'.Bound) (htot : p'.totalStaked = p.totalStaked)
    (hdel : p'.delegations = p.delegations) (hreq : p'.unstakeRequests = p.unstakeRequests)
    (hst : p'.stakingV2State = p.stakingV2State) : p'.Loads := by
  have hv := h.valid
  constructor
  · exact hv.writeBond hi hs rfl (hv.bonded v i hi) (hv.active v i hi) hdel rfl (by rw [htot])
      (by rw [htot]; exact hv.fits) (hv.requests_kept hreq) hbound
  · refine h.rules.writeEntry hs hdel hst (fun hcap => hcap v i hi) fun _ j hj => ?_
    grind

theorem Loads.registerFingerprint (h : p.Loads) (hi : p.stakes.get v = some i)
    (hfree : p.Unclaimed i f) (hop : p.registerFingerprint v f = .ok p') : p'.Loads := by
  unfold StakePool.registerFingerprint at hop
  by_cases hf : f = 0
  · rw [if_pos hf, Except.ok.injEq] at hop
    exact hop ▸ h
  rw [if_neg hf] at hop
  cases hreg : p.fingerprintRegistry.get f with
  | some w =>
    grind
  | none =>
    have hnone : i.machineFingerprint = 0 := by
      rcases hfree with h0 | hsome | h0
      · exact absurd h0 hf
      · exact absurd hreg hsome
      · exact h0
    simp only [hreg, hi, Except.ok.injEq] at hop
    have hs : p'.stakes = p.stakes.put v { i with machineFingerprint := f } := by rw [← hop]
    have hregistry : p'.fingerprintRegistry = p.fingerprintRegistry.put f v := by rw [← hop]
    have hbound : p'.Bound := by
      refine h.valid.toBound.assign hs rfl (fun w hw => ?_) (fun _ => ?_) (fun g hgf hg0 => ?_) ?_
      · rw [hreg] at hw
        simp at hw
      · rw [hregistry, get_put_self]
      · rw [hregistry, get_put, if_neg hgf, fingerprintOf_of_get hi, hnone, if_neg hg0]
      · rw [hregistry, get_put, if_neg (Ne.symm hf)]
        exact h.valid.toBound.zero_free
    grind [setFingerprint]

theorem foreignOwner_eq_none (h : p.foreignOwner v f = none) (w : Pubkey)
    (hw : p.fingerprintRegistry.get f = some w) : w = v := by
  grind [foreignOwner]

theorem Loads.migrateFingerprint (h : p.Loads)
    (hop : p.migrateFingerprint v f slot = .ok p') : p'.Loads := by
  unfold StakePool.migrateFingerprint at hop
  by_cases hf : f = 0
  · rw [if_pos hf] at hop
    simp at hop
  rw [if_neg hf] at hop
  cases hown : p.foreignOwner v f with
  | some w =>
    simp only [hown] at hop
    simp at hop
  | none =>
    simp only [hown, ok_rules] at hop
    obtain ⟨i, hi, -, hp'⟩ := hop
    have hs : p'.stakes
        = p.stakes.put v { i with machineFingerprint := f, lastMigrationSlot := slot } := by
      rw [← hp']
    have hregistry : ∀ g, p'.fingerprintRegistry.get g = if g = f then some v else
        if i.machineFingerprint ≠ 0 ∧ g = i.machineFingerprint then none
        else p.fingerprintRegistry.get g := by
      intro g
      rw [← hp']
      simp only [get_put]
      by_cases hz : i.machineFingerprint = 0
      · simp [hz]
      · simp only [hz, if_false, get_remove, ne_eq, not_false_eq_true, true_and]
    have hbound : p'.Bound := by
      refine h.valid.toBound.assign hs rfl (foreignOwner_eq_none hown) (fun _ => ?_)
        (fun g hgf hg0 => ?_) ?_
      · rw [hregistry, if_pos rfl]
      · rw [hregistry, if_neg hgf, fingerprintOf_of_get hi]
        grind
      · grind [valid, Valid.toBound, Bound.zero_free]
    grind [setFingerprint]

/-! ## Bootstrap grants -/

/-- Raising the bond of `v` to `amount` leaves nothing for a checkpoint to do. -/
def Settled (p : StakePool) (v : Pubkey) (i : StakeInfo) (amount : Nat) : Prop :=
  p.stakingV2State ≠ none →
    (p.InEpoch v → amount = i.amount)
    ∧ (MIN_VALIDATOR_STAKE ≤ amount + i.delegatedAmount →
      amount + i.delegatedAmount ≤ MAX_VALIDATOR_EFFECTIVE_STAKE_MULTIPLIER * amount)

/-- An entry whose bond is raised to `amount`, and whose activity is recomputed. -/
theorem Loads.raiseTo (h : p.Loads) (hi : p.stakes.get v = some i)
    (hle : i.amount ≤ amount) (hmax : amount ≤ MAX_VALIDATOR_STAKE)
    (hroom : p.totalStaked + (amount - i.amount) < 2 ^ 64) (hset : p.Settled v i amount)
    (hs : p'.stakes = p.stakes.put v i') (hbound : p'.Bound)
    (hval : i'.validator = i.validator) (ha : i'.amount = amount)
    (hd : i'.delegatedAmount = i.delegatedAmount)
    (hact : i'.isActive = true → MIN_VALIDATOR_STAKE ≤ i'.amount + i'.delegatedAmount)
    (hblocks : i.blocksProduced ≤ i'.blocksProduced)
    (htot : p'.totalStaked = p.totalStaked + (amount - i.amount))
    (hdel : p'.delegations = p.delegations) (hreq : p'.unstakeRequests = p.unstakeRequests)
    (hst : p'.stakingV2State = p.stakingV2State) : p'.Loads := by
  have hv := h.valid
  constructor
  · exact hv.writeBond hi hs hval (by omega) hact hdel hd (by omega) (by omega)
      (hv.requests_kept hreq) hbound
  · intro s hs'
    have hsome : p.stakingV2State ≠ none := by
      rw [← hst, hs']
      simp
    obtain ⟨hin, hcap⟩ := hset hsome
    refine h.rules.writeEntry hs hdel hst (fun _ hi' => ?_) (fun hepoch j hj => ?_) s hs'
    · grind
    · grind

/-- What a bootstrap call needs: for a validator with an entry the fingerprint has to be free for
    it, and an accepted raise has to fit; a new entry is not measured against the maximum. -/
def BootstrapSound (p : StakePool) (v : Pubkey) (amount : Nat) (f : Fingerprint) : Prop :=
  match p.stakes.get v with
  | some i => p.Unclaimed i f ∧ (i.amount < amount → amount ≤ MAX_VALIDATOR_STAKE →
      p.totalStaked + (amount - i.amount) < 2 ^ 64 ∧ p.Settled v i amount)
  | none => MIN_VALIDATOR_STAKE ≤ amount →
      amount ≤ MAX_VALIDATOR_STAKE ∧ p.totalStaked + amount < 2 ^ 64

/-- The pool with the bond of `v` raised to `amount`. -/
def raisedTo (p : StakePool) (v : Pubkey) (i : StakeInfo) (amount : Nat) : StakePool :=
  { p with
    stakes := p.stakes.put v ({ i with amount } : StakeInfo).refresh
    totalStaked := p.totalStaked + (amount - i.amount) }

theorem Loads.bootstrapExisting (h : p.Loads)
    (hi : p.stakes.get v = some i) (hfree : p.Unclaimed i f)
    (hfit : i.amount < amount → amount ≤ MAX_VALIDATOR_STAKE →
      p.totalStaked + (amount - i.amount) < 2 ^ 64 ∧ p.Settled v i amount)
    (hop : p.bootstrapExisting v i amount f = .ok (r, p')) : p'.Loads := by
  unfold StakePool.bootstrapExisting at hop
  by_cases hle : amount ≤ i.amount
  · grind [registerFingerprint]
  · simp only [hle, if_false, ok_rules, Prod.mk.injEq, not_lt] at hop
    obtain ⟨hmax, q, hq, -, rfl⟩ := hop
    obtain ⟨hroom, hset⟩ := hfit (by omega) hmax
    rw [U64.saturatingAdd_of_lt hroom] at hq
    -- the raise first, then the fingerprint of the raised entry
    have hraised : (p.raisedTo v i amount).Loads := h.raiseTo hi (by omega) hmax hroom hset rfl
        (h.valid.toBound.keep rfl rfl (fingerprintOf_of_get hi).symm) rfl rfl rfl
        StakeInfo.minimum_of_refresh_active (le_refl _) rfl rfl rfl rfl
    exact hraised.registerFingerprint (get_put_self _ _ _) hfree hq

/-- A new entry with a fingerprint nobody owns. -/
theorem Loads.newEntry (h : p.Loads) (hi : p.stakes.get v = none)
    (hs : p'.stakes = p.stakes.put v i')
    (hfree : i'.machineFingerprint ≠ 0 → ∀ w, p.fingerprintRegistry.get i'.machineFingerprint = some w
      → w = v)
    (hreg : p'.fingerprintRegistry = if i'.machineFingerprint = 0 then p.fingerprintRegistry
      else p.fingerprintRegistry.put i'.machineFingerprint v)
    (hdel : p'.delegations = p.delegations) (hreq : p'.unstakeRequests = p.unstakeRequests)
    (hst : p'.stakingV2State = p.stakingV2State)
    (hval : i'.validator = v) (hd : i'.delegatedAmount = 0)
    (hbond : i'.amount ≤ MAX_VALIDATOR_STAKE)
    (hact : i'.isActive = true → MIN_VALIDATOR_STAKE ≤ i'.amount)
    (htot : p'.totalStaked = p.totalStaked + i'.amount) (hfit : p'.totalStaked < 2 ^ 64) :
    p'.Loads := by
  have hb := h.valid.toBound
  have hold : p.fingerprintOf v = 0 := fingerprintOf_of_none hi
  have hbound : p'.Bound := by
    by_cases hz : i'.machineFingerprint = 0
    · rw [if_pos hz] at hreg
      exact hb.keep hs hreg (by rw [hz, hold])
    · rw [if_neg hz] at hreg
      refine hb.assign hs rfl (hfree hz) (fun _ => ?_) (fun g hgf hg0 => ?_) ?_
      · rw [hreg, HashMap.get_put_self]
      · rw [hreg, HashMap.get_put, if_neg hgf, hold, if_neg hg0]
      · rw [hreg, HashMap.get_put, if_neg (Ne.symm hz)]
        exact hb.zero_free
  refine ⟨h.valid.newEntry hi hs hbound hdel hreq hval hd hbond hact htot hfit, ?_⟩
  refine h.rules.writeEntry hs hdel hst (fun _ _ => ?_) (fun hin j hj => ?_)
  · unfold MAX_VALIDATOR_EFFECTIVE_STAKE_MULTIPLIER
    omega
  · rw [hi] at hj
    simp at hj

theorem Loads.tryBootstrapWithFingerprint (h : p.Loads) (hsound : p.BootstrapSound v amount f)
    (hop : p.tryBootstrapWithFingerprint v amount slot f = .ok (r, p')) : p'.Loads := by
  unfold StakePool.tryBootstrapWithFingerprint at hop
  unfold BootstrapSound at hsound
  split at hop
  · simp at hop
  · cases hi : p.stakes.get v with
    | some i =>
      grind [bootstrapExisting]
    | none =>
      rw [hi] at hsound
      simp only [hi, StakePool.bootstrapNew, ok_rules, Prod.mk.injEq, not_lt] at hop
      obtain ⟨hmin, -, rfl⟩ := hop
      obtain ⟨hmax, hroom⟩ := hsound hmin
      rw [U64.saturatingAdd_of_lt hroom]
      refine h.newEntry hi rfl (fun hne w hw => ?_) rfl rfl rfl rfl rfl rfl hmax
        (fun _ => hmin) rfl hroom
      grind [foreignOwner_eq_none]

/-! ## Remote entries -/

/-- The fields of an entry that validity and the epoch look at. -/
def core (i : StakeInfo) : Pubkey × Nat × Nat × Fingerprint :=
  (i.validator, i.amount, i.delegatedAmount, i.machineFingerprint)

section
variable (i e : StakeInfo)

theorem mergeDebt_core :
    core (mergeDebt i e) = core i ∧ (mergeDebt i e).blocksProduced = i.blocksProduced := by
  unfold mergeDebt
  split <;> exact ⟨rfl, rfl⟩

theorem mergeIndex_core :
    core (mergeIndex i e) = core i ∧ (mergeIndex i e).blocksProduced = i.blocksProduced := by
  unfold mergeIndex
  split
  · split <;> exact ⟨rfl, rfl⟩
  · exact ⟨rfl, rfl⟩

theorem mergeBlocks_core :
    core (mergeBlocks i e) = core i ∧ i.blocksProduced ≤ (mergeBlocks i e).blocksProduced := by
  unfold mergeBlocks
  split
  · rename_i hlt
    exact ⟨rfl, le_of_lt hlt⟩
  · exact ⟨rfl, le_refl _⟩

theorem mergeBoost_core :
    core (mergeBoost i e) = core i ∧ (mergeBoost i e).blocksProduced = i.blocksProduced := by
  unfold mergeBoost
  split <;> exact ⟨rfl, rfl⟩

theorem mergeAmount_core : core (mergeAmount i e)
        = (i.validator, max i.amount e.amount, i.delegatedAmount, i.machineFingerprint)
      ∧ (mergeAmount i e).blocksProduced = i.blocksProduced := by
  unfold mergeAmount
  split
  · rename_i hlt
    rw [Nat.max_eq_right (le_of_lt hlt)]
    exact ⟨rfl, rfl⟩
  · rename_i hle
    rw [Nat.max_eq_left (not_lt.mp hle)]
    exact ⟨rfl, rfl⟩

/-- A merge raises the bond to the larger one, and keeps the rest of what matters here. -/
theorem mergeEntry_core : core (mergeEntry i e)
        = (i.validator, max i.amount e.amount, i.delegatedAmount, i.machineFingerprint)
      ∧ i.blocksProduced ≤ (mergeEntry i e).blocksProduced := by
  have h1 := mergeAmount_core i e
  have h2 := mergeDebt_core (mergeAmount i e) e
  have h3 := mergeIndex_core (mergeDebt (mergeAmount i e) e) e
  have h4 := mergeBlocks_core (mergeIndex (mergeDebt (mergeAmount i e) e) e) e
  have h5 := mergeBoost_core (mergeBlocks (mergeIndex (mergeDebt (mergeAmount i e) e) e) e) e
  refine ⟨?_, ?_⟩
  · show core (mergeBoost _ e) = _
    rw [h5.1, h4.1, h3.1, h2.1, h1.1]
  · show i.blocksProduced ≤ (mergeBoost _ e).blocksProduced
    rw [h5.2]
    rw [h3.2, h2.2, h1.2] at h4
    exact h4.2

end

/-- What a remote entry needs.  Merged, its bond has to fit and, with Staking V2, to agree with the
    epoch.  Inserted, it has to be an entry that the pool could hold: no delegations, not active
    below the minimum, a fingerprint that nobody owns. -/
def UpsertSound (p : StakePool) (e : StakeInfo) : Prop :=
  match p.stakes.get e.validator with
  | some i =>
    (i.amount < e.amount →
      e.amount ≤ MAX_VALIDATOR_STAKE ∧ p.totalStaked + (e.amount - i.amount) < 2 ^ 64)
    ∧ p.Settled e.validator i (max i.amount e.amount)
  | none =>
    e.amount ≤ MAX_VALIDATOR_STAKE ∧ p.totalStaked + e.amount < 2 ^ 64
    ∧ e.delegatedAmount = 0 ∧ (e.isActive = true → MIN_VALIDATOR_STAKE ≤ e.amount)
    ∧ (e.machineFingerprint ≠ 0 → p.fingerprintRegistry.get e.machineFingerprint = none)

/-- A merge into a known entry keeps the pool loadable. -/
theorem Loads.mergeStake (h : p.Loads) (hi : p.stakes.get e.validator = some i)
    (hsound : p.UpsertSound e) : (p.upsertStakeFull e).Loads := by
  unfold UpsertSound at hsound
  rw [hi] at hsound
  obtain ⟨hraise, hset⟩ := hsound
  have hv := h.valid
  have hb := hv.bonded e.validator i hi
  have hfits := hv.fits
  obtain ⟨hcore, hblocks⟩ := mergeEntry_core i e
  obtain ⟨hval, hamt, hd, hfp⟩ : (mergeEntry i e).validator = i.validator
      ∧ (mergeEntry i e).amount = max i.amount e.amount
      ∧ (mergeEntry i e).delegatedAmount = i.delegatedAmount
      ∧ (mergeEntry i e).machineFingerprint = i.machineFingerprint := by
    simpa only [core, Prod.mk.injEq] using hcore
  have hmax : max i.amount e.amount ≤ MAX_VALIDATOR_STAKE := by
    by_cases hlt : i.amount < e.amount
    · have := (hraise hlt).1
      omega
    · omega
  have hroom : p.totalStaked + (max i.amount e.amount - i.amount) < 2 ^ 64 := by
    by_cases hlt : i.amount < e.amount
    · have := (hraise hlt).2
      omega
    · omega
  have htot : (p.upsertStakeFull e).totalStaked
      = p.totalStaked + (max i.amount e.amount - i.amount) := by
    unfold upsertStakeFull
    simp only [hi]
    by_cases hlt : i.amount < e.amount
    · rw [if_pos hlt, U64.saturatingAdd_of_lt (hraise hlt).2]
      omega
    · rw [if_neg hlt]
      omega
  have hraised : ∀ {f}, (p.upsertStakeFull e).stakes = p.stakes.put e.validator
      ({ mergeEntry i e with machineFingerprint := f } : StakeInfo).refresh →
      (p.upsertStakeFull e).Bound → (p.upsertStakeFull e).Loads := by
    intro f hs hbound
    refine h.raiseTo hi (Nat.le_max_left _ _) hmax hroom hset hs hbound hval hamt hd
      StakeInfo.minimum_of_refresh_active hblocks htot ?_ ?_ ?_
    all_goals
      unfold upsertStakeFull
      rw [hi]
  -- the fingerprint is taken over, or stays as it is
  cases hover : p.takesOver i e with
  | false =>
    have hup : (p.upsertStakeFull e).stakes = p.stakes.put e.validator (mergeEntry i e).refresh
        ∧ (p.upsertStakeFull e).fingerprintRegistry = p.fingerprintRegistry := by
      unfold upsertStakeFull
      simp [hi, hover]
    have hbound := hv.toBound.keep hup.1 hup.2 (by rw [fingerprintOf_of_get hi]; exact hfp)
    exact hraised hup.1 hbound
  | true =>
    have hup : (p.upsertStakeFull e).stakes = p.stakes.put e.validator
          ({ mergeEntry i e with machineFingerprint := e.machineFingerprint } : StakeInfo).refresh
        ∧ (p.upsertStakeFull e).fingerprintRegistry
          = p.fingerprintRegistry.put e.machineFingerprint e.validator := by
      unfold upsertStakeFull
      simp [hi, hover]
    unfold takesOver at hover
    rw [Bool.and_eq_true, decide_eq_true_eq, Option.isNone_iff_eq_none] at hover
    obtain ⟨⟨hempty, hne⟩, hforeign⟩ := hover
    have hbound : (p.upsertStakeFull e).Bound := by
      refine hv.toBound.assign hup.1 rfl (foreignOwner_eq_none hforeign) (fun _ => ?_)
        (fun g hgf hg0 => ?_) ?_
      · rw [hup.2]
        exact get_put_self _ _ _
      · rw [hup.2, get_put, fingerprintOf_of_get hi, hempty, if_neg hg0]
        exact if_neg hgf
      · rw [hup.2, get_put, if_neg (Ne.symm hne)]
        exact hv.toBound.zero_free
    exact hraised hup.1 hbound

theorem Loads.upsertStakeFull (h : p.Loads) (hsound : p.UpsertSound e) :
    (p.upsertStakeFull e).Loads := by
  cases hi : p.stakes.get e.validator with
  | some i => exact h.mergeStake hi hsound
  | none =>
    grind [UpsertSound, StakePool.upsertStakeFull, U64.saturatingAdd_of_lt, newEntry]

/-! ## Ghosts -/

theorem Loads.removeGhostValidators (h : p.Loads)
    (hidle : ∀ v i, p.stakes.get v = some i → isGhost slot grace i = true →
      i.delegatedAmount = 0 ∧ ¬ p.InEpoch v) : (p.removeGhostValidators slot grace).Loads := by
  have hvalid := h.valid.removeGhostValidators fun v i hi hg => (hidle v i hi hg).1
  refine ⟨hvalid, ?_⟩
  intro s hs
  have hs' : p.stakingV2State = some s := by
    rw [← hs]
    exact removeGhosts_epoch.symm
  obtain ⟨hcap, hepoch⟩ := h.rules s hs'
  refine ⟨fun w j hj => ?_, hepoch.frame (fun w a i ha hi => ?_) (fun w a _ => ?_)⟩
  · unfold StakePool.removeGhostValidators at hj
    rw [removeGhosts_stakes] at hj
    split at hj
    · simp at hj
    · exact hcap w j hj
  · refine ⟨i, ?_, rfl, rfl, le_refl _⟩
    unfold StakePool.removeGhostValidators
    rw [removeGhosts_stakes, if_neg, hi]
    intro hw
    obtain ⟨j, hj, hg⟩ := mem_ghosts.mp hw
    exact (hidle w j hj hg).2 ⟨s, a, hs', ha⟩
  · unfold StakePool.removeGhostValidators
    rw [removeGhosts_delegations]

end StakePool

/-! ## Runs -/

/-- The calls that write the registry. -/
inductive FingerprintCall where
  | registerFingerprint (validator : Pubkey) (fingerprint : Fingerprint)
  | migrateFingerprint (validator : Pubkey) (fingerprint : Fingerprint) (slot : Nat)
  | tryBootstrapWithFingerprint (validator : Pubkey) (amount slot : Nat) (fingerprint : Fingerprint)
  | upsertStakeFull (entry : StakeInfo)
  | removeGhostValidators (slot grace : Nat)

namespace FingerprintCall

/-- The pool after a call, unchanged by an error. -/
def run (p : StakePool) : FingerprintCall → StakePool
  | registerFingerprint v f => p.settleTo (p.registerFingerprint v f)
  | migrateFingerprint v f slot => p.settleTo (p.migrateFingerprint v f slot)
  | tryBootstrapWithFingerprint v amount slot f =>
    p.settleTo ((p.tryBootstrapWithFingerprint v amount slot f).map Prod.snd)
  | upsertStakeFull e => p.upsertStakeFull e
  | removeGhostValidators slot grace => p.removeGhostValidators slot grace

/-- What a call needs from the pool before it.  A fingerprint is registered for a staked validator
    that has none yet, and a migration needs nothing. -/
def Sound (p : StakePool) : FingerprintCall → Prop
  | registerFingerprint v f => ∃ i, p.stakes.get v = some i ∧ p.Unclaimed i f
  | migrateFingerprint _ _ _ => True
  | tryBootstrapWithFingerprint v amount _ f => p.BootstrapSound v amount f
  | upsertStakeFull e => p.UpsertSound e
  | removeGhostValidators slot grace => ∀ v i, p.stakes.get v = some i →
    StakePool.isGhost slot grace i = true → i.delegatedAmount = 0 ∧ ¬ p.InEpoch v

end FingerprintCall

theorem StakePool.Loads.settleTo {p : StakePool} (h : p.Loads)
    (hr : ∀ p', r = .ok p' → p'.Loads) : (p.settleTo r).Loads := by
  cases r with
  | ok p' => exact hr p' rfl
  | error e => exact h

/-- One sound call keeps a pool loadable. -/
theorem StakePool.Loads.fingerprintCall (h : p.Loads) (c : FingerprintCall)
    (hc : c.Sound p) : (c.run p).Loads := by
  cases c with
  | registerFingerprint v f =>
    obtain ⟨i, hi, hfree⟩ := hc
    exact h.settleTo fun p' hop => h.registerFingerprint hi hfree hop
  | migrateFingerprint v f slot => exact h.settleTo fun p' hop => h.migrateFingerprint hop
  | tryBootstrapWithFingerprint v amount slot f =>
    refine h.settleTo fun p' hop => ?_
    obtain ⟨r, hr, rfl⟩ := map_eq_ok.mp hop
    exact h.tryBootstrapWithFingerprint hc hr
  | upsertStakeFull e => exact h.upsertStakeFull hc
  | removeGhostValidators slot grace => exact h.removeGhostValidators hc

/-- The pools that sound calls lead to. -/
inductive FingerprintRun (p : StakePool) : StakePool → Prop
  | start : FingerprintRun p p
  | call {q : StakePool} (c : FingerprintCall) (run : FingerprintRun p q) (sound : c.Sound q) :
    FingerprintRun p (c.run q)

theorem FingerprintRun.loads (hp : p.Loads) (h : FingerprintRun p q) : q.Loads := by
  induction h with
  | start => exact hp
  | call c _ hc ih => exact ih.fingerprintCall c hc

/-- **The registry stays a bijection.**  In every pool that a run of sound calls reaches from one
    that loads, a fingerprint is registered to a validator exactly when its stake carries it; no two
    validators share one, and the pool still loads. -/
theorem fingerprints_stay_bound {codec : Bincode} {p q : StakePool}
    (hp : p.validateInvariants = .ok ())
    (hrules : p.stakingV2State.isSome = true → p.validateV2Rules = .ok ())
    (hrun : FingerprintRun p q) (hc : codec.RoundTrips q) :
    (∀ f v, f ≠ 0 → (q.fingerprintRegistry.get f = some v ↔
      ∃ i, q.stakes.get v = some i ∧ i.machineFingerprint = f))
    ∧ (∀ v w i j, q.stakes.get v = some i → q.stakes.get w = some j →
      i.machineFingerprint ≠ 0 → i.machineFingerprint = j.machineFingerprint → v = w)
    ∧ q.Reloads codec := by
  have hvalid := StakePool.validateInvariants_eq_ok.mp hp
  have hq : q.Loads := hrun.loads ⟨hvalid, hvalid.epochRules_iff.mpr hrules⟩
  have hb := hq.valid.toBound
  refine ⟨fun f v hf => ⟨fun hreg => (hb.carried f v hreg).2, ?_⟩, ?_, hq.reloads hc⟩
  · rintro ⟨i, hi, rfl⟩
    exact hb.owned v i hi hf
  · intro v w i j hi hj hne heq
    have hv := hb.owned v i hi hne
    rw [heq, hb.owned w j hj (heq ▸ hne)] at hv
    exact (Option.some.inj hv).symm

section

/-- A pool with one validator, idle since slot 0 and without stake, on machine 5. -/
private def idle : StakePool :=
  { StakePool.new with
    stakes := (∅ : HashMap Pubkey StakeInfo).put ⟨1⟩
      { StakeInfo.new ⟨1⟩ 0 0 with machineFingerprint := 5 }
    fingerprintRegistry := (∅ : HashMap Fingerprint Pubkey).put 5 ⟨1⟩ }

private def migrated : StakePool := FingerprintCall.run idle (.migrateFingerprint ⟨1⟩ 6 3)

private def emptied : StakePool := FingerprintCall.run migrated (.removeGhostValidators 20 10)

/-- Its validator moves to another machine and is then removed as a ghost. -/
theorem fingerprints_stay_bound_migration :
    migrated.fingerprintRegistry.get 6 = some ⟨1⟩ ∧ emptied = StakePool.new
      ∧ emptied.Reloads emptyPoolCodec := by
  have hnone : emptied = StakePool.new := by rfl
  have hrun : FingerprintRun idle emptied := by
    refine .call _ (.call _ .start trivial) fun v i hi _ => ?_
    have hget : v = ⟨1⟩ ∧ i = { StakeInfo.new ⟨1⟩ 0 0 with
        machineFingerprint := 6, lastMigrationSlot := 3 } := by
      have hstakes : migrated.stakes = (∅ : HashMap Pubkey StakeInfo).put ⟨1⟩
        { StakeInfo.new ⟨1⟩ 0 0 with machineFingerprint := 6, lastMigrationSlot := 3 } := by rfl
      have hi' : migrated.stakes.get v = some i := hi
      rw [hstakes] at hi'
      rcases get_put_cases hi' with hnew | ⟨-, hold⟩
      · exact hnew
      · exact nomatch hold
    refine ⟨by rw [hget.2]; rfl, ?_⟩
    rintro ⟨s, a, hs, -⟩
    have hlegacy : migrated.stakingV2State = none := by rfl
    rw [hlegacy] at hs
    simp at hs
  have hc : emptyPoolCodec.RoundTrips emptied := by
    rw [hnone]
    exact ⟨fun _ => rfl, fun _ => by decide, fun hne => absurd rfl hne⟩
  refine ⟨by decide +kernel, hnone, ?_⟩
  exact (fingerprints_stay_bound (by decide +kernel) (by decide) hrun hc).2.2

/-- A validator registers machine 5 and then machine 6: machine 5 stays registered to it, and the
    pool does not load any more. -/
theorem registerFingerprint_twice_leaves_stale_owner :
    let v : Pubkey := ⟨1⟩
    let before := PoolCall.run StakePool.new (.stake v MIN_VALIDATOR_STAKE 0)
    let after := [FingerprintCall.registerFingerprint v 5, .registerFingerprint v 6].foldl
      FingerprintCall.run before
    before.validateInvariants = .ok () ∧ before.stakes.containsKey v = true
      ∧ after.fingerprintRegistry.get 5 = some v
      ∧ (after.stakes.get v).map StakeInfo.machineFingerprint = some 6
      ∧ after.validateInvariants ≠ .ok () := by
  decide +kernel

end
end Lichen.Staking
