/-
  The pool's redundant totals under its own operations.

  Every operation on one entry keeps a valid pool valid as long as the network total it writes is
  the exact one (`Valid.setEntry`, `Valid.newEntry`): the additions to `totalStaked` saturate, so
  that is a question of room.  `remove_ghost_validators` is the exception: it takes the self-bond of
  a removed validator out of the total, which is nothing, and leaves its delegations and their share
  of the total behind.  A pool with such an orphaned delegation map is written to disk and refused
  when it is read.
-/
import Lichen.Staking.Valid

open Base HashMap
namespace Lichen.Staking

/-! ## Entries -/

theorem StakeInfo.totalStake_eq {i : StakeInfo} (h : i.amount + i.delegatedAmount < 2 ^ 64) :
    i.totalStake = i.amount + i.delegatedAmount :=
  U64.saturatingAdd_of_lt h

section
variable (i : StakeInfo)

@[simp] theorem StakeInfo.refresh_amount : i.refresh.amount = i.amount := rfl

@[simp] theorem StakeInfo.refresh_delegatedAmount :
    i.refresh.delegatedAmount = i.delegatedAmount := rfl

/-- A refreshed entry is active exactly when its stake meets the minimum. -/
theorem StakeInfo.refresh_isActive_iff :
    i.refresh.isActive = true ↔ MIN_VALIDATOR_STAKE ≤ i.amount + i.delegatedAmount := by
  show decide (MIN_VALIDATOR_STAKE ≤ i.totalStake) = true ↔ _
  rw [decide_eq_true_eq]
  unfold StakeInfo.totalStake U64.saturatingAdd U64.MAX MIN_VALIDATOR_STAKE
  omega

end

theorem StakeInfo.minimum_of_refresh_active {i : StakeInfo} (h : i.refresh.isActive = true) :
    MIN_VALIDATOR_STAKE ≤ i.amount + i.delegatedAmount :=
  i.refresh_isActive_iff.mp h

namespace StakePool

variable {p p' : StakePool} {v : Pubkey} {i i' : StakeInfo}

/-! ## Changing one entry -/

section
variable (h : p.Valid) (hi : p.stakes.get v = some i)
include h hi

theorem Valid.share_le : i.amount + i.delegatedAmount ≤ p.totalStaked := by
  rw [h.totals]
  exact le_sumBy_of_get (fun _ i => i.amount + i.delegatedAmount) hi

theorem Valid.effective_lt : i.amount + i.delegatedAmount < 2 ^ 64 :=
  lt_of_le_of_lt (h.share_le hi) h.fits

theorem Valid.totalStake_eq : i.totalStake = i.amount + i.delegatedAmount :=
  StakeInfo.totalStake_eq (h.effective_lt hi)

end

theorem Valid.delegationsOk (h : p.Valid) (v : Pubkey) : p.DelegationsOk v :=
  fun m hm => ⟨h.nonempty v m hm, fun d a => h.entries v m d a hm⟩

/-- The keys and amounts of the pending exits as they have to be. -/
def RequestsOk (p : StakePool) : Prop :=
  ∀ v s r, p.unstakeRequests.get (v, s) = some r → r.validator = v ∧ r.staker = s ∧ 0 < r.amount

/-- The fingerprint that the stake of `v` carries, zero without one. -/
def fingerprintOf (p : StakePool) (v : Pubkey) : Fingerprint :=
  ((p.stakes.get v).map StakeInfo.machineFingerprint).getD 0

theorem fingerprintOf_of_get (hi : p.stakes.get v = some i) :
    p.fingerprintOf v = i.machineFingerprint := by
  unfold fingerprintOf
  rw [hi]
  rfl

theorem fingerprintOf_of_none (hi : p.stakes.get v = none) : p.fingerprintOf v = 0 := by
  unfold fingerprintOf
  rw [hi]
  rfl

/-- Registered to `v` is what `v` carries. -/
theorem Bound.fingerprintOf_eq (h : p.Bound)
    (hf : p.fingerprintRegistry.get f = some v) : p.fingerprintOf v = f := by
  obtain ⟨-, i, hi, hif⟩ := h.carried f v hf
  rw [fingerprintOf_of_get hi, hif]

theorem Bound.registered (h : p.Bound) (hne : p.fingerprintOf v ≠ 0) :
    p.fingerprintRegistry.get (p.fingerprintOf v) = some v := by
  cases hi : p.stakes.get v with
  | none => exact absurd (fingerprintOf_of_none hi) hne
  | some i =>
    rw [fingerprintOf_of_get hi] at hne ⊢
    exact h.owned v i hi hne

/-- **Reassigning a fingerprint.**  The entry of `v` now carries `f`, free or its own until now; the
    registry has `f` for `v`, and what `v` carried before is gone from it. -/
theorem Bound.assign (h : p.Bound) (hs : p'.stakes = p.stakes.put v i')
    (hf : i'.machineFingerprint = f)
    (hfree : ∀ w, p.fingerprintRegistry.get f = some w → w = v)
    (hnew : f ≠ 0 → p'.fingerprintRegistry.get f = some v)
    (hold : ∀ g, g ≠ f → g ≠ 0 → p'.fingerprintRegistry.get g
      = if g = p.fingerprintOf v then none else p.fingerprintRegistry.get g)
    (hzero : p'.fingerprintRegistry.get 0 = none) : p'.Bound := by
  have hget := get_of_eq_put hs
  constructor
  · intro w j hj hne
    rw [hget] at hj
    split at hj
    · rename_i hw
      cases hj
      rw [hf] at hne ⊢
      rw [hw]
      exact hnew hne
    · rename_i hw
      have hreg := h.owned w j hj hne
      have hjf : j.machineFingerprint ≠ f := fun heq => hw (hfree w (heq ▸ hreg))
      rw [hold _ hjf hne, if_neg, hreg]
      intro heq
      have hv := h.registered (v := v) (heq ▸ hne)
      rw [← heq, hreg] at hv
      exact hw (Option.some.inj hv)
  · intro g w hg
    have hg0 : g ≠ 0 := by
      rintro rfl
      rw [hzero] at hg
      simp at hg
    refine ⟨hg0, ?_⟩
    by_cases hgf : g = f
    · rw [hgf] at hg hg0
      rw [hnew hg0] at hg
      obtain rfl := Option.some.inj hg
      exact ⟨i', by rw [hget, if_pos rfl], by rw [hf, hgf]⟩
    · rw [hold g hgf hg0] at hg
      split at hg
      · simp at hg
      · rename_i hne
        obtain ⟨-, j, hj, hjg⟩ := h.carried g w hg
        have hw : w ≠ v := by
          rintro rfl
          exact hne (h.fingerprintOf_eq hg).symm
        exact ⟨j, by rw [hget, if_neg hw, hj], hjg⟩

/-- The zero fingerprint is never registered. -/
theorem Bound.zero_free (h : p.Bound) : p.fingerprintRegistry.get 0 = none := by
  cases hz : p.fingerprintRegistry.get 0 with
  | none => rfl
  | some w => exact absurd rfl (h.carried 0 w hz).1

/-- The entry of `v` changes, its fingerprint does not. -/
theorem Bound.keep (h : p.Bound) (hs : p'.stakes = p.stakes.put v i')
    (hreg : p'.fingerprintRegistry = p.fingerprintRegistry)
    (hfp : i'.machineFingerprint = p.fingerprintOf v) : p'.Bound := by
  grind [assign, registered, zero_free]

/-- What an entry adds to the network total. -/
def weightOf (p : StakePool) (v : Pubkey) : Nat :=
  p.stakes.share (fun _ i => i.amount + i.delegatedAmount) v

/-- Writing one entry, with everything the totals owe to the change. -/
theorem Valid.writeEntry (h : p.Valid) (hs : p'.stakes = p.stakes.put v i') (hbound : p'.Bound)
    (hval : i'.validator = v) (hbond : i'.amount ≤ MAX_VALIDATOR_STAKE)
    (hact : i'.isActive = true → MIN_VALIDATOR_STAKE ≤ i'.amount + i'.delegatedAmount)
    (htot : p'.totalStaked + p.weightOf v = p.totalStaked + (i'.amount + i'.delegatedAmount))
    (hfit : p'.totalStaked < 2 ^ 64)
    (hdel : ∀ w, w ≠ v → p'.delegations.get w = p.delegations.get w)
    (hdv : i'.delegatedAmount = p'.delegatedTo v) (hmap : p'.DelegationsOk v)
    (hreq : p'.RequestsOk) : p'.Valid := by
  have hget := get_of_eq_put hs
  have hto : ∀ w, w ≠ v → p'.delegatedTo w = p.delegatedTo w := by
    intro w hw
    unfold delegatedTo delegationsOf
    rw [hdel w hw]
  -- an entry of the new pool is the new one or an old one
  have hcases : ∀ w j, p'.stakes.get w = some j →
      (w = v ∧ j = i') ∨ (w ≠ v ∧ p.stakes.get w = some j) := by
    intro w j hj
    rw [hget] at hj
    split at hj
    · grind
    · rename_i hw
      exact .inr ⟨hw, hj⟩
  refine
    { toBound := hbound, totals := ?_, delegated := ?_, known := ?_, active := ?_
      fits := hfit, keyed := ?_, bonded := ?_, nonempty := ?_, entries := ?_, requests := hreq }
  · have hsum := sumBy_put p.stakes (fun _ i => i.amount + i.delegatedAmount) v i'
    have hold := h.totals
    grind [weightOf, bondedTotal]
  · intro w j hj
    rcases hcases w j hj with ⟨rfl, rfl⟩ | ⟨hw, hj⟩
    · exact hdv
    · rw [hto w hw]
      exact h.delegated w j hj
  · intro w m hm
    by_cases hw : w = v
    · exact ⟨i', by rw [hget, if_pos hw]⟩
    · rw [hdel w hw] at hm
      obtain ⟨j, hj⟩ := h.known w m hm
      exact ⟨j, by rw [hget, if_neg hw, hj]⟩
  · intro w j hj
    rcases hcases w j hj with ⟨rfl, rfl⟩ | ⟨hw, hj⟩
    · exact hact
    · exact h.active w j hj
  · grind [keyed]
  · grind [bonded]
  · intro w m hm
    by_cases hw : w = v
    · subst hw
      exact (hmap m hm).1
    · rw [hdel w hw] at hm
      exact h.nonempty w m hm
  · intro w m d a hm
    by_cases hw : w = v
    · subst hw
      exact (hmap m hm).2 d a
    · rw [hdel w hw] at hm
      exact h.entries w m d a hm

theorem Valid.requests_kept (h : p.Valid) (hreq : p'.unstakeRequests = p.unstakeRequests) :
    p'.RequestsOk := by
  intro w s r hr
  rw [hreq] at hr
  exact h.requests w s r hr

section
variable (h : p.Valid) (hi : p.stakes.get v = some i) (hs : p'.stakes = p.stakes.put v i')
  (hval : i'.validator = i.validator) (hbond : i'.amount ≤ MAX_VALIDATOR_STAKE)
  (hact : i'.isActive = true → MIN_VALIDATOR_STAKE ≤ i'.amount + i'.delegatedAmount)
include h hi hs hval hbond hact

/-- Replacing an entry. -/
theorem Valid.setEntry (hreg : p'.fingerprintRegistry = p.fingerprintRegistry)
    (hfp : i'.machineFingerprint = i.machineFingerprint)
    (htot : p'.totalStaked + (i.amount + i.delegatedAmount)
      = p.totalStaked + (i'.amount + i'.delegatedAmount))
    (hfit : p'.totalStaked < 2 ^ 64)
    (hdel : ∀ w, w ≠ v → p'.delegations.get w = p.delegations.get w)
    (hdv : i'.delegatedAmount = p'.delegatedTo v) (hmap : p'.DelegationsOk v)
    (hreq : p'.RequestsOk) : p'.Valid := by
  have hbound : p'.Bound := h.toBound.keep hs hreg (by rw [hfp, fingerprintOf_of_get hi])
  have hweight : p.weightOf v = i.amount + i.delegatedAmount := share_of_get hi
  grind [writeEntry, keyed]

variable (hdel : p'.delegations = p.delegations) (hd : i'.delegatedAmount = i.delegatedAmount)
  (htot : p'.totalStaked + i.amount = p.totalStaked + i'.amount)
  (hfit : p'.totalStaked < 2 ^ 64) (hreq : p'.RequestsOk)
include hdel hd htot hfit hreq

/-- A self-bond changes, delegations stay; what is known of the fingerprints is in `hbound`. -/
theorem Valid.writeBond (hbound : p'.Bound) : p'.Valid := by
  have hweight : p.weightOf v = i.amount + i.delegatedAmount := share_of_get hi
  refine h.writeEntry hs hbound (by rw [hval, h.keyed v i hi]) hbond hact (by omega) hfit
    (fun w _ => by rw [hdel]) ?_ ?_ hreq
  · rw [hd, h.delegated v i hi]
    unfold delegatedTo delegationsOf
    rw [hdel]
  · intro m hm
    rw [hdel] at hm
    exact h.delegationsOk v m hm

/-- A self-bond changes, delegations and fingerprints stay. -/
theorem Valid.setBond (hreg : p'.fingerprintRegistry = p.fingerprintRegistry)
    (hfp : i'.machineFingerprint = i.machineFingerprint) : p'.Valid := by
  have hbound : p'.Bound := h.toBound.keep hs hreg (by rw [hfp, fingerprintOf_of_get hi])
  exact h.writeBond hi hs hval hbond hact hdel hd htot hfit hreq hbound

end

/-- An unknown validator has no delegations. -/
theorem Valid.delegations_unknown (h : p.Valid) (hi : p.stakes.get v = none) :
    p.delegations.get v = none := by
  cases hm : p.delegations.get v with
  | none => rfl
  | some m =>
    obtain ⟨j, hj⟩ := h.known v m hm
    rw [hi] at hj
    simp at hj

/-- A new entry without delegations. -/
theorem Valid.newEntry (h : p.Valid) (hi : p.stakes.get v = none)
    (hs : p'.stakes = p.stakes.put v i') (hbound : p'.Bound)
    (hdel : p'.delegations = p.delegations) (hreq : p'.unstakeRequests = p.unstakeRequests)
    (hval : i'.validator = v) (hd : i'.delegatedAmount = 0)
    (hbond : i'.amount ≤ MAX_VALIDATOR_STAKE)
    (hact : i'.isActive = true → MIN_VALIDATOR_STAKE ≤ i'.amount)
    (htot : p'.totalStaked = p.totalStaked + i'.amount) (hfit : p'.totalStaked < 2 ^ 64) :
    p'.Valid := by
  have hnone := h.delegations_unknown hi
  have hweight : p.weightOf v = 0 := share_of_none hi
  refine h.writeEntry hs hbound hval hbond (fun hi' => ?_) (by omega) hfit (fun w _ => by rw [hdel])
    ?_ ?_ (h.requests_kept hreq)
  · exact le_trans (hact hi') (Nat.le_add_right _ _)
  · unfold delegatedTo delegationsOf
    rw [hd, hdel, hnone]
    rfl
  · intro m hm
    rw [hdel, hnone] at hm
    simp at hm

/-! ## Changing one delegation -/

section
variable (p : StakePool) (v d : Pubkey)

theorem delegation_eq : p.delegation v d = ((p.delegationsOf v).get d).getD 0 := by
  unfold delegation delegationsOf
  cases p.delegations.get v <;> simp

theorem share_delegation : (p.delegationsOf v).share (fun _ a => a) d = p.delegation v d := by
  rw [delegation_eq]
  unfold HashMap.share
  simp

/-- One delegation is part of what the validator was delegated. -/
theorem delegation_le_delegatedTo : p.delegation v d ≤ p.delegatedTo v := by
  rw [← share_delegation]
  exact share_le_sumBy _ _ _

end

variable {d : Pubkey}

/-- A positive delegation has its entry. -/
theorem exists_entry_of_delegation_pos (h : 0 < p.delegation v d) :
    ∃ m, p.delegations.get v = some m ∧ m.get d = some (p.delegation v d) := by
  unfold delegation at h ⊢
  cases hm : p.delegations.get v with
  | none => simp [hm] at h
  | some m =>
    cases hd : m.get d with
    | none => simp [hm, hd] at h
    | some x => exact ⟨m, rfl, by simp [hd]⟩

/-- What `withoutDelegation` leaves of a delegation map. -/
def lessEntry (m : HashMap Pubkey Nat) (d : Pubkey) (x amount : Nat) : HashMap Pubkey Nat :=
  if x - amount = 0 then m.remove d else m.put d (x - amount)

variable {amount : Nat}

theorem get_lessEntry : ((lessEntry m d x amount).get e).getD 0
      = if e = d then x - amount else (m.get e).getD 0 := by
  grind [lessEntry]

theorem sumBy_lessEntry (hd : m.get d = some x) (hle : amount ≤ x) :
    (lessEntry m d x amount).sumBy (fun _ a => a) + amount = m.sumBy fun _ a => a := by
  grind [lessEntry, sumBy_remove, share_of_get, sumBy_put]

theorem withoutDelegation_eq (hm : p.delegations.get v = some m) (hd : m.get d = some x) :
    p.withoutDelegation v d amount =
      if (lessEntry m d x amount).isEmpty = true then p.delegations.remove v
      else p.delegations.put v (lessEntry m d x amount) := by
  unfold withoutDelegation lessEntry
  rw [hm]
  simp only [hd]

/-- Taking `amount` out of one delegation. -/
structure LessDelegation (p p' : StakePool) (v d : Pubkey) (amount : Nat) : Prop where
  others : ∀ w, w ≠ v → p'.delegations.get w = p.delegations.get w
  total : p'.delegatedTo v + amount = p.delegatedTo v
  ok : p'.DelegationsOk v
  entry : ∀ e, p'.delegation v e = if e = d then p.delegation v d - amount else p.delegation v e

/-- Taking from one delegation leaves the others. -/
theorem Valid.lessDelegation (h : p.Valid) (hpos : 0 < amount) (hle : amount ≤ p.delegation v d)
    (hp' : p'.delegations = p.withoutDelegation v d amount) : LessDelegation p p' v d amount := by
  obtain ⟨m, hm, hd⟩ := exists_entry_of_delegation_pos (lt_of_lt_of_le hpos hle)
  rw [withoutDelegation_eq hm hd] at hp'
  have hof : p.delegationsOf v = m := by
    unfold delegationsOf
    rw [hm]
    rfl
  -- the map left at `v`, whether it was kept or dropped for being empty
  have hget : ∀ e, (p'.delegationsOf v).get e = (lessEntry m d (p.delegation v d) amount).get e := by
    intro e
    unfold delegationsOf
    rw [hp']
    split
    · rename_i hemp
      rw [get_remove_self, isEmpty_iff.mp hemp e]
      rfl
    · rw [get_put_self]
      rfl
  refine ⟨?_, ?_, ?_, ?_⟩
  · grind
  · unfold delegatedTo
    rw [sumBy_congr_get hget, hof]
    exact sumBy_lessEntry hd hle
  · intro m' hm'
    rw [hp'] at hm'
    split at hm'
    · grind
    · rename_i hemp
      rw [get_put_self] at hm'
      obtain rfl := Option.some.inj hm'
      refine ⟨Bool.eq_false_iff.mpr hemp, ?_⟩
      intro e a he
      unfold lessEntry at he
      split at he
      · rw [get_remove] at he
        split at he
        · simp at he
        · exact h.entries v m e a hm he
      · rename_i hx
        rw [get_put] at he
        split at he
        · rename_i hed
          obtain rfl := Option.some.inj he
          subst hed
          exact ⟨(h.entries v m e _ hm hd).1, Nat.pos_of_ne_zero hx⟩
        · exact h.entries v m e a hm he
  · grind [delegation_eq, get_lessEntry]

/-- Adding `amount` to one delegation. -/
structure MoreDelegation (p p' : StakePool) (v d : Pubkey) (amount : Nat) : Prop where
  others : ∀ w, w ≠ v → p'.delegations.get w = p.delegations.get w
  total : p'.delegatedTo v = p.delegatedTo v + amount
  ok : p'.DelegationsOk v
  entry : ∀ e, p'.delegation v e = if e = d then p.delegation v d + amount else p.delegation v e

theorem Valid.moreDelegation (h : p.Valid) (hpos : 0 < amount) (hne : d ≠ v)
    (hp' : p'.delegations = p.delegations.put v
      ((p.delegationsOf v).put d (p.delegation v d + amount))) :
    MoreDelegation p p' v d amount := by
  have hof : p'.delegationsOf v = (p.delegationsOf v).put d (p.delegation v d + amount) := by
    unfold delegationsOf
    rw [hp', get_put_self]
    rfl
  refine ⟨?_, ?_, ?_, ?_⟩
  · intro w hw
    rw [hp']
    exact get_put_ne _ _ hw
  · have hsum := sumBy_put (p.delegationsOf v) (fun _ a => a) d (p.delegation v d + amount)
    grind [share_delegation, delegatedTo]
  · intro m' hm'
    have hm'' : m' = (p.delegationsOf v).put d (p.delegation v d + amount) := by
      rw [← hof]
      unfold delegationsOf
      rw [hm']
      rfl
    subst hm''
    refine ⟨isEmpty_eq_false_of_get (get_put_self _ d _), ?_⟩
    intro e a he
    rw [get_put] at he
    split at he
    · grind
    · cases hm : p.delegations.get v with
      | none =>
        grind [delegationsOf]
      | some m =>
        unfold delegationsOf at he
        rw [hm] at he
        exact h.entries v m e a hm he
  · grind [delegation_eq]

/-! ## What the operations do -/

/-- The self-bond of a validator, zero without an entry. -/
def bond (p : StakePool) (v : Pubkey) : Nat := ((p.stakes.get v).map StakeInfo.amount).getD 0

theorem bond_of_get (hi : p.stakes.get v = some i) : p.bond v = i.amount := by
  unfold bond
  rw [hi]
  rfl

theorem bond_of_none (hi : p.stakes.get v = none) : p.bond v = 0 := by
  unfold bond
  rw [hi]
  rfl

theorem saturatingAdd_bond_le :
    U64.saturatingAdd a b ≤ MAX_VALIDATOR_STAKE ↔ a + b ≤ MAX_VALIDATOR_STAKE := by
  unfold U64.saturatingAdd U64.MAX MAX_VALIDATOR_STAKE
  omega

theorem saturatingAdd_bond (h : a + b ≤ MAX_VALIDATOR_STAKE) : U64.saturatingAdd a b = a + b := by
  refine U64.saturatingAdd_of_lt ?_
  unfold MAX_VALIDATOR_STAKE at h
  omega

theorem stakeWithIndex_eq_ok : p.stakeWithIndex v amount slot index = .ok p' ↔
      MIN_VALIDATOR_STAKE ≤ amount ∧ p.bond v + amount ≤ MAX_VALIDATOR_STAKE ∧
      p' = { p with
        stakes := p.stakes.put v (match p.stakes.get v with
          | some i => ({ i with amount := i.amount + amount } : StakeInfo).refresh
          | none => StakeInfo.withBootstrapIndex v amount slot index)
        totalStaked := U64.saturatingAdd p.totalStaked amount } := by
  unfold stakeWithIndex
  cases hi : p.stakes.get v with
  | none =>
    simp only [ok_rules, not_lt, bond_of_none hi, zero_add]
    exact and_congr_right' (and_congr_right' eq_comm)
  | some i =>
    simp only [ok_rules, not_lt, bond_of_get hi, saturatingAdd_bond_le]
    grind [saturatingAdd_bond]

theorem addValidatorStake_eq_ok : p.addValidatorStake v amount = .ok p' ↔
      ∃ i, p.stakes.get v = some i ∧ i.isFullyVested = true
        ∧ amount ≤ MAX_VALIDATOR_STAKE - i.amount
        ∧ p' = { p with
          stakes := p.stakes.put v { i with amount := U64.saturatingAdd i.amount amount }
          totalStaked := U64.saturatingAdd p.totalStaked amount } := by
  unfold addValidatorStake StakeInfo.addStake
  simp only [ok_rules]
  grind [U64.saturatingSub]

theorem topUpStake_eq_ok : p.topUpStake v amount = .ok p' ↔
      ∃ i, p.stakes.get v = some i ∧ amount ≠ 0 ∧ amount ≤ MAX_VALIDATOR_STAKE - i.amount
        ∧ p' = { p with
          stakes := p.stakes.put v
            ({ i with amount := U64.saturatingAdd i.amount amount } : StakeInfo).refresh
          totalStaked := U64.saturatingAdd p.totalStaked amount } := by
  unfold topUpStake StakeInfo.topUpStake
  simp only [ok_rules]
  grind [U64.saturatingSub]

theorem delegate_eq_ok (h : p.delegate d v amount = .ok p') :
    ∃ i, p.stakes.get v = some i ∧ 0 < amount ∧ p.totalStaked + amount < 2 ^ 64
      ∧ p' = { p with
        stakes := p.stakes.put v
          ({ i with delegatedAmount := i.delegatedAmount + amount } : StakeInfo).refresh
        totalStaked := p.totalStaked + amount
        delegations := p.delegations.put v
          ((p.delegationsOf v).put d (p.delegation v d + amount)) } := by
  unfold delegate at h
  simp only [ok_rules] at h
  grind [delegationsOf]

theorem requestDelegationUnstake_eq_ok : p.requestDelegationUnstake d v amount slot = .ok p' ↔
      0 < amount ∧ p.unstakeRequests.get (v, d) = none ∧ amount ≤ p.delegation v d
        ∧ slot + UNSTAKE_COOLDOWN_SLOTS < 2 ^ 64
        ∧ ∃ i, p.stakes.get v = some i ∧ amount ≤ i.delegatedAmount
        ∧ p' = { p with
          stakes := p.stakes.put v
            ({ i with delegatedAmount := i.delegatedAmount - amount } : StakeInfo).refresh
          totalStaked := p.totalStaked - amount
          delegations := p.withoutDelegation v d amount
          unstakeRequests := p.unstakeRequests.put (v, d)
            ⟨v, d, amount, slot + UNSTAKE_COOLDOWN_SLOTS⟩ } := by
  unfold requestDelegationUnstake undelegate
  simp only [ok_rules]
  simp only [not_lt, U64.saturatingSub, HashMap.containsKey,
    Option.not_isSome_iff_eq_none, ← pos_iff_ne_zero]
  grind

theorem requestUnstake_eq_ok : p.requestUnstake v amount slot s = .ok p' ↔
      ∃ i, p.stakes.get v = some i ∧ p.unstakeRequests.get (v, s) = none
        ∧ i.isFullyVested = true ∧ 0 < amount ∧ amount ≤ i.amount
        ∧ slot + UNSTAKE_COOLDOWN_SLOTS < 2 ^ 64
        ∧ p' = { p with
          unstakeRequests := p.unstakeRequests.put (v, s)
            ⟨i.validator, s, amount, slot + UNSTAKE_COOLDOWN_SLOTS⟩
          stakes := p.stakes.put v ({ i with amount := i.amount - amount } : StakeInfo).refresh
          totalStaked := p.totalStaked - amount } := by
  unfold requestUnstake StakeInfo.requestUnstake
  simp only [ok_rules]
  simp only [not_lt, U64.saturatingSub, HashMap.containsKey,
    Option.not_isSome_iff_eq_none, not_or, Bool.not_eq_false, ← pos_iff_ne_zero]
  grind

theorem claimUnstake_eq_ok : p.claimUnstake v slot s = .ok (amount, p') ↔
      ∃ r, p.unstakeRequests.get (v, s) = some r ∧ r.unlockSlot ≤ slot ∧ amount = r.amount
        ∧ p' = { p with unstakeRequests := p.unstakeRequests.remove (v, s) } := by
  grind [claimUnstake, exists_unit]

theorem StakeInfo.slash_spec (i : StakeInfo) (amount : Nat) :
    (i.slash amount).2 = min amount i.amount
      ∧ (i.slash amount).1.amount = i.amount - min amount i.amount
      ∧ (i.slash amount).1.validator = i.validator
      ∧ (i.slash amount).1.delegatedAmount = i.delegatedAmount
      ∧ (i.slash amount).1.machineFingerprint = i.machineFingerprint
      ∧ ((i.slash amount).1.isActive = true → i.isActive = true ∨
          MIN_VALIDATOR_STAKE ≤ (i.slash amount).1.amount + (i.slash amount).1.delegatedAmount)
      ∧ (min amount i.amount = 0 → (i.slash amount).1 = i) := by
  unfold StakeInfo.slash
  by_cases hz : min amount i.amount = 0 ∨ i.amount = 0
  · grind
  · rw [if_neg hz]
    refine ⟨rfl, rfl, rfl, rfl, rfl, fun h => .inr (StakeInfo.minimum_of_refresh_active h),
      fun h => absurd (.inl h) hz⟩

end StakePool
end Lichen.Staking
