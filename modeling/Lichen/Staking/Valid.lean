/-
  What a pool that passes `validate_invariants` looks like.

  `StakePool.Ledger` is the bookkeeping: the network total, the delegated totals, known validators
  and the minimum of an active one.  `StakePool.Valid` adds the rest of the checks, and
  `validateInvariants_eq_ok` says that the function accepts exactly the valid pools; from here on
  no proof looks into its loops again.
-/
import Lichen.Staking.Equivocation

open Base HashMap
namespace Lichen.Staking
namespace StakePool

/-! ## The bookkeeping -/

/-- The delegation map of a validator. -/
def delegationsOf (p : StakePool) (validator : Pubkey) : HashMap Pubkey Nat :=
  (p.delegations.get validator).getD ∅

/-- What is delegated to a validator, entry by entry. -/
def delegatedTo (p : StakePool) (validator : Pubkey) : Nat :=
  (p.delegationsOf validator).sumBy fun _ amount => amount

/-- The network total, entry by entry. -/
def bondedTotal (p : StakePool) : Nat := p.stakes.sumBy fun _ i => i.amount + i.delegatedAmount

/-- The redundant totals of a pool agree with its entries. -/
structure Ledger (p : StakePool) : Prop where
  totals : p.totalStaked = p.bondedTotal
  delegated : ∀ v i, p.stakes.get v = some i → i.delegatedAmount = p.delegatedTo v
  known : ∀ v m, p.delegations.get v = some m → ∃ i, p.stakes.get v = some i
  active : ∀ v i, p.stakes.get v = some i → i.isActive = true →
    MIN_VALIDATOR_STAKE ≤ i.amount + i.delegatedAmount

/-- A non-zero fingerprint is registered to a validator exactly when its stake carries it. -/
structure Bound (p : StakePool) : Prop where
  owned : ∀ v i, p.stakes.get v = some i → i.machineFingerprint ≠ 0 →
    p.fingerprintRegistry.get i.machineFingerprint = some v
  carried : ∀ f v, p.fingerprintRegistry.get f = some v →
    f ≠ 0 ∧ ∃ i, p.stakes.get v = some i ∧ i.machineFingerprint = f

/-- A pool that a node can load. -/
structure Valid (p : StakePool) : Prop extends Ledger p, Bound p where
  fits : p.totalStaked < 2 ^ 64
  keyed : ∀ v i, p.stakes.get v = some i → i.validator = v
  bonded : ∀ v i, p.stakes.get v = some i → i.amount ≤ MAX_VALIDATOR_STAKE
  nonempty : ∀ v m, p.delegations.get v = some m → m.isEmpty = false
  entries : ∀ v m d a, p.delegations.get v = some m → m.get d = some a → d ≠ v ∧ 0 < a
  requests : ∀ v s r, p.unstakeRequests.get (v, s) = some r →
    r.validator = v ∧ r.staker = s ∧ 0 < r.amount

/-! ## The loops of `validate_invariants` -/

/-- What the check of one delegation map asks. -/
def DelegationsOk (p : StakePool) (validator : Pubkey) : Prop :=
  ∀ m, p.delegations.get validator = some m →
    m.isEmpty = false ∧ ∀ d a, m.get d = some a → d ≠ validator ∧ 0 < a

variable {p : StakePool}

theorem checkDelegations_eq_ok : p.checkDelegations v = .ok t ↔
      p.DelegationsOk v ∧ p.delegatedTo v < 2 ^ 64 ∧ t = p.delegatedTo v := by
  unfold checkDelegations DelegationsOk delegatedTo delegationsOf
  cases hm : p.delegations.get v with
  | none =>
    simp only [Except.ok.injEq, Option.getD_none, sumBy_empty]
    exact ⟨fun h => ⟨fun m hm => by simp at hm, Nat.two_pow_pos 64, h.symm⟩, fun h => h.2.2.symm⟩
  | some m =>
    simp only [ok_rules]
    rw [tryFold_sum_eq_ok (fun e => e.1 ≠ v ∧ 0 < e.2) Prod.snd (fun t e c => ?_)
      (Nat.two_pow_pos 64)]
    · simp only [forall_mem_toList, Bool.not_eq_true, Option.getD_some, zero_add,
        Option.some.injEq, forall_eq', HashMap.sumBy, and_assoc]
    · simp only [ok_rules, pos_iff_ne_zero, ne_eq, and_assoc]

/-- What the loop over the stakes asks of one entry. -/
structure EntryOk (p : StakePool) (v : Pubkey) (i : StakeInfo) : Prop where
  keyed : i.validator = v
  bonded : i.amount ≤ MAX_VALIDATOR_STAKE
  fits : i.amount + i.delegatedAmount < 2 ^ 64
  active : i.isActive = true → MIN_VALIDATOR_STAKE ≤ i.amount + i.delegatedAmount
  delegations : p.DelegationsOk v
  delegated : i.delegatedAmount = p.delegatedTo v
  owned : i.machineFingerprint ≠ 0 → p.fingerprintRegistry.get i.machineFingerprint = some v

theorem checkEntry_eq_ok (t : Nat) (e : Pubkey × StakeInfo) (c : Nat) :
    p.checkEntry t e = .ok c ↔ p.EntryOk e.1 e.2 ∧ t + (e.2.amount + e.2.delegatedAmount) < 2 ^ 64
      ∧ c = t + (e.2.amount + e.2.delegatedAmount) := by
  obtain ⟨v, i⟩ := e
  unfold checkEntry
  simp only [ok_rules, checkDelegations_eq_ok]
  constructor
  · rintro ⟨hk, hb, total, ⟨hfit, rfl⟩, ha, computed, ⟨hsum, rfl⟩, del, ⟨hok, -, rfl⟩, hd, hfp,
      rfl⟩
    refine ⟨⟨?_, ?_, hfit, ?_, hok, ?_, ?_⟩, hsum, rfl⟩
    · exact not_not.mp hk
    · exact not_lt.mp hb
    · intro hact
      exact not_lt.mp fun hlt => ha ⟨hact, hlt⟩
    · exact (not_not.mp hd).symm
    · intro hne
      exact not_not.mp fun hreg => hfp ⟨hne, hreg⟩
  · rintro ⟨h, hsum, rfl⟩
    have hfit := h.fits
    have hdel := h.delegated
    refine ⟨fun hne => hne h.keyed, not_lt.mpr h.bonded, _, ⟨hfit, rfl⟩, ?_, _, ⟨hsum, rfl⟩,
      _, ⟨h.delegations, by omega, rfl⟩, fun hne => hne hdel.symm, ?_, rfl⟩
    · rintro ⟨hact, hlt⟩
      exact absurd (h.active hact) (not_le.mpr hlt)
    · rintro ⟨hne, hreg⟩
      exact hreg (h.owned hne)

theorem checkRequest_eq_ok :
    checkRequest e = .ok u ↔ e.2.validator = e.1.1 ∧ e.2.staker = e.1.2 ∧ 0 < e.2.amount := by
  grind [checkRequest]

theorem checkFingerprint_eq_ok : p.checkFingerprint e = .ok u ↔
      e.1 ≠ 0 ∧ ∃ i, p.stakes.get e.2 = some i ∧ i.machineFingerprint = e.1 := by
  unfold checkFingerprint
  simp only [ok_rules, not_not, ne_eq]

/-- **The check accepts exactly the valid pools.** -/
theorem validateInvariants_eq_ok : p.validateInvariants = .ok u ↔ p.Valid := by
  unfold validateInvariants
  -- the loops check every entry, and the first one sums what the entries hold
  simp only [ok_rules, forEach_eq_ok, tryFold_sum_eq_ok _ _ checkEntry_eq_ok (Nat.two_pow_pos 64),
    forall_mem_toList]
  simp only [checkRequest_eq_ok, checkFingerprint_eq_ok, zero_add, not_not, ne_eq]
  constructor
  · rintro ⟨computed, ⟨hent, hsum, rfl⟩, hkn, htot, hreq, hreg⟩
    have hknown : ∀ v m, p.delegations.get v = some m → ∃ i, p.stakes.get v = some i := by
      intro v m hm
      have hc := hkn v (mem_keys_of_get hm)
      rw [Bool.not_eq_false, HashMap.containsKey, Option.isSome_iff_exists] at hc
      exact hc
    exact
      { totals := htot.symm
        delegated := fun v i hi => (hent v i hi).delegated
        known := hknown
        active := fun v i hi => (hent v i hi).active
        owned := fun v i hi => (hent v i hi).owned
        carried := fun f v hf => hreg f v hf
        fits := htot ▸ hsum
        keyed := fun v i hi => (hent v i hi).keyed
        bonded := fun v i hi => (hent v i hi).bonded
        nonempty := fun v m hm => by
          obtain ⟨i, hi⟩ := hknown v m hm
          exact ((hent v i hi).delegations m hm).1
        entries := fun v m d a hm hd => by
          obtain ⟨i, hi⟩ := hknown v m hm
          exact ((hent v i hi).delegations m hm).2 d a hd
        requests := fun v s r hr => hreq (v, s) r hr }
  · intro h
    have hle : ∀ v i, p.stakes.get v = some i → i.amount + i.delegatedAmount < 2 ^ 64 := by
      intro v i hi
      have hshare := le_sumBy_of_get (fun _ i => i.amount + i.delegatedAmount) hi
      have hfits := h.fits
      rw [h.totals] at hfits
      exact lt_of_le_of_lt hshare hfits
    refine ⟨p.bondedTotal, ⟨?_, ?_, rfl⟩, ?_, h.totals.symm, ?_, h.carried⟩
    · intro v i hi
      exact
        { keyed := h.keyed v i hi
          bonded := h.bonded v i hi
          fits := hle v i hi
          active := h.active v i hi
          delegations := fun m hm => ⟨h.nonempty v m hm, fun d a => h.entries v m d a hm⟩
          delegated := h.delegated v i hi
          owned := h.owned v i hi }
    · have hfits := h.fits
      rw [h.totals] at hfits
      exact hfits
    · intro v hv
      obtain ⟨m, hm⟩ := Option.isSome_iff_exists.mp ((mem_keys_iff _ v).mp hv)
      obtain ⟨i, hi⟩ := h.known v m hm
      rw [HashMap.containsKey, hi]
      simp
    · rintro ⟨v, s⟩ r hr
      exact h.requests v s r hr

end StakePool

/-!
  The stored form of a stake pool (`storage_bytes` and `from_storage_bytes` in
  `core/src/consensus.rs`, over `core/src/codec.rs`).

  Without Staking V2 state a pool is written in the legacy layout; with it, behind a magic prefix.
  Reading back decodes either and then validates: a pool that breaks its invariants is written
  without complaint and refused only when it is read.
-/

/-- `StakePoolStorageV1`: the pool without Staking V2 state. -/
structure StakePoolStorageV1 where
  stakes : HashMap Pubkey StakeInfo
  totalStaked : Nat
  totalSlashed : Nat
  unstakeRequests : HashMap (Pubkey × Pubkey) UnstakeRequest
  delegations : HashMap Pubkey (HashMap Pubkey Nat)
  fingerprintRegistry : HashMap Fingerprint Pubkey
  bootstrapGrantsIssued : Nat

/-- `b"LICHSP2\0"`. -/
def STAKE_POOL_STORAGE_V2_MAGIC : List UInt8 := [0x4c, 0x49, 0x43, 0x48, 0x53, 0x50, 0x32, 0x00]

/-- The third-party encoder behind `serialize_legacy_bincode`, and its strict decoder. -/
structure Bincode where
  serializeV1 : StakePoolStorageV1 → List UInt8
  deserializeV1 : List UInt8 → Option StakePoolStorageV1
  serializeV2 : StakePool → List UInt8
  deserializeV2 : List UInt8 → Option StakePool

namespace StakePool

def toStorageV1 (p : StakePool) : StakePoolStorageV1 where
  stakes := p.stakes
  totalStaked := p.totalStaked
  totalSlashed := p.totalSlashed
  unstakeRequests := p.unstakeRequests
  delegations := p.delegations
  fingerprintRegistry := p.fingerprintRegistry
  bootstrapGrantsIssued := p.bootstrapGrantsIssued

def ofStorageV1 (row : StakePoolStorageV1) : StakePool where
  stakes := row.stakes
  totalStaked := row.totalStaked
  totalSlashed := row.totalSlashed
  unstakeRequests := row.unstakeRequests
  delegations := row.delegations
  fingerprintRegistry := row.fingerprintRegistry
  bootstrapGrantsIssued := row.bootstrapGrantsIssued
  stakingV2State := none

end StakePool

/-- The encoder's documented behaviour on one pool: what it encodes decodes to itself.  A legacy
    row starts with the number of its stakes in little-endian, and no pool has the 10^16 stakes that
    the magic would spell. -/
structure Bincode.RoundTrips (codec : Bincode) (p : StakePool) : Prop where
  legacy : p.stakingV2State = none →
    codec.deserializeV1 (codec.serializeV1 p.toStorageV1) = some p.toStorageV1
  unmarked : p.stakingV2State = none →
    ¬ STAKE_POOL_STORAGE_V2_MAGIC <+: codec.serializeV1 p.toStorageV1
  epoch : p.stakingV2State ≠ none → codec.deserializeV2 (codec.serializeV2 p) = some p

namespace StakePool

variable {codec : Bincode}

/-- `storage_bytes`. -/
def storageBytes (codec : Bincode) (p : StakePool) : List UInt8 :=
  if p.stakingV2State.isNone = true then codec.serializeV1 p.toStorageV1
  else STAKE_POOL_STORAGE_V2_MAGIC ++ codec.serializeV2 p

/-- `from_storage_bytes`. -/
def fromStorageBytes (codec : Bincode) (data : List UInt8) : Except String StakePool := do
  let pool ← if STAKE_POOL_STORAGE_V2_MAGIC <+: data then
      okOr (codec.deserializeV2 (data.drop STAKE_POOL_STORAGE_V2_MAGIC.length))
        "stake pool storage v2 legacy bincode deserialize failed"
    else do
      let row ← okOr (codec.deserializeV1 data)
        "legacy stake pool storage legacy bincode deserialize failed"
      pure (ofStorageV1 row)
  if pool.stakingV2State.isSome = true then pool.validateV2Invariants else pool.validateInvariants
  pure pool

/-- Written and read back, a pool is accepted. -/
def Reloads (codec : Bincode) (p : StakePool) : Prop :=
  fromStorageBytes codec (p.storageBytes codec) = .ok p

theorem decode_storageBytes (hc : codec.RoundTrips p) :
    fromStorageBytes codec (p.storageBytes codec) = (do
      if p.stakingV2State.isSome = true then p.validateV2Invariants else p.validateInvariants
      pure p) := by
  unfold fromStorageBytes storageBytes
  cases hs : p.stakingV2State with
  | none =>
    have hrow : ofStorageV1 p.toStorageV1 = p := by
      cases p
      simp only [ofStorageV1, toStorageV1, StakePool.mk.injEq, true_and]
      exact hs.symm
    simp only [Option.isNone_none, if_true, if_neg (hc.unmarked hs), hc.legacy hs, okOr, bind_ok]
    rw [show (pure (ofStorageV1 p.toStorageV1) : Except String StakePool) = .ok p from
      congrArg Except.ok hrow, bind_ok, hs]
  | some s =>
    have hpre : STAKE_POOL_STORAGE_V2_MAGIC <+:
        STAKE_POOL_STORAGE_V2_MAGIC ++ codec.serializeV2 p := List.prefix_append _ _
    have hround := hc.epoch (by rw [hs]; exact Option.some_ne_none s)
    simp only [Option.isNone_some, Bool.false_eq_true, if_false, if_pos hpre, List.drop_left,
      hround, okOr, bind_ok, hs]

/-- **A pool reloads exactly when it is valid**, and under Staking V2 keeps the rules of the epoch
    as well. -/
theorem reloads_iff (hc : codec.RoundTrips p) :
    p.Reloads codec ↔ p.Valid ∧ (p.stakingV2State.isSome = true → p.validateV2Rules = .ok ()) := by
  unfold Reloads
  rw [decode_storageBytes hc]
  by_cases hs : p.stakingV2State.isSome = true
  · simp only [hs, if_true, validateV2Invariants, ok_rules, validateInvariants_eq_ok, forall_const,
      and_true]
  · simp only [hs, if_false, ok_rules, validateInvariants_eq_ok, and_true, false_implies,
      Bool.false_eq_true]

end StakePool

end Lichen.Staking
