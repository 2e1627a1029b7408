/-
  The bookkeeping of a stake pool under its eleven calls.

  A node writes the pool after a block and reads it back when it starts, and `from_storage_bytes`
  refuses a pool whose totals disagree.  `PoolCall` is a call with its arguments, `PoolCall.run` the
  pool it leaves, returned or unchanged.  The result: the books are in order after a call exactly
  when the network total had room for a bond that was raised, and when no removed ghost had
  delegations; and then the pool is read back unless its epoch accounting is behind.
-/
import Lichen.Staking.PoolCalls

open Base
namespace Lichen.Staking
open StakePool

/-! ## Calls -/

/-- A call on the pool.  A validator's own stake is not a delegation. -/
inductive PoolCall where
  | stake (validator : Pubkey) (amount slot : Nat)
  | stakeWithIndex (validator : Pubkey) (amount slot index : Nat)
  | delegate (delegator validator : Pubkey) (amount : Nat) (distinct : delegator ≠ validator)
  | requestDelegationUnstake (delegator validator : Pubkey) (amount slot : Nat)
  | requestUnstake (validator : Pubkey) (amount slot : Nat) (staker : Pubkey)
  | claimUnstake (validator : Pubkey) (slot : Nat) (staker : Pubkey)
  | addValidatorStake (validator : Pubkey) (amount : Nat)
  | topUpStake (validator : Pubkey) (amount : Nat)
  | slashValidator (validator : Pubkey) (amount : Nat)
  | removeGhostValidators (slot grace : Nat)
  | rebalanceMossstakeAllocations (target : Nat) (active : List Pubkey) (slot : Nat)

theorem key_ne : (⟨3⟩ : Pubkey) ≠ ⟨1⟩ := by decide

namespace PoolCall

/-- The pool after a call.  One that returns an error has changed nothing. -/
def run (p : StakePool) : PoolCall → StakePool
  | stake v amount slot => p.settleTo (p.stake v amount slot)
  | stakeWithIndex v amount slot index => p.settleTo (p.stakeWithIndex v amount slot index)
  | delegate d v amount _ => p.settleTo (p.delegate d v amount)
  | requestDelegationUnstake d v amount slot =>
    p.settleTo (p.requestDelegationUnstake d v amount slot)
  | requestUnstake v amount slot s => p.settleTo (p.requestUnstake v amount slot s)
  | claimUnstake v slot s => p.settleTo ((p.claimUnstake v slot s).map Prod.snd)
  | addValidatorStake v amount => p.settleTo (p.addValidatorStake v amount)
  | topUpStake v amount => p.settleTo (p.topUpStake v amount)
  | slashValidator v amount => p.slashValidator v amount
  | removeGhostValidators slot grace => p.removeGhostValidators slot grace
  | rebalanceMossstakeAllocations target active slot =>
    p.settleTo (p.rebalanceMossstakeAllocations target active slot)

/-- What the books need from the pool before the call: room in the network total for an accepted
    self-bond, and no delegations to the ghosts that are removed. -/
def Sound (p : StakePool) : PoolCall → Prop
  | stake v amount _ => MIN_VALIDATOR_STAKE ≤ amount → p.bond v + amount ≤ MAX_VALIDATOR_STAKE →
    p.totalStaked + amount < 2 ^ 64
  | stakeWithIndex v amount _ _ => MIN_VALIDATOR_STAKE ≤ amount →
    p.bond v + amount ≤ MAX_VALIDATOR_STAKE → p.totalStaked + amount < 2 ^ 64
  | addValidatorStake v amount => ∀ i, p.stakes.get v = some i → i.isFullyVested = true →
    i.amount + amount ≤ MAX_VALIDATOR_STAKE → p.totalStaked + amount < 2 ^ 64
  | topUpStake v amount => ∀ i, p.stakes.get v = some i → 0 < amount →
    i.amount + amount ≤ MAX_VALIDATOR_STAKE → p.totalStaked + amount < 2 ^ 64
  | removeGhostValidators slot grace => ∀ v i, p.stakes.get v = some i →
    StakePool.isGhost slot grace i = true → i.delegatedAmount = 0
  | _ => True

end PoolCall

namespace StakePool

variable {p : StakePool}

section
variable (h : p.Valid)
include h

/-- A call that can only succeed into a valid pool, or fail, leaves a valid pool. -/
theorem Valid.settleTo (hr : ∀ p', r = .ok p' → p'.Valid) : (p.settleTo r).Valid := by
  cases r with
  | ok p' => exact hr p' rfl
  | error e => exact h

/-- The same for a call that needs room: it keeps the books exactly when there was some. -/
theorem Valid.settleTo_iff (room : Prop)
    (hr : ∀ p', r = .ok p' → (room → p'.Valid) ∧ (p'.Ledger → room)) :
    ((∀ p', r = .ok p' → room) → (p.settleTo r).Valid)
      ∧ ((p.settleTo r).Ledger → ∀ p', r = .ok p' → room) := by
  cases r with
  | ok p' =>
    obtain ⟨hkeep, hneed⟩ := hr p' rfl
    refine ⟨fun hroom => hkeep (hroom p' rfl), fun hl q hq => hneed hl⟩
  | error e => exact ⟨fun _ => h, fun _ q hq => absurd hq (by simp)⟩

theorem Valid.stakeWithIndex_iff (v : Pubkey) (amount slot index : Nat) :
    ((PoolCall.stakeWithIndex v amount slot index).Sound p →
        (p.settleTo (p.stakeWithIndex v amount slot index)).Valid)
      ∧ ((p.settleTo (p.stakeWithIndex v amount slot index)).Ledger →
        (PoolCall.stakeWithIndex v amount slot index).Sound p) := by
  have hiff := h.settleTo_iff (r := p.stakeWithIndex v amount slot index)
    (p.totalStaked + amount < 2 ^ 64)
    fun p' hop => ⟨h.stakeWithIndex hop, stakeWithIndex_room h hop⟩
  refine ⟨fun hs => hiff.1 fun p' hop => ?_, fun hl hmin hmax => ?_⟩
  · obtain ⟨hmin, hmax, -⟩ := stakeWithIndex_eq_ok.mp hop
    exact hs hmin hmax
  · exact hiff.2 hl _ (stakeWithIndex_eq_ok.mpr ⟨hmin, hmax, rfl⟩)

theorem Valid.addValidatorStake_iff (v : Pubkey) (amount : Nat) :
    ((PoolCall.addValidatorStake v amount).Sound p →
        (p.settleTo (p.addValidatorStake v amount)).Valid)
      ∧ ((p.settleTo (p.addValidatorStake v amount)).Ledger →
        (PoolCall.addValidatorStake v amount).Sound p) := by
  have hiff := h.settleTo_iff (r := p.addValidatorStake v amount)
    (p.totalStaked + amount < 2 ^ 64) fun p' hop => by
      grind [addValidatorStake_eq_ok, raiseBond]
  refine ⟨fun hs => hiff.1 fun p' hop => ?_, fun hl i hi hv hmax => ?_⟩
  · obtain ⟨i, hi, hv, hle, -⟩ := addValidatorStake_eq_ok.mp hop
    have hb := h.bonded v i hi
    exact hs i hi hv (by omega)
  · exact hiff.2 hl _ (addValidatorStake_eq_ok.mpr ⟨i, hi, hv, by omega, rfl⟩)

theorem Valid.topUpStake_iff (v : Pubkey) (amount : Nat) :
    ((PoolCall.topUpStake v amount).Sound p → (p.settleTo (p.topUpStake v amount)).Valid)
      ∧ ((p.settleTo (p.topUpStake v amount)).Ledger → (PoolCall.topUpStake v amount).Sound p) := by
  have hiff := h.settleTo_iff (r := p.topUpStake v amount)
    (p.totalStaked + amount < 2 ^ 64) fun p' hop => by
      obtain ⟨i, hi, -, hle, rfl⟩ := topUpStake_eq_ok.mp hop
      exact h.raiseBond hi hle rfl rfl rfl rfl rfl rfl rfl rfl
        (fun hact => .inr (StakeInfo.minimum_of_refresh_active hact)) rfl
  refine ⟨fun hs => hiff.1 fun p' hop => ?_, fun hl i hi hpos hmax => ?_⟩
  · obtain ⟨i, hi, hne, hle, -⟩ := topUpStake_eq_ok.mp hop
    exact hs i hi (by omega) (by omega)
  · exact hiff.2 hl _ (topUpStake_eq_ok.mpr ⟨i, hi, by omega, by omega, rfl⟩)

/-- **One call.**  A sound call keeps a pool valid, and one that is not breaks its books. -/
theorem Valid.call_iff (c : PoolCall) :
    (c.Sound p → (c.run p).Valid) ∧ ((c.run p).Ledger → c.Sound p) := by
  cases c with
  | stake v amount slot => exact h.stakeWithIndex_iff v amount slot U64.MAX
  | stakeWithIndex v amount slot index => exact h.stakeWithIndex_iff v amount slot index
  | addValidatorStake v amount => exact h.addValidatorStake_iff v amount
  | topUpStake v amount => exact h.topUpStake_iff v amount
  | removeGhostValidators slot grace =>
    exact ⟨h.removeGhostValidators, fun hl v i hi hg => h.ghost_idle hl hi hg⟩
  | delegate d v amount hne =>
    exact ⟨fun _ => h.settleTo fun p' hop => h.delegate hne hop, fun _ => trivial⟩
  | requestDelegationUnstake d v amount slot =>
    exact ⟨fun _ => h.settleTo fun p' hop => h.requestDelegationUnstake hop, fun _ => trivial⟩
  | requestUnstake v amount slot s =>
    exact ⟨fun _ => h.settleTo fun p' hop => h.requestUnstake hop, fun _ => trivial⟩
  | claimUnstake v slot s =>
    refine ⟨fun _ => h.settleTo fun p' hop => ?_, fun _ => trivial⟩
    obtain ⟨r, hc, rfl⟩ := map_eq_ok.mp hop
    exact h.claimUnstake hc
  | slashValidator v amount => exact ⟨fun _ => h.slashValidator amount, fun _ => trivial⟩
  | rebalanceMossstakeAllocations target active slot =>
    exact ⟨fun _ => h.settleTo fun p' hop => .rebalance hop, fun _ => trivial⟩

end
end StakePool

/-! ## What a node reads back -/

namespace StakePool

variable {p : StakePool}

theorem checkpoint_isSome (h : p.checkpointStakingV2ValidatorInner v slot = .ok p') :
    p'.stakingV2State.isSome = p.stakingV2State.isSome := by
  unfold checkpointStakingV2ValidatorInner at h
  grind

theorem removeMoss_epoch (h : p.removeMoss v = .ok p') : p'.stakingV2State = p.stakingV2State := by
  grind [removeMoss]

theorem addMoss_epoch (h : p.addMoss e = .ok p') : p'.stakingV2State = p.stakingV2State := by
  grind [addMoss]

theorem rebalance_isSome (h : p.rebalanceMossstakeAllocations target active slot = .ok p') :
    p'.stakingV2State.isSome = p.stakingV2State.isSome := by
  unfold rebalanceMossstakeAllocations at h
  simp only [ok_rules] at h
  obtain ⟨plan, -, q, hq, r, hr, u, hu, -, -, -, -, rfl⟩ := h
  let P : StakePool → Prop := fun q => q.stakingV2State.isSome = p.stakingV2State.isSome
  have h1 : P q := tryFold_induct (P := P) rfl
    (fun a b c _ ha hb => (congrArg Option.isSome (removeMoss_epoch hb)).trans ha) hq
  have h2 : P r := tryFold_induct (P := P) h1
    (fun a b c _ ha hb => (congrArg Option.isSome (addMoss_epoch hb)).trans ha) hr
  exact tryFold_induct (P := P) h2 (fun a b c _ ha hb => (checkpoint_isSome hb).trans ha) hu

theorem settleTo_isSome
    (h : ∀ p', r = .ok p' → p'.stakingV2State.isSome = p.stakingV2State.isSome) :
    (p.settleTo r).stakingV2State.isSome = p.stakingV2State.isSome := by
  cases r with
  | ok p' => exact h p' rfl
  | error e => rfl

theorem removeGhosts_epoch {l : List Pubkey} :
    (l.foldl removeGhost p).stakingV2State = p.stakingV2State := by
  induction l generalizing p with
  | nil => rfl
  | cons v l ih =>
    rw [List.foldl_cons, ih]
    unfold removeGhost
    split <;> rfl

end StakePool

/-- No call switches Staking V2 on or off. -/
theorem PoolCall.run_isSome (p : StakePool) (c : PoolCall) :
    (c.run p).stakingV2State.isSome = p.stakingV2State.isSome := by
  cases c with
  | stake v amount slot =>
    refine settleTo_isSome fun p' h => ?_
    obtain ⟨-, -, rfl⟩ := stakeWithIndex_eq_ok.mp h
    rfl
  | stakeWithIndex v amount slot index =>
    grind [settleTo_isSome, stakeWithIndex_eq_ok, run]
  | delegate d v amount hne =>
    grind [settleTo_isSome, delegate_eq_ok, run]
  | requestDelegationUnstake d v amount slot =>
    grind [settleTo_isSome, requestDelegationUnstake_eq_ok, run]
  | requestUnstake v amount slot s =>
    grind [settleTo_isSome, requestUnstake_eq_ok, run]
  | claimUnstake v slot s =>
    refine settleTo_isSome fun p' h => ?_
    obtain ⟨r, hc, rfl⟩ := map_eq_ok.mp h
    obtain ⟨q, -, -, -, hp'⟩ := claimUnstake_eq_ok.mp hc
    rw [hp']
  | addValidatorStake v amount =>
    grind [settleTo_isSome, addValidatorStake_eq_ok, run]
  | topUpStake v amount =>
    grind [settleTo_isSome, topUpStake_eq_ok, run]
  | slashValidator v amount =>
    grind [StakePool.slashValidator, run]
  | removeGhostValidators slot grace =>
    exact congrArg Option.isSome removeGhosts_epoch
  | rebalanceMossstakeAllocations target active slot =>
    exact settleTo_isSome fun p' h => rebalance_isSome h

/-- **The books of a stake pool.**  After a call the totals agree with the entries exactly when the
    call was sound.  Without Staking V2 the pool that is written is then read back; with it the
    reader also asks for the rules of the epoch, which a checkpoint has to restore. -/
theorem pool_call_keeps_books {codec : Bincode} (p : StakePool) (c : PoolCall)
    (hp : p.validateInvariants = .ok ()) (hc : codec.RoundTrips (c.run p)) :
    ((c.run p).Ledger ↔ c.Sound p) ∧
    (p.stakingV2State = none → ((c.run p).Reloads codec ↔ c.Sound p)) ∧
    (p.stakingV2State ≠ none →
      ((c.run p).Reloads codec ↔ c.Sound p ∧ (c.run p).validateV2Rules = .ok ())) := by
  have h := validateInvariants_eq_ok.mp hp
  obtain ⟨hkeep, hneed⟩ := h.call_iff c
  have hvalid : (c.run p).Valid ↔ c.Sound p := ⟨fun hv => hneed hv.toLedger, hkeep⟩
  have hsome := c.run_isSome p
  rw [reloads_iff hc, hvalid, hsome]
  refine ⟨⟨hneed, fun hs => (hkeep hs).toLedger⟩, fun hnone => ?_, fun hne => ?_⟩
  · rw [hnone]
    exact ⟨And.left, fun hs => ⟨hs, fun hfalse => absurd hfalse (by simp)⟩⟩
  · have his : p.stakingV2State.isSome = true := Option.isSome_iff_ne_none.mpr hne
    exact ⟨fun hr => ⟨hr.1, hr.2 his⟩, fun hr => ⟨hr.1, fun _ => hr.2⟩⟩

section

/-- An empty pool is seven zeros in 64-bit little-endian. -/
def emptyPoolCodec : Bincode where
  serializeV1 _ := List.replicate 56 0
  deserializeV1 _ := some StakePool.new.toStorageV1
  serializeV2 _ := []
  deserializeV2 _ := none

/-- A codec that reads one pool back. -/
def codecOf (p : StakePool) : Bincode :=
  { emptyPoolCodec with deserializeV1 := fun _ => some p.toStorageV1 }

/-- A validator with a bond and a delegation, of which the delegator takes four spores out. -/
theorem pool_call_keeps_books_exit :
    let p := [PoolCall.stake ⟨1⟩ MIN_VALIDATOR_STAKE 0, .delegate ⟨2⟩ ⟨1⟩ 10 (by decide)].foldl
      PoolCall.run StakePool.new
    let c := PoolCall.requestDelegationUnstake ⟨2⟩ ⟨1⟩ 4 1
    p.validateInvariants = .ok () ∧ (c.run p).totalStaked = MIN_VALIDATOR_STAKE + 6
      ∧ (c.run p).Ledger ∧ (c.run p).Reloads (codecOf (c.run p)) := by
  intro p c
  have hv : p.validateInvariants = .ok () := by decide +kernel
  have hc : (codecOf (c.run p)).RoundTrips (c.run p) :=
    ⟨fun _ => rfl, fun _ => by decide, fun hne => absurd (by decide +kernel) hne⟩
  obtain ⟨hledger, hreloads, -⟩ := pool_call_keeps_books p c hv hc
  exact ⟨hv, by decide +kernel, hledger.mpr trivial, (hreloads (by decide +kernel)).mpr trivial⟩

/-- A validator bonds the minimum, receives ten spores of delegation and takes its own bond out:
    the last step removes it, and its delegations stay behind under a key no stake has. -/
theorem removeGhostValidators_orphans_delegations :
    let v : Pubkey := ⟨1⟩
    let before := [PoolCall.stake v MIN_VALIDATOR_STAKE 0, .delegate ⟨2⟩ v 10 (by decide),
      .requestUnstake v MIN_VALIDATOR_STAKE 1 v].foldl PoolCall.run StakePool.new
    let after := PoolCall.run before (.removeGhostValidators 20000 10000)
    before.validateInvariants = .ok () ∧ after.totalStaked = 10 ∧ after.bondedTotal = 0
      ∧ ¬ after.Ledger ∧ after.validateInvariants ≠ .ok () := by
  refine ⟨by decide +kernel, by decide +kernel, by decide +kernel, fun hl => ?_, by decide +kernel⟩
  exact absurd hl.totals (by decide +kernel)

end
end Lichen.Staking
