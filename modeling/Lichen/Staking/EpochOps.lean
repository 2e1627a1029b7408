/-
  The operations of Staking V2 (`core/src/consensus.rs`): opening an epoch, checkpoints, delegation
  under the saturation limit, the MossStake allocator, equivocation slashes and the roll-over.

  An operation that the source runs on a clone and commits at the end (`let mut updated =
  self.clone(); … *self = updated`) returns the clone.  A `BTreeMap` is walked in key order where
  the order can be seen in a result.
-/
import Lichen.Staking.Epoch

open Base
namespace Lichen.Staking

/-- The order of `sort_by_key(|validator| validator.0)` and of a `BTreeMap<Pubkey, _>`. -/
def keyLe (a b : Pubkey) : Prop := a.val ≤ b.val

instance : DecidableRel keyLe := fun a b => inferInstanceAs (Decidable (a.val ≤ b.val))

/-- The entries of a `BTreeMap<Pubkey, _>`. -/
def sortedEntries {V : Type} (m : HashMap Pubkey V) : List (Pubkey × V) :=
  m.toList.insertionSort fun a b => keyLe a.1 b.1

/-- The first equal pair of `windows(2)`. -/
def adjacentDuplicate {α : Type} [DecidableEq α] : List α → Option α
  | a :: b :: l => if a = b then some a else adjacentDuplicate (b :: l)
  | _ => none

/-- `integer_sqrt`: Newton's method from above. -/
def integerSqrt (value : Nat) : Nat :=
  if value = 0 then 0 else integerSqrtLoop value value value ((value + 1) / 2)

namespace StakePool

/-! ## Opening an epoch -/

variable (p : StakePool)

/-- `build_epoch_accounting`. -/
def buildEpochAccounting (validator : Pubkey) (epochStart commissionBps : Nat) :
    Except String ValidatorEpochAccounting := do
  let stake ← okOr (p.stakes.get validator) s!"active validator {validator} has no stake entry"
  failIf (stake.isActive = false ∨ stake.meetsMinimum = false)
    s!"validator {validator} is not reward-eligible at epoch start"
  let delegations := ((p.delegations.get validator).getD ∅).mapValues
    fun _ amount => EpochStakeAccumulator.new amount epochStart
  let leaderWeight ← okOr
    (U64.checkedAdd (integerSqrt (min stake.totalStake MAX_VALIDATOR_STAKE)) 1)
    "epoch leader weight overflow"
  pure { validator
         selfBond := EpochStakeAccumulator.new stake.amount epochStart
         delegations
         productionBaseline := stake.blocksProduced
         consensusPower := stake.totalStake
         leaderWeight
         commissionBps }

/-- The exposure of one validator: its self-bond and its positive delegations. -/
def slashExposure (accounting : ValidatorEpochAccounting) : ValidatorSlashExposure where
  selfBond := accounting.selfBond.amount
  delegations := (accounting.delegations.retain fun _ a => decide (0 < a.amount)).mapValues
    fun _ a => a.amount

/-- `build_slash_exposure_snapshot`. -/
def buildSlashExposureSnapshot (epoch startSlot : Nat)
    (validators : HashMap Pubkey ValidatorEpochAccounting) :
    Except String EpochSlashExposureSnapshot := do
  forEach validators.toList fun (e : Pubkey × ValidatorEpochAccounting) => do
    let exposed ← (slashExposure e.2).total
    failIf (exposed ≠ e.2.consensusPower)
      s!"validator {e.1} slash exposure does not match frozen consensus power"
  pure { epoch, startSlot, validators := validators.mapValues fun _ a => slashExposure a }

/-- The loop over the validators of a new epoch.  A commission schedule is taken over or opened. -/
def openAccounting (epoch startSlot : Nat) (duplicate : Pubkey → String)
    (commissions : HashMap Pubkey ValidatorCommissionState) (activeValidators : List Pubkey) :
    Except String (HashMap Pubkey ValidatorEpochAccounting ×
      HashMap Pubkey ValidatorCommissionState) :=
  tryFold (fun (acc : HashMap Pubkey ValidatorEpochAccounting ×
      HashMap Pubkey ValidatorCommissionState) validator => do
    failIf (acc.1.containsKey validator = true) (duplicate validator)
    let schedule := (acc.2.get validator).getD (ValidatorCommissionState.new epoch)
    let accounting ← p.buildEpochAccounting validator startSlot schedule.currentBps
    pure (acc.1.put validator accounting, acc.2.put validator schedule))
    (∅, commissions) activeValidators

/-- `initialize_staking_v2`. -/
def initializeStakingV2 (activationSlot : Nat) (activeValidators : List Pubkey) :
    Except String StakePool := do
  failIf (p.stakingV2State.isSome = true) "Staking V2 state is already initialized"
  failIf (activationSlot % SLOTS_PER_EPOCH ≠ 0) "Staking V2 activation must be an epoch boundary"
  p.validateV2Invariants
  let currentEpoch := slotToEpoch activationSlot
  let opened ← p.openAccounting currentEpoch activationSlot
    (fun validator => s!"duplicate active validator {validator}") ∅ activeValidators
  failIf (opened.1.isEmpty = true) "Staking V2 cannot initialize without active validators"
  let exposure ← buildSlashExposureSnapshot currentEpoch activationSlot opened.1
  let p := { p with stakingV2State := some {
    version := STAKING_V2_STATE_VERSION
    activationSlot
    currentEpoch
    epochStartSlot := activationSlot
    validators := opened.1
    commissions := opened.2
    lastSettledEpoch := U64.checkedSub currentEpoch 1
    slashExposureSnapshots := (∅ : HashMap Nat EpochSlashExposureSnapshot).put currentEpoch
      exposure } }
  p.validateV2Invariants
  pure p

/-- `advance_staking_v2_epoch`. -/
def advanceStakingV2Epoch (epochEnd : Nat) (activeValidators : List Pubkey) :
    Except String StakePool := do
  p.validateV2Invariants
  let previous ← okOr p.stakingV2State "Staking V2 state is not initialized"
  failIf (previous.lastSettledEpoch ≠ some previous.currentEpoch)
    s!"cannot advance unsettled Staking V2 epoch {previous.currentEpoch}"
  let expectedEnd ← okOr (U64.checkedAdd previous.epochStartSlot SLOTS_PER_EPOCH)
    "Staking V2 epoch end overflow"
  failIf (epochEnd ≠ expectedEnd)
    s!"cannot advance Staking V2 epoch at {epochEnd}; expected {expectedEnd}"
  let nextEpoch ← okOr (U64.checkedAdd previous.currentEpoch 1) "Staking V2 epoch overflow"
  let commissions := previous.commissions.mapValues fun _ c => c.activate nextEpoch
  let opened ← p.openAccounting nextEpoch epochEnd
    (fun validator => s!"duplicate next-epoch validator {validator}") commissions activeValidators
  failIf (opened.1.isEmpty = true) "cannot advance Staking V2 without active validators"
  let exposure ← buildSlashExposureSnapshot nextEpoch epochEnd opened.1
  let oldestRetained := U64.saturatingSub nextEpoch SLASHING_V2_EVIDENCE_WINDOW_EPOCHS
  let p := { p with stakingV2State := some {
    version := STAKING_V2_STATE_VERSION
    activationSlot := previous.activationSlot
    currentEpoch := nextEpoch
    epochStartSlot := epochEnd
    validators := opened.1
    commissions := opened.2
    lastSettledEpoch := some previous.currentEpoch
    slashExposureSnapshots := (previous.slashExposureSnapshots.put nextEpoch exposure).retain
      fun epoch _ => decide (oldestRetained ≤ epoch) } }
  p.validateV2Invariants
  pure p

/-! ## Checkpoints -/

/-- Every delegation accumulator of one validator, brought to `slot` and set to the current
    delegation; a delegator seen for the first time starts at the epoch's first slot. -/
def checkpointDelegations (current : HashMap Pubkey Nat) (epochStart slot : Nat)
    (accumulators : HashMap Pubkey EpochStakeAccumulator) :
    Except String (HashMap Pubkey EpochStakeAccumulator) :=
  let owners := accumulators.keys ++ current.keys.filter fun k => !accumulators.containsKey k
  tryFold (fun (acc : HashMap Pubkey EpochStakeAccumulator) delegator => do
    let accumulator := (acc.get delegator).getD (EpochStakeAccumulator.new 0 epochStart)
    let accumulator ← accumulator.setAmount slot ((current.get delegator).getD 0)
    pure (acc.put delegator accumulator)) accumulators owners

/-- `checkpoint_staking_v2_validator_inner`. -/
def checkpointStakingV2ValidatorInner (validator : Pubkey) (slot : Nat) :
    Except String StakePool :=
  match p.stakingV2State with
  | none => .ok p
  | some state => do
    failIf (slot < state.epochStartSlot) "Staking V2 checkpoint predates current epoch"
    let accounting ← okOr (state.validators.get validator)
      s!"validator {validator} is not active in current Staking V2 epoch"
    let stake ← okOr (p.stakes.get validator)
      s!"validator {validator} disappeared during checkpoint"
    let selfBond ← accounting.selfBond.setAmount slot stake.amount
    let delegations ← checkpointDelegations ((p.delegations.get validator).getD ∅)
      state.epochStartSlot slot accounting.delegations
    pure { p with stakingV2State := some { state with
      validators := state.validators.put validator { accounting with selfBond, delegations } } }

/-- `checkpoint_staking_v2_validator`. -/
def checkpointStakingV2Validator (validator : Pubkey) (slot : Nat) :
    Except String StakePool := do
  let p ← p.checkpointStakingV2ValidatorInner validator slot
  p.validateV2Invariants
  pure p

/-! ## Delegation -/

/-- Whether `additional` more stake on one validator stays within its share of the epoch's stake. -/
def acceptsDelegation (current active saturationBps additional : Nat) : Except String Bool := do
  let finalValidatorStake ← okOr (U64.checkedAdd current additional)
    "validator delegation candidate overflow"
  let finalActiveStake ← okOr (U64.checkedAdd active additional)
    "network delegation candidate overflow"
  let networkLimit ← mulDivCeil finalActiveStake saturationBps 10000
  pure (decide (finalValidatorStake ≤ networkLimit))

/-- `staking_v2_delegation_capacity`; `none` without Staking V2. -/
def stakingV2DelegationCapacity (validator : Pubkey) :
    Except String (Option Nat) :=
  match p.stakingV2State with
  | none => .ok none
  | some state => do
    failIf (state.validators.containsKey validator = false)
      s!"validator {validator} is not active in the current Staking V2 epoch"
    let info ← okOr (p.stakes.get validator) s!"validator {validator} has no stake entry"
    let selfBondLimit ← okOr (U64.checkedMul info.amount MAX_VALIDATOR_EFFECTIVE_STAKE_MULTIPLIER)
      s!"validator {validator} delegation capacity overflow"
    let maximumAddition := U64.saturatingSub selfBondLimit info.totalStake
    if maximumAddition = 0 then pure (some 0)
    else
      let active ← p.activeEffectiveStake state
      let saturationBps ← validatorSaturationCapBps state.validators.size
      let accepts := acceptsDelegation info.totalStake active saturationBps
      let fits ← accepts 0
      failIf (fits = false)
        s!"validator {validator} already exceeds the Staking V2 saturation limit"
      let capacity ← bisect accepts 64 0 maximumAddition
      pure (some capacity)

/-- `delegate`. -/
def delegate (delegator validator : Pubkey) (amount : Nat) :
    Except String StakePool := do
  failIf (amount = 0) "Delegation amount must be greater than zero"
  let info ← okOr (p.stakes.get validator) "Validator not found"
  failIf (info.isFullyVested = false) "Validator still bootstrapping, cannot accept delegations"
  let maximumEffectiveStake ← okOr
    (U64.checkedMul info.amount MAX_VALIDATOR_EFFECTIVE_STAKE_MULTIPLIER)
    "Validator effective-stake cap overflow"
  let newEffectiveStake ← okOr (U64.checkedAdd info.totalStake amount)
    "Validator effective stake overflow"
  failIf (maximumEffectiveStake < newEffectiveStake)
    (s!"Delegation would exceed validator effective-stake cap: requested={amount}, " ++
      s!"resulting={newEffectiveStake}, cap={maximumEffectiveStake}")
  let capacity ← p.stakingV2DelegationCapacity validator
  failIf (capacity.any (fun c => decide (c < amount)) = true)
    (s!"Delegation would exceed validator saturation: requested={amount}, " ++
      s!"remaining_capacity={capacity.getD 0}")
  let newTotalStaked ← okOr (U64.checkedAdd p.totalStaked amount) "Network total stake overflow"
  let newDelegation ← okOr (U64.checkedAdd (p.delegation validator delegator) amount)
    "Delegator stake overflow"
  let delegatedAmount ← okOr (U64.checkedAdd info.delegatedAmount amount)
    "Validator delegated stake overflow"
  let info := { info with delegatedAmount }
  pure { p with
    stakes := p.stakes.put validator info.refresh
    totalStaked := newTotalStaked
    delegations := p.delegations.put validator
      (((p.delegations.get validator).getD ∅).put delegator newDelegation) }

end StakePool

/-!
  Walking a map in key order.

  `sortedEntries` lists a map once, by key; sums, membership and distinctness are those of the map.
  A list that is already in key order is not changed by another sort, and a list without repetitions
  has no adjacent pair of equal elements.
-/

open List

theorem keyLe_antisymm (hab : keyLe a b) (hba : keyLe b a) : a = b := by
  have hval : a.val = b.val := BitVec.le_antisymm hab hba
  cases a
  cases b
  exact congrArg Pubkey.mk hval

/-- In key order, only neighbours can be equal. -/
theorem nodup_of_sorted {l : List Pubkey} (hsorted : l.Pairwise keyLe)
    (hchain : l.IsChain (· ≠ ·)) : l.Nodup := by
  induction l with
  | nil => exact nodup_nil
  | cons a l ih =>
    obtain ⟨ha, hl⟩ := pairwise_cons.mp hsorted
    cases l with
    | nil => exact nodup_singleton a
    | cons b l =>
      obtain ⟨hab, hchain⟩ := isChain_cons_cons.mp hchain
      refine nodup_cons.mpr ⟨?_, ih hl hchain⟩
      intro hmem
      rcases mem_cons.mp hmem with rfl | hmem
      · exact hab rfl
      · have hle : keyLe a b := ha b mem_cons_self
        exact hab (keyLe_antisymm hle ((pairwise_cons.mp hl).1 a hmem))

/-- A sort by key puts the keys in order. -/
theorem pairwise_sort {α : Type} (key : α → Pubkey) (l : List α) :
    (l.insertionSort fun a b => keyLe (key a) (key b)).Pairwise
      fun a b => keyLe (key a) (key b) := by
  have htotal : Std.Total fun a b => keyLe (key a) (key b) := ⟨fun _ _ => BitVec.le_total _ _⟩
  have htrans : IsTrans α fun a b => keyLe (key a) (key b) := ⟨fun _ _ _ => BitVec.le_trans⟩
  exact pairwise_insertionSort _ l

theorem adjacentDuplicate_of_nodup {α : Type} [DecidableEq α] {l : List α} (h : l.Nodup) :
    adjacentDuplicate l = none := by
  induction l with
  | nil => rfl
  | cons a l ih =>
    obtain ⟨ha, hl⟩ := nodup_cons.mp h
    cases l with
    | nil => rfl
    | cons b l =>
      have hne : a ≠ b := fun heq => ha (heq ▸ mem_cons_self)
      rw [adjacentDuplicate, if_neg hne]
      exact ih hl

section

theorem pairwise_sortedEntries (m : HashMap Pubkey V) :
    (sortedEntries m).Pairwise fun a b => keyLe a.1 b.1 :=
  pairwise_sort Prod.fst m.toList

theorem sum_sortedEntries (m : HashMap Pubkey V) (f : Pubkey × V → Nat) :
    ((sortedEntries m).map f).sum = m.sumBy fun k x => f (k, x) :=
  ((perm_insertionSort _ m.toList).map f).sum_eq

theorem nodup_sortedEntries (m : HashMap Pubkey V) : ((sortedEntries m).map Prod.fst).Nodup := by
  have hperm : ((sortedEntries m).map Prod.fst).Perm m.keys := by
    rw [← HashMap.toList_map_fst]
    exact (perm_insertionSort _ m.toList).map Prod.fst
  exact hperm.nodup_iff.mpr m.keys_nodup

theorem mem_sortedEntries : (k, x) ∈ sortedEntries m ↔ m.get k = some x := by
  unfold sortedEntries
  rw [mem_insertionSort, HashMap.mem_toList]

end

end Lichen.Staking
