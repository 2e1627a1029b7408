/-
  Stake-time is exact.

  The history of an epoch is the list of the pools it went through, each with the slot of the call
  that made it.  In a slot an owner has what the last call up to that slot left (`stakeIn`).  Between
  two calls the accumulators hold what the pool has, so stake-time grows by just that in every slot;
  a call moves the accumulators by checkpoints only, and a checkpoint keeps the stake-time of its
  slot (`CheckpointKept`), whoever joins, leaves or comes back.  At the end of the epoch each
  accumulator has the sum over the slots, and the averages of the settlement are that sum divided by
  the length of the epoch (`stake_time_exact`).
-/
import Lichen.Staking.EpochRun
import Mathlib.Algebra.BigOperators.Intervals

open Base HashMap Finset
namespace Lichen.Staking
open StakePool EpochStakeAccumulator

/-! ## Histories -/

/-- A pool of an epoch with the slot of the call that made it, and the pools before it, the last one
    first. -/
inductive EpochHistory : Nat → StakePool → List (Nat × StakePool) → Prop
  | opened {p₀ p : StakePool} {start : Nat} {validators : List Pubkey}
      (h : p₀.initializeStakingV2 start validators = .ok p
        ∨ p₀.advanceStakingV2Epoch start validators = .ok p) : EpochHistory start p []
  | call {p p' : StakePool} {slot slot' : Nat} {earlier : List (Nat × StakePool)} (c : EpochCall)
      (h : EpochHistory slot p earlier) (hle : slot ≤ slot')
      (hin : ∀ s, p.stakingV2State = some s → slot' ≤ s.epochStartSlot + SLOTS_PER_EPOCH)
      (hrun : c.run p slot' = .ok p') : EpochHistory slot' p' ((slot, p) :: earlier)

/-- What `o` has staked on `v` in a slot. -/
def stakeIn (v o : Pubkey) (slot : Nat) : List (Nat × StakePool) → Nat
  | [] => 0
  | (since, p) :: earlier => if since ≤ slot then p.bondedBy v o else stakeIn v o slot earlier

/-- The sum of that over slots, up to but without `stop`. -/
def stakeOver (v o : Pubkey) (start stop : Nat) (history : List (Nat × StakePool)) : Nat :=
  ∑ slot ∈ Ico start stop, stakeIn v o slot history

/-- The average over an epoch. -/
def averageOver (v o : Pubkey) (start : Nat) (history : List (Nat × StakePool)) : Nat :=
  stakeOver v o start (start + SLOTS_PER_EPOCH) history / SLOTS_PER_EPOCH

variable {p : StakePool} {v o : Pubkey} {start slot : Nat} {earlier : List (Nat × StakePool)}

/-- The last pool counts from its slot on. -/
theorem stakeOver_later (hstart : start ≤ slot) (hle : slot ≤ slot') :
    stakeOver v o start slot' ((slot, p) :: earlier)
      = stakeOver v o start slot ((slot, p) :: earlier) + p.bondedBy v o * (slot' - slot) := by
  have hlast : ∑ k ∈ Ico slot slot', stakeIn v o k ((slot, p) :: earlier)
      = #(Ico slot slot') * p.bondedBy v o :=
    sum_const_nat fun k hk => if_pos (mem_Ico.mp hk).1
  unfold stakeOver
  rw [← sum_Ico_consecutive _ hstart hle, hlast, Nat.card_Ico, mul_comm]

/-- A pool does not count before its slot. -/
theorem stakeOver_cons :
    stakeOver v o start slot ((slot, p) :: earlier) = stakeOver v o start slot earlier :=
  sum_congr rfl fun _ hk => if_neg (not_le.mpr (mem_Ico.mp hk).2)

/-! ## The accumulators of the owners -/

/-- The accumulator that the accounting of `v` has for an owner. -/
def ValidatorEpochAccounting.ownedBy (a : ValidatorEpochAccounting) (v : Pubkey) (start : Nat)
    (o : Pubkey) : EpochStakeAccumulator :=
  if o = v then a.selfBond else accumulatorOf a.delegations start o

variable {a : ValidatorEpochAccounting}

/-- Checkpoints keep the stake-time of every owner, the old ones and the new. -/
theorem StakePool.Checkpointed.ownedBy (h : p.Checkpointed start v slot a a') :
    (a'.ownedBy v start o).stakeTime slot = (a.ownedBy v start o).stakeTime slot := by
  unfold ValidatorEpochAccounting.ownedBy
  split
  · obtain ⟨i, -, hbond⟩ := h.bond
    rw [hbond, stakeTime_advanced]
  · rw [accumulatorOf, h.delegations o]
    split
    · exact stakeTime_advanced _ _ _
    · next hnone =>
      rw [not_or, Option.not_isSome_iff_eq_none] at hnone
      rw [accumulatorOf, hnone.1]

/-- They hold what the pool has. -/
theorem StakePool.Current.ownedBy (h : p.Current start v a) :
    (a.ownedBy v start o).amount = p.bondedBy v o := by
  unfold ValidatorEpochAccounting.ownedBy bondedBy accumulatorOf
  split
  · obtain ⟨i, hi, hbond, -⟩ := h.bond
    rw [hbond, bond_of_get hi]
  · cases hx : a.delegations.get o with
    | some x => exact (h.delegations o x hx).2.2
    | none =>
      rw [delegation_eq]
      cases hn : (p.delegationsOf v).get o with
      | none => rfl
      | some n =>
        obtain ⟨x, hsome, -⟩ := h.covered o n hn
        rw [hx] at hsome
        cases hsome

theorem ValidatorEpochAccounting.Past.ownedBy (h : a.Past slot) (hstart : start ≤ slot) :
    (a.ownedBy v start o).lastCheckpointSlot ≤ slot := by
  unfold ValidatorEpochAccounting.ownedBy accumulatorOf
  split
  · exact h.bond
  · cases hx : a.delegations.get o with
    | some x => exact h.delegations o x hx
    | none => exact hstart

/-! ## Runs -/

/-- Every accumulator of the epoch has the stake-time that `time` says. -/
def Timed (time : Pubkey → Pubkey → Nat) (start slot : Nat) (s : StakingV2EpochState) : Prop :=
  s.epochStartSlot = start ∧ ∀ v a o, s.validators.get v = some a →
    (a.ownedBy v start o).stakeTime slot = time v o

theorem Timed.checkpointKept (time : Pubkey → Pubkey → Nat) (start slot : Nat) :
    CheckpointKept (Timed time start slot) slot := by
  intro p p' v h hop s' hs'
  cases hs : p.stakingV2State with
  | none => grind [StakePool.checkpointStakingV2ValidatorInner]
  | some s =>
    obtain ⟨-, a, a', ha, -, hcp, rfl⟩ := checkpointInner_spec hs hop
    cases hs'
    obtain ⟨rfl, htime⟩ := h s hs
    refine ⟨rfl, fun w b o hb => ?_⟩
    rcases get_put_cases hb with ⟨rfl, rfl⟩ | ⟨-, hb⟩
    · rw [hcp.ownedBy]
      exact htime w a o ha
    · exact htime w b o hb

/-- The state of a history: what holds along every run, and the exact stake-time. -/
structure HistoryInv (slot : Nat) (p : StakePool) (earlier : List (Nat × StakePool)) : Prop where
  run : RunInv p slot
  exact : ∃ start, Kept
    (Timed (fun v o => stakeOver v o start slot ((slot, p) :: earlier)) start slot) p

/-- Time passes. -/
theorem HistoryInv.later (h : HistoryInv slot p earlier) (hle : slot ≤ slot') : ∃ start, Kept
      (Timed (fun v o => stakeOver v o start slot' ((slot, p) :: earlier)) start slot') p := by
  obtain ⟨start, hexact⟩ := h.exact
  obtain ⟨-, -, hepoch⟩ := validateV2Invariants_eq_ok.mp h.run.valid
  refine ⟨start, fun s hs => ?_⟩
  obtain ⟨rfl, htime⟩ := hexact s hs
  have htimed := (h.run.epoch s hs).timed
  refine ⟨rfl, fun v a o ha => ?_⟩
  rw [stakeTime_later ((htimed.past v a ha).ownedBy htimed.started) hle, htime v a o ha,
    ((hepoch s hs).current v a ha).ownedBy]
  exact (stakeOver_later htimed.started hle).symm

theorem HistoryInv.fresh {opened}
    (h : p.Opened epoch start l (∅, commissions) opened) (hv : s.validators = opened.1)
    (hstart : s.epochStartSlot = start) (hnew : s.lastSettledEpoch ≠ some s.currentEpoch)
    (hval : (p.withEpoch s).validateV2Invariants = .ok ()) :
    HistoryInv start (p.withEpoch s) [] := by
  refine ⟨.fresh h hv hstart hnew hval, start, fun s' hs' => ?_⟩
  cases hs'
  refine ⟨hstart, fun v a o ha => ?_⟩
  rw [hv] at ha
  obtain ⟨-, i, -, rfl⟩ := h.get ha
  have hnone : stakeOver v o start start [(start, p.withEpoch s)] = 0 := by simp [stakeOver]
  refine Eq.trans ?_ hnone.symm
  unfold ValidatorEpochAccounting.ownedBy opening accumulatorOf
  split
  · simp [stakeTime, EpochStakeAccumulator.new]
  · rw [get_mapValues]
    cases (p.delegationsOf v).get o with
    | none => exact stakeTime_new _ _
    | some n => simp [stakeTime, EpochStakeAccumulator.new]

/-- **Every history.** -/
theorem EpochHistory.inv (h : EpochHistory slot p earlier) : HistoryInv slot p earlier := by
  induction h with
  | opened h =>
    unfold initializeStakingV2 advanceStakingV2Epoch at h
    simp only [ok_rules] at h
    rcases h with ⟨-, -, -, opened, hopened, -, x, -, hval, rfl⟩
      | ⟨-, s, -, -, -, -, -, next, ⟨-, rfl⟩, opened, hopened, -, x, -, hval, rfl⟩
    · exact .fresh (openAccounting_spec hopened) rfl rfl (by grind) hval
    · exact .fresh (openAccounting_spec hopened) rfl rfl (by simp) hval
  | call c _ hle hin hrun ih =>
    obtain ⟨start, hlater⟩ := ih.later hle
    refine ⟨ih.run.call hle hin hrun, start, ?_⟩
    simp only [stakeOver_cons]
    exact EpochCall.run_kept (.checkpointKept _ _ _) hlater hrun

/-- **Stake-time is measured exactly.**  The averages of a settlement are, for every validator of
    the epoch and every owner, the sum over the slots of the epoch of what the owner had in the slot,
    divided by the number of slots; a delegator is left out when that is zero. -/
theorem stake_time_exact {p : StakePool} {s : StakingV2EpochState} {slot : Nat}
    {earlier : List (Nat × StakePool)} (h : EpochHistory slot p earlier)
    (hs : p.stakingV2State = some s) (hfit : s.epochStartSlot + SLOTS_PER_EPOCH < 2 ^ 64) :
    ∃ r, p.stakingV2EpochRewardInputs (s.epochStartSlot + SLOTS_PER_EPOCH) = .ok r
      ∧ (∀ v, s.validators.containsKey v = true → ∃ w ∈ r.stakeWeights.validators, w.validator = v)
      ∧ ∀ w ∈ r.stakeWeights.validators,
        w.averageSelfBond = averageOver w.validator w.validator s.epochStartSlot ((slot, p) :: earlier)
          ∧ ∀ d n, (d, n) ∈ w.averageDelegations ↔ d ≠ w.validator ∧ 0 < n
            ∧ n = averageOver w.validator d s.epochStartSlot ((slot, p) :: earlier) := by
  have hinv := h.inv
  obtain ⟨hp, hkept⟩ := hinv.run
  obtain ⟨htimed, hwithin, hweight, -⟩ := hkept s hs
  obtain ⟨hvalid, -, hepochs⟩ := validateV2Invariants_eq_ok.mp hp
  have hepoch := hepochs s hs
  obtain ⟨start, hlater⟩ := hinv.later hwithin
  obtain ⟨rfl, htime⟩ := hlater s hs
  obtain ⟨r, hr, hweights, -⟩ :=
    inputs_ok (htimed.later hvalid hepoch hwithin) rfl hweight hp hs hfit
  refine ⟨r, hr, fun v hv => ?_, fun w hw => ?_⟩
  · obtain ⟨a, ha⟩ := Option.isSome_iff_exists.mp hv
    rw [hweights]
    exact ⟨_, List.mem_map_of_mem (mem_sortedEntries.mpr ha), rfl⟩
  · rw [hweights] at hw
    obtain ⟨⟨v, a⟩, he, rfl⟩ := List.mem_map.mp hw
    have ha := mem_sortedEntries.mp he
    have haverage : ∀ o, (a.ownedBy v s.epochStartSlot o).average _
        = averageOver v o s.epochStartSlot ((slot, p) :: earlier) :=
      fun o => congrArg (· / SLOTS_PER_EPOCH) (htime v a o ha)
    refine ⟨?_, fun d n => ?_⟩
    · have hself := haverage v
      rw [ValidatorEpochAccounting.ownedBy, if_pos rfl] at hself
      exact hself
    · show (d, n) ∈ List.filter _ _ ↔ d ≠ v ∧ 0 < n ∧ n = averageOver v d s.epochStartSlot _
      rw [List.mem_filter, List.mem_map, ← haverage]
      constructor
      · rintro ⟨⟨⟨d, x⟩, hx, ⟨⟩⟩, hpos⟩
        have hx := mem_sortedEntries.mp hx
        have hne := ((hepoch.current v a ha).delegations d x hx).1
        refine ⟨hne, of_decide_eq_true hpos, ?_⟩
        rw [ValidatorEpochAccounting.ownedBy, if_neg hne, accumulatorOf, hx]
        rfl
      · rintro ⟨hne, hpos, rfl⟩
        rw [ValidatorEpochAccounting.ownedBy, if_neg hne, accumulatorOf] at hpos ⊢
        cases hx : a.delegations.get d with
        | some x =>
          rw [hx] at hpos
          exact ⟨⟨(d, x), mem_sortedEntries.mpr hx, rfl⟩, decide_eq_true hpos⟩
        | none =>
          -- no accumulator, no stake-time
          rw [hx, Option.getD_none, EpochStakeAccumulator.average, stakeTime_new] at hpos
          exact absurd hpos (by decide)

theorem stake_time_exact_followed : ∃ r,
    (followed 10).stakingV2EpochRewardInputs 432000 = .ok r ∧ ∀ w ∈ r.stakeWeights.validators,
      w.averageSelfBond = averageOver w.validator w.validator 0
        [(43200, followed 10), (43200, toppedUp 10), (0, cappedStart)] := by
  have hin : ∀ p : StakePool, ∀ s, p.stakingV2State = some s →
      43200 ≤ s.epochStartSlot + SLOTS_PER_EPOCH :=
    fun p s _ => le_trans (by decide) (Nat.le_add_left SLOTS_PER_EPOCH _)
  have hopen : EpochHistory 0 cappedStart [] := .opened (.inl (settleTo_of_isOk (by decide +kernel)))
  have htop : EpochHistory 43200 (toppedUp 10) _ :=
    .call _ hopen (by decide) (hin _) (settleTo_of_isOk (by decide +kernel))
  have hlast : EpochHistory 43200 (followed 10) _ :=
    .call _ htop (le_refl _) (hin _) (settleTo_of_isOk (by decide +kernel))
  have hstart : ((followed 10).stakingV2State.get (by decide +kernel)).epochStartSlot = 0 := by
    decide +kernel
  obtain ⟨r, hr, -, hw⟩ := stake_time_exact hlast (Option.some_get _).symm (by rw [hstart]; decide)
  rw [hstart] at hr hw
  exact ⟨r, hr, fun w hmem => (hw w hmem).1⟩

end Lichen.Staking
