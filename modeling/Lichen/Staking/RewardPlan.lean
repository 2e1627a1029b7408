/-
  Reward plans.

  The inputs of a settlement are the averages of the epoch (`inputs_ok`), and nothing about them can
  fail while `StakeTimed` holds.  The plan is then refused for one reason only: a validator whose
  averages, rounded down one by one, add up to more than five times its average bond
  (`eligibleWeights_eq_ok`).  Past that point every division comes out exactly (`plan_ok`).
-/
import Lichen.Staking.Rewards
import Lichen.Staking.StakeTime

open Base HashMap U64
namespace Lichen.Staking
open ValidatorEpochAccounting List

/-! ## The weights of an epoch -/

/-- The weight of one validator: its averages, without the delegators that average to zero. -/
def ValidatorEpochAccounting.weight (epochEnd : Nat) (e : Pubkey × ValidatorEpochAccounting) :
    ValidatorEpochStakeWeight where
  validator := e.1
  averageSelfBond := e.2.selfBond.average epochEnd
  averageDelegations := ((sortedEntries e.2.delegations).map fun d => (d.1, d.2.average epochEnd)
    ).filter fun d => decide (0 < d.2)

/-- The weights of an epoch, in key order. -/
def StakingV2EpochState.weights (s : StakingV2EpochState) (epochEnd : Nat) :
    List ValidatorEpochStakeWeight :=
  (sortedEntries s.validators).map (ValidatorEpochAccounting.weight epochEnd)

/-- Every validator's averages stay within five times its average bond. -/
def StakingV2EpochState.AverageCapped (s : StakingV2EpochState) (epochEnd : Nat) : Prop :=
  ∀ v a, s.validators.get v = some a →
    a.averageStake epochEnd ≤ MAX_VALIDATOR_EFFECTIVE_STAKE_MULTIPLIER * a.selfBond.average epochEnd

/-- Leaving out zeros does not change a sum. -/
theorem sum_filter_pos {α : Type} (f : α → Nat) (l : List α) :
    ((l.filter fun a => decide (0 < f a)).map f).sum = (l.map f).sum := by
  induction l with
  | nil => rfl
  | cons a l ih =>
    grind

variable {w : ValidatorEpochStakeWeight}

theorem ValidatorEpochStakeWeight.averageEffectiveStake_eq_ok (h : w.averageSelfBond < 2 ^ 64) :
    w.averageEffectiveStake = .ok t ↔
      w.averageSelfBond + (w.averageDelegations.map Prod.snd).sum < 2 ^ 64
        ∧ t = w.averageSelfBond + (w.averageDelegations.map Prod.snd).sum := by
  unfold averageEffectiveStake
  exact tryFold_add_eq_ok h

variable {s : StakingV2EpochState} {v : Pubkey} {a : ValidatorEpochAccounting} {epochEnd : Nat}

theorem ValidatorEpochAccounting.sum_weight (e : Pubkey × ValidatorEpochAccounting)
    (epochEnd : Nat) :
    ((weight epochEnd e).averageDelegations.map Prod.snd).sum = e.2.averageDelegated epochEnd := by
  unfold weight averageDelegated
  rw [sum_filter_pos, map_map]
  exact sum_sortedEntries e.2.delegations _

/-! ## Averages that fit -/

section
variable (h : StakeTimed s epochEnd) (hend : epochEnd = s.epochStartSlot + SLOTS_PER_EPOCH)
  (ha : s.validators.get v = some a)
include h hend ha

theorem StakeTimed.stakeTime_lt : a.stakeTime epochEnd < 2 ^ 128 := by
  have hle : a.stakeTime epochEnd ≤ s.stakeTime epochEnd :=
    le_sumBy_of_get (fun _ b => b.stakeTime epochEnd) ha
  have htotal := h.total
  grind [U64.MAX, SLOTS_PER_EPOCH]

theorem StakeTimed.stake_lt : a.averageStake epochEnd < 2 ^ 64 :=
  lt_of_le_of_lt (le_sumBy_of_get (fun _ b => b.averageStake epochEnd) ha) (h.averageStake_lt hend)

/-- The average weight of an epoch does not overflow. -/
theorem StakeTimed.averageWeight_ok : averageWeight epochEnd s.epochStartSlot (v, a)
      = .ok (ValidatorEpochAccounting.weight epochEnd (v, a)) := by
  have htime := h.stakeTime_lt hend ha
  have hstake := h.stake_lt hend ha
  have hpast := h.past v a ha
  unfold ValidatorEpochAccounting.stakeTime at htime
  unfold ValidatorEpochAccounting.averageStake at hstake
  have hself : a.selfBond.averageAmount epochEnd s.epochStartSlot
      = .ok (a.selfBond.average epochEnd) := by
    refine averageAmount hend hpast.bond ?_ ?_
    · omega
    · omega
  have hdel : ∀ d x, a.delegations.get d = some x →
      x.averageAmount epochEnd s.epochStartSlot = .ok (x.average epochEnd) := by
    intro d x hx
    have hle : x.stakeTime epochEnd ≤ a.delegations.sumBy fun _ x => x.stakeTime epochEnd :=
      le_sumBy_of_get (fun _ x => x.stakeTime epochEnd) hx
    have havg : x.average epochEnd ≤ a.averageDelegated epochEnd :=
      le_sumBy_of_get (fun _ x => x.average epochEnd) hx
    refine averageAmount hend (hpast.delegations d x hx) ?_ ?_
    · omega
    · omega
  -- the loop over the delegators, from any list of averages it has already made
  have hloop : ∀ (l : List (Pubkey × EpochStakeAccumulator)) (acc : List (Pubkey × Nat)),
      (∀ e ∈ l, a.delegations.get e.1 = some e.2) →
      tryFold (fun averages (d : Pubkey × EpochStakeAccumulator) => do
        let average ← d.2.averageAmount epochEnd s.epochStartSlot
        pure (if 0 < average then averages ++ [(d.1, average)] else averages)) acc l
        = (.ok (acc ++ (l.map fun d => (d.1, d.2.average epochEnd)).filter
          fun d => decide (0 < d.2)) : Except String _) := by
    intro l
    induction l with
    | nil =>
      intro acc _
      simp
    | cons e l ih =>
      intro acc hl
      rw [tryFold, hdel e.1 e.2 (hl e mem_cons_self), bind_ok]
      grind
  unfold averageWeight
  simp only [hself, bind_ok, hloop _ [] fun e he => mem_sortedEntries.mp he, nil_append]
  rfl

end

/-! ## The inputs -/

namespace StakePool

variable {p : StakePool}

/-- What the loop has put into the two maps of the inputs. -/
structure Rated (t : InputProgress) (e : Pubkey × ValidatorEpochAccounting) : Prop where
  performance : ∃ x, t.performanceBps.get e.1 = some x ∧ x ≤ 10000
  commission : t.commissionBps.get e.1 = some e.2.commissionBps

/-- The invariant of the loop of the inputs. -/
structure InputInv (s : StakingV2EpochState) (epochEnd : Nat) (t : InputProgress)
    (rest : List (Pubkey × ValidatorEpochAccounting)) : Prop where
  blocks : Due SLOTS_PER_EPOCH (s.validators.sumBy fun _ a => a.leaderWeight)
    t.expectedDistributed (rest.map fun e => e.2.leaderWeight)
  weights : t.validators ++ rest.map (ValidatorEpochAccounting.weight epochEnd)
    = s.weights epochEnd
  listed : ∀ e ∈ rest, s.validators.get e.1 = some e.2
  rated : ∀ v a, s.validators.get v = some a → (v, a) ∈ rest ∨ Rated t (v, a)

section
variable (htimed : StakeTimed s epochEnd) (hend : epochEnd = s.epochStartSlot + SLOTS_PER_EPOCH)
  (hweight : (s.validators.sumBy fun _ a => a.leaderWeight) < 2 ^ 64)
include htimed hend hweight

/-- One turn. -/
theorem InputInv.step (h : InputInv s epochEnd t (e :: rest)) (hepoch : p.EpochOk s) :
    ∃ t', p.inputStep s epochEnd (s.validators.sumBy fun _ a => a.leaderWeight) rest.isEmpty t e
      = .ok t' ∧ InputInv s epochEnd t' rest := by
  have hget := h.listed e mem_cons_self
  obtain ⟨i, hi, -, hbase⟩ := (hepoch.current e.1 e.2 hget).bond
  have hblocks := h.blocks
  rw [map_cons] at hblocks
  obtain ⟨x, hx, hle, hdue⟩ := hblocks.apportion (by decide) hweight
    "expected block remainder underflow"
  rw [isEmpty_map] at hx
  have hslots : SLOTS_PER_EPOCH < 2 ^ 64 := by decide
  unfold inputStep
  simp only [hx, bind_ok, ok_rules, htimed.averageWeight_ok hend hget, hi]
  refine ⟨_, ⟨_, ⟨by omega, rfl⟩, i, rfl, _, ⟨hbase, rfl⟩, rfl⟩, hdue, ?_, ?_, ?_⟩
  · rw [← h.weights, map_cons, append_assoc]
    rfl
  · exact fun e' he' => h.listed e' (mem_cons_of_mem e he')
  · intro v a ha
    by_cases hv : v = e.1
    · -- the entry just rated
      subst hv
      rw [hget] at ha
      cases ha
      refine .inr ⟨⟨_, get_put_self _ _ _, ?_⟩, get_put_self _ _ _⟩
      grind
    · rcases h.rated v a ha with hmem | hrated
      · grind
      · obtain ⟨⟨y, hy, hyle⟩, hc⟩ := hrated
        refine .inr ⟨⟨y, ?_, hyle⟩, ?_⟩
        · exact (get_put_ne _ _ hv).trans hy
        · exact (get_put_ne _ _ hv).trans hc

/-- **The inputs of a settlement** are the averages of the epoch, with a performance of at most 100%
    and the frozen commission for each of its validators. -/
theorem inputs_ok (hp : p.validateV2Invariants = .ok ()) (hs : p.stakingV2State = some s)
    (hfit : epochEnd < 2 ^ 64) :
    ∃ r, p.stakingV2EpochRewardInputs epochEnd = .ok r
      ∧ r.stakeWeights = ⟨s.currentEpoch, s.epochStartSlot, epochEnd, s.weights epochEnd⟩
      ∧ ∀ v a, s.validators.get v = some a → (∃ x, r.performanceBps.get v = some x ∧ x ≤ 10000)
          ∧ r.commissionBps.get v = some a.commissionBps := by
  have hepoch := (validateV2Invariants_eq_ok.mp hp).2.2 s hs
  have hsum : ((sortedEntries s.validators).map fun e => e.2.leaderWeight).sum
      = s.validators.sumBy fun _ a => a.leaderWeight := sum_sortedEntries _ _
  have htotal : tryFold (fun total (e : Pubkey × ValidatorEpochAccounting) =>
      okOr (U64.checkedAdd total e.2.leaderWeight) "epoch leader-weight total overflow") 0
      (sortedEntries s.validators) = .ok (s.validators.sumBy fun _ a => a.leaderWeight) := by
    rw [tryFold_add_eq_ok (Nat.two_pow_pos 64), hsum, zero_add]
    exact ⟨hweight, rfl⟩
  -- there is a validator, and its leader weight is not zero
  obtain ⟨e, he⟩ : ∃ e, e ∈ sortedEntries s.validators := by
    refine exists_mem_of_ne_nil _ fun hnil => hepoch.occupied ?_
    exact (length_insertionSort _ _).symm.trans (congrArg length hnil)
  have hnil : sortedEntries s.validators ≠ [] := ne_nil_of_mem he
  have hpos : (s.validators.sumBy fun _ a => a.leaderWeight) ≠ 0 := by
    obtain ⟨x, -, -, hfrozen⟩ := hepoch.frozen
    have hget := mem_sortedEntries.mp he
    have hle := le_sumBy_of_get (fun _ (a : ValidatorEpochAccounting) => a.leaderWeight) hget
    have hne := (hfrozen _ _ hget).weight
    omega
  have hstart : InputInv s epochEnd ⟨0, [], ∅, ∅⟩ (sortedEntries s.validators) := by
    refine ⟨.start (by simpa using hnil) hsum, rfl, fun e he => mem_sortedEntries.mp he, ?_⟩
    intro v a ha
    exact .inl (mem_sortedEntries.mpr ha)
  obtain ⟨t, ht, hinv⟩ := tryFoldLast_total
    (f := p.inputStep s epochEnd (s.validators.sumBy fun _ a => a.leaderWeight))
    (fun t e rest h => h.step htimed hend hweight hepoch) hstart
  have hweights := hinv.weights
  rw [map_nil, append_nil] at hweights
  have hblocks : t.expectedDistributed = SLOTS_PER_EPOCH := hinv.blocks.done rfl
  refine ⟨⟨⟨s.currentEpoch, s.epochStartSlot, epochEnd, t.validators⟩, t.performanceBps,
    t.commissionBps⟩, ?_, by rw [hweights], fun v a ha => ?_⟩
  · unfold stakingV2EpochRewardInputs
    grind
  · rcases hinv.rated v a ha with hmem | hrated
    · simp at hmem
    · exact ⟨hrated.performance, hrated.commission⟩

end

/-! ## Who is eligible -/

section
variable (e : Pubkey × ValidatorEpochAccounting) (epochEnd : Nat)

/-- The weights of an epoch are in key order, and so are the delegations of each. -/
theorem pairwise_averageDelegations :
    (ValidatorEpochAccounting.weight epochEnd e).averageDelegations.Pairwise
      fun a b => keyLe a.1 b.1 := by
  have hsorted := pairwise_sortedEntries e.2.delegations
  exact List.Pairwise.filter _ (pairwise_map.mpr hsorted)

theorem nodup_averageDelegations :
    ((ValidatorEpochAccounting.weight epochEnd e).averageDelegations.map Prod.fst).Nodup := by
  have hnodup := nodup_sortedEntries e.2.delegations
  grind [ValidatorEpochAccounting.weight]

end
section
variable (hepoch : p.EpochOk s) (htimed : StakeTimed s epochEnd)
  (hend : epochEnd = s.epochStartSlot + SLOTS_PER_EPOCH)
include hepoch htimed hend

/-- **The check of one weight** only asks for the cap on its averages. -/
theorem checkWeight_eq_ok (ha : s.validators.get v = some a) :
    p.checkWeight (ValidatorEpochAccounting.weight epochEnd (v, a)) = .ok r ↔
      a.averageStake epochEnd ≤ MAX_VALIDATOR_EFFECTIVE_STAKE_MULTIPLIER * a.selfBond.average epochEnd
        ∧ r = (ValidatorEpochAccounting.weight epochEnd (v, a), a.averageStake epochEnd) := by
  have hcurrent := hepoch.current v a ha
  obtain ⟨i, hi, -⟩ := hcurrent.bond
  have hbond := htimed.average_bond_le hend ha
  have hstake := htimed.stake_lt hend ha
  have hsort := (pairwise_averageDelegations (v, a) epochEnd).insertionSort_eq
  have hdup := adjacentDuplicate_of_nodup (nodup_averageDelegations (v, a) epochEnd)
  have hentries : ∀ e ∈ (ValidatorEpochAccounting.weight epochEnd (v, a)).averageDelegations,
      e.1 ≠ v ∧ e.2 ≠ 0 := by
    intro e he
    unfold ValidatorEpochAccounting.weight at he
    rw [mem_filter, mem_map] at he
    obtain ⟨⟨d, hd, rfl⟩, hpos⟩ := he
    exact ⟨(hcurrent.delegations d.1 d.2 (mem_sortedEntries.mp hd)).1,
      pos_iff_ne_zero.mp (of_decide_eq_true hpos)⟩
  have heff : ∀ t, (ValidatorEpochAccounting.weight epochEnd (v, a)).averageEffectiveStake = .ok t ↔
      t = a.averageStake epochEnd := by
    intro t
    have hself : (ValidatorEpochAccounting.weight epochEnd (v, a)).averageSelfBond < 2 ^ 64 := by
      show a.selfBond.average epochEnd < 2 ^ 64
      unfold MAX_VALIDATOR_STAKE at hbond
      omega
    rw [ValidatorEpochStakeWeight.averageEffectiveStake_eq_ok hself, sum_weight]
    exact ⟨fun h => h.2, fun h => ⟨hstake, h⟩⟩
  have hcap : a.selfBond.average epochEnd * MAX_VALIDATOR_EFFECTIVE_STAKE_MULTIPLIER < 2 ^ 64 := by
    unfold MAX_VALIDATOR_STAKE at hbond
    unfold MAX_VALIDATOR_EFFECTIVE_STAKE_MULTIPLIER
    omega
  have hkey : ¬ p.stakes.containsKey v = false := by
    unfold HashMap.containsKey
    rw [hi]
    exact Bool.true_eq_false_eq_False
  unfold checkWeight
  simp only [hsort, hdup, ok_rules, forEach_eq_ok, checkedMul_eq_some]
  rw [mul_comm MAX_VALIDATOR_EFFECTIVE_STAKE_MULTIPLIER]
  constructor
  · rintro ⟨-, -, t, ht, -, ⟨-, rfl⟩, hle, rfl⟩
    obtain rfl := (heff t).mp ht
    exact ⟨not_lt.mp hle, rfl⟩
  · rintro ⟨hle, rfl⟩
    exact ⟨hkey, hentries, _, (heff _).mpr rfl, _, ⟨hcap, rfl⟩, not_lt.mpr hle, rfl⟩

/-- **Eligibility.** -/
theorem eligibleWeights_eq_ok : p.eligibleWeights (s.weights epochEnd) = .ok r ↔
      s.AverageCapped epochEnd ∧ r = (s.weights epochEnd, s.averageStake epochEnd) := by
  have hsort : (s.weights epochEnd).insertionSort (fun a b => keyLe a.validator b.validator)
      = s.weights epochEnd := by
    refine List.Pairwise.insertionSort_eq ?_
    exact pairwise_map.mpr (pairwise_sortedEntries s.validators)
  have hkeys : (s.weights epochEnd).map ValidatorEpochStakeWeight.validator
      = (sortedEntries s.validators).map Prod.fst := by
    unfold StakingV2EpochState.weights
    rw [map_map]
    rfl
  have hdup : adjacentDuplicate ((s.weights epochEnd).map ValidatorEpochStakeWeight.validator)
      = none := by
    rw [hkeys]
    exact adjacentDuplicate_of_nodup (nodup_sortedEntries s.validators)
  have hsum : ((sortedEntries s.validators).map fun e => e.2.averageStake epochEnd).sum
      = s.averageStake epochEnd := sum_sortedEntries _ _
  unfold eligibleWeights
  simp only [hsort, hdup]
  unfold StakingV2EpochState.weights
  -- the loop is run over the entries the weights were made of
  rw [tryFold_map, tryFold_collect_eq_ok (fun e => e.2.averageStake epochEnd
      ≤ MAX_VALIDATOR_EFFECTIVE_STAKE_MULTIPLIER * e.2.selfBond.average epochEnd)
    (fun e => e.2.averageStake epochEnd) (ValidatorEpochAccounting.weight epochEnd)
    (fun acc e r he => ?_) (Nat.two_pow_pos 64), hsum, zero_add, nil_append]
  · have hcapped : (∀ e ∈ sortedEntries s.validators, e.2.averageStake epochEnd
        ≤ MAX_VALIDATOR_EFFECTIVE_STAKE_MULTIPLIER * e.2.selfBond.average epochEnd)
        ↔ s.AverageCapped epochEnd :=
      ⟨fun h v a ha => h (v, a) (mem_sortedEntries.mpr ha),
        fun h e he => h e.1 e.2 (mem_sortedEntries.mp he)⟩
    grind [StakeTimed.averageStake_lt]
  · have hget := mem_sortedEntries.mp he
    simp only [ok_rules, checkWeight_eq_ok hepoch htimed hend hget]
    constructor
    · grind
    · simp_all

end
end StakePool

/-! ## Splitting the reward of a validator -/

theorem creditTotal_eq_ok (h : start < 2 ^ 64) : creditTotal start overflow credits = .ok t ↔
      start + (credits.map DelegatorEpochReward.amount).sum < 2 ^ 64
        ∧ t = start + (credits.map DelegatorEpochReward.amount).sum := by
  unfold creditTotal
  exact tryFold_add_eq_ok h

/-- The rewards handed out so far, and what is due to the delegators to come. -/
def DelegatorInv (budget total : Nat) (acc : Nat × List DelegatorEpochReward)
    (rest : List (Pubkey × Nat)) : Prop :=
  Due budget total acc.1 (rest.map Prod.snd)
    ∧ (acc.2.map DelegatorEpochReward.amount).sum = acc.1

variable {budget total : Nat}

theorem DelegatorInv.step (h : DelegatorInv budget total acc (e :: rest))
    (hb : budget < 2 ^ 64) (ht : total < 2 ^ 64) :
    ∃ acc', delegatorStep budget total rest.isEmpty acc e = .ok acc'
      ∧ DelegatorInv budget total acc' rest := by
  obtain ⟨hdue, hcredits⟩ := h
  rw [map_cons] at hdue
  obtain ⟨x, hx, hle, hdue'⟩ := hdue.apportion hb ht "delegator reward remainder underflow"
  rw [isEmpty_map] at hx
  refine ⟨(acc.1 + x, if 0 < x then acc.2 ++ [⟨e.1, x⟩] else acc.2), ?_, hdue', ?_⟩
  · unfold delegatorStep
    grind
  · grind

/-- The delegators get their budget to the last spore. -/
theorem planDelegators_ok (hl : l ≠ [])
    (hsum : (l.map Prod.snd).sum = total) (hb : budget < 2 ^ 64) (ht : total < 2 ^ 64) :
    ∃ r, planDelegators budget total l = .ok (budget, r)
      ∧ (r.map DelegatorEpochReward.amount).sum = budget := by
  have hstart : DelegatorInv budget total (0, []) l := ⟨.start (by simpa using hl) hsum, rfl⟩
  obtain ⟨c, hc, hdue, hcredits⟩ := tryFoldLast_total (f := delegatorStep budget total)
    (fun acc e rest h => DelegatorInv.step h hb ht) hstart
  grind [Due.done, planDelegators]

/-- What a validator's plan hands out is its adjusted reward. -/
def ValidatorEpochRewardPlan.Exact (plan : ValidatorEpochRewardPlan) : Prop :=
  plan.selfBondReward + plan.commissionReward
    + (plan.delegatorRewards.map DelegatorEpochReward.amount).sum = plan.performanceAdjustedReward

/-- **Splitting never fails.** -/
theorem splitReward_ok
    (heff : w.averageSelfBond + (w.averageDelegations.map Prod.snd).sum = effective)
    (hfit : effective < 2 ^ 64) (hbase : base < 2 ^ 64) (hperf : performance ≤ 10000)
    (hcomm : commission ≤ 10000) :
    ∃ plan, splitReward w effective commission base performance = .ok plan
      ∧ plan.validator = w.validator
      ∧ plan.performanceAdjustedReward = mulDiv base performance 10000 ∧ plan.Exact := by
  obtain ⟨hadj, hadjle⟩ := mulDiv_of_le hbase (by decide) hperf
  rw [← hadj] at hadjle
  have hadj64 : mulDiv base performance 10000 < 2 ^ 64 := by omega
  generalize hA : mulDiv base performance 10000 = adjusted at *
  have hdel : effective - w.averageSelfBond = (w.averageDelegations.map Prod.snd).sum := by omega
  generalize hD : (w.averageDelegations.map Prod.snd).sum = delegated at *
  obtain ⟨hgross, hgrossle⟩ := mulDiv_of_le hadj64 hfit (show delegated ≤ effective by omega)
  rw [← hgross] at hgrossle
  generalize hG : (if delegated = 0 then 0 else mulDiv adjusted delegated effective) = gross
  have hGle : gross ≤ adjusted := by
    rw [← hG]
    split <;> omega
  obtain ⟨hcr, hcrle⟩ := mulDiv_of_le (show gross < 2 ^ 64 by omega)
    (show (10000 : Nat) < 2 ^ 64 by decide) hcomm
  rw [← hcr] at hcrle
  -- the delegators get what the commission leaves of the gross reward
  have hplan : ∃ r, planDelegations w.validator (gross - mulDiv gross commission 10000) delegated
      w.averageDelegations = .ok r ∧ (r.map DelegatorEpochReward.amount).sum
        = gross - mulDiv gross commission 10000 := by
    unfold planDelegations
    by_cases hpos : 0 < delegated
    · have hne : w.averageDelegations ≠ [] := by
        intro hnil
        rw [hnil] at hD
        simp at hD
        omega
      obtain ⟨r, hr, hsum⟩ := planDelegators_ok hne hD
        (show gross - mulDiv gross commission 10000 < 2 ^ 64 by omega) (by omega)
      grind [exists_unit]
    · refine ⟨[], by rw [if_neg hpos], ?_⟩
      grind
  obtain ⟨r, hr, hsum⟩ := hplan
  refine ⟨⟨w.validator, base, performance, adjusted, adjusted - gross, gross,
    mulDiv gross commission 10000, r⟩, ?_, rfl, rfl, ?_⟩
  · unfold splitReward
    simp only [ok_rules, hA]
    refine ⟨delegated, ⟨by omega, hdel.symm⟩, _, ⟨by rw [hG]; omega, rfl⟩, _, ⟨by rw [hG]; omega, rfl⟩,
      r, ?_, _, ⟨by rw [hG]; omega, rfl⟩, adjusted, ?_, by simp, ?_⟩
    · rw [hG]
      exact hr
    · rw [hG, creditTotal_eq_ok (by omega), hsum]
      omega
    · rw [hG]
  · show adjusted - gross + mulDiv gross commission 10000 + _ = adjusted
    rw [hsum]
    omega

/-! ## The plan -/

variable {p : StakePool}

/-- A frozen commission is within the maximum. -/
theorem StakePool.EpochOk.commission_le (h : p.EpochOk s)
    (ha : s.validators.get v = some a) : a.commissionBps ≤ MAX_VALIDATOR_COMMISSION_BPS := by
  obtain ⟨x, -, -, hfrozen⟩ := h.frozen
  obtain ⟨c, hc, hbps⟩ := (hfrozen v a ha).commission
  have hvalid := h.commissions v c hc
  grind [ValidatorCommissionState.validate]

/-- The effective stake of a weight is the average of its validator. -/
theorem StakeTimed.averageEffectiveStake_ok (h : StakeTimed s epochEnd)
    (hend : epochEnd = s.epochStartSlot + SLOTS_PER_EPOCH) (ha : s.validators.get v = some a) :
    (ValidatorEpochAccounting.weight epochEnd (v, a)).averageEffectiveStake
      = .ok (a.averageStake epochEnd) := by
  have hstake := h.stake_lt hend ha
  grind [ValidatorEpochAccounting.weight, ValidatorEpochAccounting.averageStake,
    ValidatorEpochStakeWeight.averageEffectiveStake_eq_ok, sum_weight]

/-- The ratings that the inputs hold for every validator. -/
def RatedBy (s : StakingV2EpochState) (performanceBps commissionBps : HashMap Pubkey Nat) : Prop :=
  ∀ v a, s.validators.get v = some a → (∃ x, performanceBps.get v = some x ∧ x ≤ 10000)
    ∧ commissionBps.get v = some a.commissionBps

/-- The invariant of the loop of the plan. -/
structure PlanInv (s : StakingV2EpochState) (epochEnd budget : Nat) (t : PlanProgress)
    (rest : List (Pubkey × ValidatorEpochAccounting)) : Prop where
  base : Due budget (s.averageStake epochEnd) t.baseDistributed
    (rest.map fun e => e.2.averageStake epochEnd)
  assigned : t.assignedReward
    = (t.validators.map ValidatorEpochRewardPlan.performanceAdjustedReward).sum
  bounded : t.assignedReward ≤ t.baseDistributed
  exact : ∀ plan ∈ t.validators, plan.Exact
  keys : t.validators.map ValidatorEpochRewardPlan.validator ++ rest.map Prod.fst
    = (sortedEntries s.validators).map Prod.fst
  listed : ∀ e ∈ rest, s.validators.get e.1 = some e.2

variable {performanceBps commissionBps : HashMap Pubkey Nat} (hepoch : p.EpochOk s)
  (htimed : StakeTimed s epochEnd)
  (hend : epochEnd = s.epochStartSlot + SLOTS_PER_EPOCH)
  (hrated : RatedBy s performanceBps commissionBps) (hbudget : budget < 2 ^ 64)
include hepoch htimed hend hrated hbudget

/-- One turn. -/
theorem PlanInv.step (h : PlanInv s epochEnd budget t (e :: rest)) :
    ∃ t', planStep budget (s.averageStake epochEnd) performanceBps commissionBps rest.isEmpty t
      (ValidatorEpochAccounting.weight epochEnd e) = .ok t' ∧ PlanInv s epochEnd budget t' rest := by
  have hget := h.listed e mem_cons_self
  have hbase := h.base
  rw [map_cons] at hbase
  obtain ⟨x, hx, hle, hdue⟩ := hbase.apportion hbudget (htimed.averageStake_lt hend)
    "epoch base-reward remainder underflow"
  rw [isEmpty_map] at hx
  obtain ⟨⟨performance, hperf, hperfle⟩, hcomm⟩ := hrated e.1 e.2 hget
  have hcommle := hepoch.commission_le hget
  obtain ⟨hadj, hadjle⟩ := mulDiv_of_le (show x < 2 ^ 64 by omega)
    (show (10000 : Nat) < 2 ^ 64 by decide) hperfle
  rw [← hadj] at hadjle
  have hbounded := h.bounded
  have hmax : MAX_VALIDATOR_COMMISSION_BPS ≤ 10000 := by decide
  have hsum : (ValidatorEpochAccounting.weight epochEnd e).averageSelfBond
      + ((ValidatorEpochAccounting.weight epochEnd e).averageDelegations.map Prod.snd).sum
      = e.2.averageStake epochEnd := by
    rw [sum_weight]
    rfl
  have hfit := htimed.stake_lt hend hget
  obtain ⟨plan, hplan, hkey, hadjusted, hexact⟩ := splitReward_ok hsum hfit
    (show x < 2 ^ 64 by omega) hperfle (show e.2.commissionBps ≤ 10000 by omega)
  refine ⟨⟨t.baseDistributed + x, t.assignedReward + mulDiv x performance 10000,
    t.validators ++ [plan]⟩, ?_, hdue, ?_, ?_, ?_, ?_, ?_⟩
  · unfold planStep
    simp only [ok_rules]
    exact ⟨_, htimed.averageEffectiveStake_ok hend hget, x, hx, _, ⟨by omega, rfl⟩, performance,
      hperf, by omega, _, hcomm, by omega, _, ⟨by omega, rfl⟩, plan, hplan, rfl⟩
  · grind [assigned]
  · grind
  · grind [exact]
  · rw [← h.keys, map_append, map_cons, append_assoc]
    simp [hkey, ValidatorEpochAccounting.weight]
  · exact fun e' he' => h.listed e' (mem_cons_of_mem e he')

/-- What a plan promises. -/
structure Planned (s : StakingV2EpochState) (epochEnd budget : Nat)
    (plan : EpochSecurityRewardPlan) : Prop where
  assigned : plan.assignedReward
    = (plan.validators.map ValidatorEpochRewardPlan.performanceAdjustedReward).sum
  bounded : plan.assignedReward ≤ budget
  exact : ∀ q ∈ plan.validators, q.Exact
  keys : plan.validators.map ValidatorEpochRewardPlan.validator
    = if budget = 0 ∨ s.averageStake epochEnd = 0 then []
      else (sortedEntries s.validators).map Prod.fst

/-- **The plan of an epoch.**  It is refused when an average is above its cap, and for no other
    reason. -/
theorem plan_spec (epoch : Nat) (hp : p.validateV2Invariants = .ok ()) :
    (∀ plan, p.planV2EpochRewardsForWeights budget
        ⟨epoch, s.epochStartSlot, epochEnd, s.weights epochEnd⟩ performanceBps commissionBps
        = .ok plan → s.AverageCapped epochEnd ∧ Planned s epochEnd budget plan)
    ∧ (s.AverageCapped epochEnd → ∃ plan, p.planV2EpochRewardsForWeights budget
        ⟨epoch, s.epochStartSlot, epochEnd, s.weights epochEnd⟩ performanceBps commissionBps
        = .ok plan) := by
  have hspan : ¬ epochEnd ≤ s.epochStartSlot := by
    have hpos : 0 < SLOTS_PER_EPOCH := by decide
    omega
  have hsum : ((sortedEntries s.validators).map fun e => e.2.averageStake epochEnd).sum
      = s.averageStake epochEnd := sum_sortedEntries _ _
  unfold StakePool.planV2EpochRewardsForWeights
  simp only [bind_eq_ok, exists_unit, hp, true_and, failIf_eq_ok, hspan, not_false_eq_true,
    StakePool.eligibleWeights_eq_ok hepoch htimed hend, and_assoc, exists_and_left, exists_eq_left]
  by_cases hnone : budget = 0 ∨ s.averageStake epochEnd = 0
  · -- nothing to hand out
    simp only [if_pos hnone, pure_eq_ok]
    refine ⟨?_, fun hcap => ⟨hcap, _, rfl⟩⟩
    rintro plan ⟨hcap, rfl⟩
    exact ⟨hcap, rfl, Nat.zero_le _, fun q hq => absurd hq (by simp), by rw [if_pos hnone]; rfl⟩
  · have hne : sortedEntries s.validators ≠ [] := by
      intro hnil
      rw [hnil] at hsum
      exact hnone (.inr hsum.symm)
    have hstart : PlanInv s epochEnd budget ⟨0, 0, []⟩ (sortedEntries s.validators) :=
      ⟨.start (by simpa using hne) hsum, rfl, le_refl _, fun q hq => absurd hq (by simp), rfl,
        fun e he => mem_sortedEntries.mp he⟩
    obtain ⟨t, ht, hinv⟩ := tryFoldLast_total
      (f := fun last t e => planStep budget (s.averageStake epochEnd) performanceBps commissionBps
        last t (ValidatorEpochAccounting.weight epochEnd e))
      (fun t e rest h => h.step hepoch htimed hend hrated hbudget) hstart
    rw [← tryFoldLast_map] at ht
    have hall : t.baseDistributed = budget := hinv.base.done rfl
    have hbounded := hinv.bounded
    have hkeys := hinv.keys
    rw [map_nil, append_nil] at hkeys
    have hloop : tryFoldLast (planStep budget (s.averageStake epochEnd) performanceBps commissionBps)
        ⟨0, 0, []⟩ (s.weights epochEnd) = .ok t := ht
    simp only [if_neg hnone, hloop, ok_rules]
    refine ⟨?_, fun hcap => ⟨hcap, _, t, rfl, not_not.mpr hall, _, ⟨by omega, rfl⟩, rfl⟩⟩
    rintro plan ⟨hcap, t, ⟨⟩, -, u, ⟨-, rfl⟩, rfl⟩
    exact ⟨hcap, hinv.assigned, by simp only; omega, hinv.exact, by rw [if_neg hnone]; exact hkeys⟩

end Lichen.Staking
