/-
  From one epoch to the next.

  The validator closes an epoch by rolling the pool over to the next set of validators and then
  rebalancing MossStake over that set.  A rebalance checkpoints every validator that had an
  allocation, and only the validators of the new epoch have an accounting to checkpoint: so a
  validator that drops out while it still holds MossStake stops the whole.

  1. `checkpoints_spec`, `exists_checkpoints` — the loop over the accounting.
  2. `epochOk_reallocated` — what is left to check afterwards: the saturation limit.
  3. `rebalance_iff` — when a rebalance over the validators of an epoch succeeds.
  4. `epoch_turn_ok_iff` — when the turn of an epoch succeeds.
-/
import Lichen.Staking.EpochRun
import Lichen.Staking.Rebalance
import Mathlib.Data.List.Destutter

open Base HashMap
namespace Lichen.Staking
open StakePool List Option
namespace StakePool
variable {p q r : StakePool} {v : Pubkey} {i : StakeInfo} {s : StakingV2EpochState}
  {l : List Pubkey} {target : Nat}

/-! ## The checkpoints -/

variable {a : ValidatorEpochAccounting}

theorem withEpoch_checkpointed :
    (r.withEpoch t).Checkpointed start v slot a a' ↔ r.Checkpointed start v slot a a' :=
  ⟨fun h => ⟨h.frozen, h.bond, h.delegations⟩, fun h => ⟨h.frozen, h.bond, h.delegations⟩⟩

theorem checkpointTurn_spec (hc : r.CheckpointedAll s slot l t) (hv : v ∉ l)
    (h : (r.withEpoch t).checkpointStakingV2ValidatorInner v slot = .ok q) :
    (∃ a, s.validators.get v = some a) ∧ ∃ t', q = r.withEpoch t'
      ∧ r.CheckpointedAll s slot (v :: l) t' := by
  obtain ⟨-, a, a', ha, -, hcp, rfl⟩ := checkpointInner_spec (s := t) rfl h
  rw [hc.start, withEpoch_checkpointed] at hcp
  exact ⟨⟨a, by rw [← hc.same v hv]; exact ha⟩, _, rfl, hc.snoc hv ha hcp⟩

/-- Checkpoints that all succeed. -/
theorem checkpoints_spec (hs : r.stakingV2State = some s) (hl : l.Nodup)
    (h : tryFold (fun (q : StakePool) validator =>
      q.checkpointStakingV2ValidatorInner validator slot) r l = .ok q) :
    (∀ v ∈ l, ∃ a, s.validators.get v = some a)
      ∧ ∃ t, q = r.withEpoch t ∧ r.CheckpointedAll s slot l t := by
  -- what is done and what is to come are the list together
  let P : StakePool → List Pubkey → Prop := fun b rest => ∃ done t, b = r.withEpoch t
    ∧ r.CheckpointedAll s slot done t ∧ (done ++ rest).Nodup ∧ (∀ w, w ∈ l ↔ w ∈ done ∨ w ∈ rest)
    ∧ ∀ v ∈ done, ∃ a, s.validators.get v = some a
  have hstep : ∀ b v rest b', P b (v :: rest) →
      b.checkpointStakingV2ValidatorInner v slot = .ok b' → P b' rest := by
    rintro b v rest b' ⟨done, t, rfl, hc, hnd, hmem, hin⟩ hb'
    have hperm : (done ++ v :: rest).Perm (v :: done ++ rest) := perm_middle
    have hnd' : (v :: done ++ rest).Nodup := hperm.nodup_iff.mp hnd
    have hv : v ∉ done := fun hmem => by
      grind
    obtain ⟨ha, t', rfl, hc'⟩ := checkpointTurn_spec hc hv hb'
    refine ⟨v :: done, t', rfl, hc', hnd', ?_, ?_⟩
    · grind
    · grind
  have hstart : P r l := by
    refine ⟨[], s, ?_, ⟨rfl, fun _ _ => rfl, fun w hw => absurd hw not_mem_nil⟩, hl, ?_, ?_⟩
    · unfold withEpoch
      rw [← hs]
    · simp
    · exact fun w hw => absurd hw not_mem_nil
  obtain ⟨done, t, rfl, hc, -, hmem, hin⟩ := tryFold_rest hstep hstart h
  have hsame : ∀ w, w ∈ l ↔ w ∈ done := fun w => by rw [hmem w]; simp
  refine ⟨fun v hv => hin v ((hsame v).mp hv), t, rfl, hc.rest, ?_, ?_⟩
  · exact fun w hw => hc.same w fun hmem => hw ((hsame w).mpr hmem)
  · exact fun w hw => hc.checkpointed w ((hsame w).mp hw)

/-- They all succeed when every validator has an accounting that can be brought forward. -/
theorem exists_checkpoints (hs : r.stakingV2State = some s) (hslot : s.epochStartSlot ≤ slot)
    (hl : l.Nodup) (hfits : ∀ v ∈ l, ∃ a i, s.validators.get v = some a ∧ a.Fits slot
      ∧ r.stakes.get v = some i) :
    ∃ q, tryFold (fun (q : StakePool) validator =>
      q.checkpointStakingV2ValidatorInner validator slot) r l = .ok q := by
  let P : StakePool → List Pubkey → Prop := fun b rest => ∃ t, b = r.withEpoch t ∧ rest.Nodup
    ∧ t.epochStartSlot = s.epochStartSlot ∧ (∀ w ∈ rest, w ∈ l)
    ∧ ∀ w ∈ rest, t.validators.get w = s.validators.get w
  have hstep : ∀ b v rest, P b (v :: rest) →
      ∃ b', b.checkpointStakingV2ValidatorInner v slot = .ok b' ∧ P b' rest := by
    rintro b v rest ⟨t, rfl, hnd, hstart, hsub, hsame⟩
    obtain ⟨hv, hnd⟩ := nodup_cons.mp hnd
    obtain ⟨a, i, ha, hfit, hi⟩ := hfits v (hsub v mem_cons_self)
    rw [← hsame v mem_cons_self] at ha
    obtain ⟨b', hb'⟩ := exists_checkpointInner (p := r.withEpoch t) rfl (by omega) ha hi hfit
    obtain ⟨-, _, a', -, -, -, rfl⟩ := checkpointInner_spec (s := t) rfl hb'
    refine ⟨_, hb', _, rfl, hnd, hstart, fun w hw => hsub w (mem_cons_of_mem v hw), ?_⟩
    intro w hw
    have hne : w ≠ v := fun heq => hv (heq ▸ hw)
    show (t.validators.put v a').get w = _
    rw [get_put_ne _ _ hne]
    exact hsame w (mem_cons_of_mem v hw)
  have hstart : P r l := by
    refine ⟨s, ?_, hl, rfl, fun w hw => hw, fun w _ => rfl⟩
    unfold withEpoch
    rw [← hs]
  obtain ⟨q, hq, -⟩ := tryFold_total hstep hstart
  exact ⟨q, hq⟩

/-- After a reallocation and its checkpoints only the saturation limit is left to check. -/
theorem epochOk_reallocated (h : p.EpochOk s) (hr : p.Reallocated r moss)
    (hslot : s.epochStartSlot ≤ slot)
    (hout : ∀ w, w ∉ l → p.mossOf w = 0 ∧ moss w = 0) (hc : r.CheckpointedAll s slot l t) :
    (r.withEpoch t).EpochOk t ↔ ∀ w b, s.validators.get w = some b →
      r.effective w ≤ saturationLimit (r.epochStake s) s.validators.size := by
  refine epochOk_checkpoints h hr.valid hslot ?_ ?_ hc
  · intro w hw
    obtain ⟨hzero, hzero'⟩ := hout w hw
    exact hr.untouched w hzero hzero'
  · intro w a i ha _
    obtain ⟨i₀, hi₀, -, hbase⟩ := (h.current w a ha).bond
    obtain ⟨j, hj, -, hblk, -⟩ := hr.entry w i₀ hi₀
    grind

/-! ## The whole -/

theorem mem_mossBacked : v ∈ p.mossBacked ↔ 0 < p.mossOf v := by
  grind [mossBacked, mossOf_eq_zero, mossOf]

/-- The validators that a rebalance checkpoints. -/
def affected (p : StakePool) (a : HashMap Pubkey Nat) : List Pubkey :=
  p.mossBacked ++ a.keys.filter fun v => decide (v ∉ p.mossBacked)

theorem affected_nodup (p : StakePool) (a : HashMap Pubkey Nat) : (p.affected a).Nodup := by
  refine List.Nodup.append (p.delegations.keys_nodup.filter _) (a.keys_nodup.filter _) ?_
  intro v hv hv'
  rw [mem_filter, decide_eq_true_eq] at hv'
  exact hv'.2 hv

variable {a : HashMap Pubkey Nat}

theorem mem_affected : v ∈ p.affected a ↔ 0 < p.mossOf v ∨ (a.get v).isSome = true := by
  grind [affected, mem_mossBacked]

theorem mossstakeAllocationTotal_eq_ok :
    p.mossstakeAllocationTotal = .ok n ↔ p.mossBacking < 2 ^ 64 ∧ n = p.mossBacking := by
  unfold mossstakeAllocationTotal
  rw [tryFold_add_eq_ok (Nat.two_pow_pos 64), zero_add]
  rfl

theorem Reallocated.effective (h : p.Reallocated r moss) (hp : p.Valid)
    (hi : p.stakes.get v = some i) : r.effective v = p.mossFree v + moss v := by
  obtain ⟨j, hj, hamt, -, hdel⟩ := h.entry v i hi
  have hle := hp.mossOf_le hi
  unfold mossFree
  rw [h.valid.effective_eq hj, hp.effective_eq hi]
  omega

/-- The stake of the listed validators once the plan is in place. -/
theorem Reallocated.stakeOf
    (h : p.Reallocated r fun w => (a.get w).getD 0) (hp : p.Valid) (hl : p.Electable l)
    (ha : Within a l) : (l.map r.effective).sum = p.baseOf l + allotted a := by
  have hsplit : l.map r.effective = l.map fun v => p.mossFree v + a.share (fun _ n => n) v := by
    refine map_congr_left fun v hv => ?_
    obtain ⟨i, hi⟩ := hl.eligible v hv
    rw [h.effective hp hi.entry, share_allotted]
  have hout : ∀ v, v ∉ l → a.share (fun _ n => n) v = 0 := by
    intro v hv
    refine share_of_none ?_
    cases hget : a.get v with
    | none => rfl
    | some n => exact absurd (ha v n hget) hv
  rw [hsplit, sum_map_add, sum_share_eq _ hl.distinct a hout]
  rfl

theorem Reallocated.mossBacking
    (h : p.Reallocated r fun w => (a.get w).getD 0) : r.mossBacking = allotted a :=
  sumBy_eq_of_share fun v => by
    rw [r.share_mossBacking, h.backing, share_allotted]

/-- The backing on listed validators only: the rest of their stake is in the network total. -/
theorem Valid.baseOf_add_le (h : p.Valid) (hl : p.Electable l)
    (hout : ∀ v, v ∉ l → p.mossOf v = 0) : p.baseOf l + p.mossBacking ≤ p.totalStaked := by
  have hmoss : (l.map p.mossOf).sum = p.mossBacking := by
    have hsum := sum_share_eq (fun _ m => (m.get MOSSSTAKE_PROTOCOL_DELEGATOR).getD 0)
      hl.distinct p.delegations (fun v hv => (p.share_mossBacking v).trans (hout v hv))
    rw [← show _ = p.mossBacking from hsum]
    congr 1
    exact map_congr_left fun v _ => (p.share_mossBacking v).symm
  have hsplit : p.baseOf l + (l.map p.mossOf).sum = (l.map p.effective).sum := by
    unfold baseOf
    rw [← sum_map_add]
    congr 1
    refine map_congr_left fun v hv => ?_
    obtain ⟨i, hi⟩ := hl.eligible v hv
    have hle := h.mossOf_le_effective hi.entry
    unfold mossFree
    omega
  rw [h.totals, ← hmoss, hsplit]
  exact h.sum_effective_le hl

/-- What a rebalance over the validators of an epoch needs. -/
structure Rebalanceable (p : StakePool) (l : List Pubkey) (target : Nat) : Prop where
  listed : ∀ v, v ∉ l → p.mossOf v = 0
  within : ∀ v ∈ l, p.mossFree v ≤ saturationLimit (p.baseOf l + target) l.length
  capacity : p.mossCapacity target l < 2 ^ 64
  total : p.totalStaked - p.mossBacking + target < 2 ^ 64

/-- The epoch's limit after a plan is in place. -/
theorem MossPlan.saturated_iff (hp : p.Valid) (hl : p.Electable l)
    (hkeys : ∀ v, (s.validators.get v).isSome = true ↔ v ∈ l)
    (hplan : p.MossPlan target l a) (hr : p.Reallocated r fun w => (a.get w).getD 0) :
    (∀ w b, s.validators.get w = some b →
      r.effective w ≤ saturationLimit (r.epochStake s) s.validators.size)
      ↔ ∀ v ∈ l, p.mossFree v ≤ saturationLimit (p.baseOf l + target) l.length := by
  have hsize : s.validators.size = l.length := size_of_keys hl.distinct hkeys
  have hstake : r.epochStake s = p.baseOf l + target := by
    rw [← hplan.total, ← hr.stakeOf hp hl hplan.within]
    exact sumBy_of_keys hl.distinct hkeys r.effective
  rw [hsize, hstake]
  constructor
  · intro h v hv
    obtain ⟨b, hb⟩ := isSome_iff_exists.mp ((hkeys v).mpr hv)
    obtain ⟨i, hi⟩ := hl.eligible v hv
    have hle := h v b hb
    rw [hr.effective hp hi.entry] at hle
    omega
  · intro h w b hb
    have hw := (hkeys w).mp (by rw [hb]; rfl)
    obtain ⟨i, hi⟩ := hl.eligible w hw
    have hcap := hplan.capped w hw
    have hle := h w hw
    have hmax : (p.mossLimit (saturationLimit (p.baseOf l + target) l.length) w).capacity
        ≤ saturationLimit (p.baseOf l + target) l.length - p.mossFree w :=
      Nat.sub_le_sub_right (min_le_right _ _) _
    rw [hr.effective hp hi.entry]
    show p.mossFree w + (a.get w).getD 0 ≤ _
    omega

/-- A plan leaves every active validator within five times its bond. -/
theorem MossPlan.capped_after (hp : p.Valid) (hcap : p.Capped) (hl : p.Electable l)
    (hout : ∀ v, v ∉ l → p.mossOf v = 0) (hplan : p.MossPlan target l a)
    (hr : p.Reallocated r fun w => (a.get w).getD 0) : r.Capped := by
  intro v j hj hact
  by_cases hv : v ∈ l
  · obtain ⟨i, hi⟩ := hl.eligible v hv
    obtain ⟨j', hj', hamt, -, -⟩ := hr.entry v i hi.entry
    rw [hj] at hj'
    cases hj'
    have hold := hcap v i hi.entry hi.active
    have hnew := hr.effective hp hi.entry
    have hplanned := hplan.capped v hv
    have hmax : (p.mossLimit (saturationLimit (p.baseOf l + target) l.length) v).capacity
        ≤ p.bond v * MAX_VALIDATOR_EFFECTIVE_STAKE_MULTIPLIER - p.mossFree v :=
      Nat.sub_le_sub_right (min_le_left _ _) _
    have hfree : p.mossFree v ≤ i.amount + i.delegatedAmount := by
      unfold mossFree
      rw [hp.effective_eq hi.entry]
      exact Nat.sub_le _ _
    rw [hr.valid.effective_eq hj] at hnew
    rw [bond_of_get hi.entry] at hmax
    rw [hamt, mul_comm]
    rw [mul_comm] at hold
    omega
  · have hzero : (a.get v).getD 0 = 0 := by
      cases hget : a.get v with
      | none => rfl
      | some n => exact absurd (hplan.within v n hget) hv
    rw [(hr.untouched v (hout v hv) hzero).1] at hj
    exact hcap v j hj hact

theorem rebalance_eq_ok : p.rebalanceMossstakeAllocations target l slot = .ok u ↔
      ∃ a, p.planMossstakeAllocations target l = .ok a
      ∧ ∃ q, tryFold removeMoss p p.delegations.keys = .ok q
      ∧ ∃ r, tryFold addMoss q (sortedEntries a) = .ok r
      ∧ tryFold (fun (q : StakePool) validator =>
          q.checkpointStakingV2ValidatorInner validator slot) r (p.affected a) = .ok u
      ∧ u.validateV2Invariants = .ok () ∧ u.mossBacking < 2 ^ 64 ∧ u.mossBacking = target := by
  unfold rebalanceMossstakeAllocations
  simp only [ok_rules, mossstakeAllocationTotal_eq_ok, not_not, ne_eq]
  constructor
  · rintro ⟨a, ha, q, hq, r, hr, u', hu, hval, n, ⟨hlt, rfl⟩, htarget, rfl⟩
    exact ⟨a, ha, q, hq, r, hr, hu, hval, hlt, htarget⟩
  · rintro ⟨a, ha, q, hq, r, hr, hu, hval, hlt, htarget⟩
    exact ⟨a, ha, q, hq, r, hr, u, hu, hval, _, ⟨hlt, rfl⟩, htarget, rfl⟩

/-- **Rebalancing over the validators of the epoch.**  There is room for the backing, and every
    accumulator can be brought to the slot. -/
theorem rebalance_iff (hp : p.validateV2Invariants = .ok ()) (hs : p.stakingV2State = some s)
    (hl : p.Electable l) (hkeys : ∀ v, (s.validators.get v).isSome = true ↔ v ∈ l)
    (hslot : s.epochStartSlot ≤ slot)
    (hfits : ∀ v a, s.validators.get v = some a → a.Fits slot)
    (hmoss : MOSSSTAKE_PROTOCOL_DELEGATOR ∉ l) (hroom : target ≤ p.mossCapacity target l) :
    (∃ u, p.rebalanceMossstakeAllocations target l slot = .ok u ∧ ∀ v, v ∉ l → u.mossOf v = 0) ↔
      p.Rebalanceable l target := by
  obtain ⟨hvalid, hcap, hepoch⟩ := validateV2Invariants_eq_ok.mp hp
  have hok := hepoch s hs
  obtain ⟨q, hq, hempty, hqtotal⟩ := hvalid.removeAll
  -- a plan names known validators, and none of them is the protocol's own key
  have hknown : ∀ {a : HashMap Pubkey Nat}, p.MossPlan target l a → ∀ v n, a.get v = some n →
      v ≠ MOSSSTAKE_PROTOCOL_DELEGATOR ∧ ∃ i, p.stakes.get v = some i := by
    intro a hplan v n hn
    have hv := hplan.within v n hn
    obtain ⟨i, hi⟩ := hl.eligible v hv
    exact ⟨fun heq => hmoss (heq ▸ hv), i, hi.entry⟩
  have hout : ∀ (a : HashMap Pubkey Nat) w, w ∉ p.affected a →
      p.mossOf w = 0 ∧ (a.get w).getD 0 = 0 := by
    intro a w hw
    rw [mem_affected, not_or, not_isSome_iff_eq_none] at hw
    exact ⟨Nat.eq_zero_of_not_pos hw.1, by rw [hw.2]; rfl⟩
  constructor
  · rintro ⟨u, hu, -⟩
    obtain ⟨a, ha, q', hq', r, hr, hcp, hval, -, -⟩ := rebalance_eq_ok.mp hu
    rw [hq, Except.ok.injEq] at hq'
    subst hq'
    obtain ⟨hbase, hcapacity, hplan⟩ := hvalid.plan_spec hl ha
    have htotal := addMoss_total hempty.valid.fits hr
    rw [sum_sortedEntries a Prod.snd] at htotal
    have hallotted : a.sumBy (fun k x => (k, x).2) = target := hplan.total
    rw [hallotted] at htotal
    obtain ⟨r', hr', hreal⟩ := hempty.addAll hplan.positive (hknown hplan)
      (by rw [hplan.total]; exact htotal)
    rw [hr, Except.ok.injEq] at hr'
    subst hr'
    obtain ⟨hin, t, rfl, hall⟩ := checkpoints_spec (hreal.epoch.trans hs) (p.affected_nodup a) hcp
    have hlisted : ∀ v, v ∉ l → p.mossOf v = 0 := by
      intro v hv
      refine Nat.eq_zero_of_not_pos fun hpos => hv ?_
      obtain ⟨b, hb⟩ := hin v (mem_affected.mpr (.inl hpos))
      exact (hkeys v).mp (by rw [hb]; rfl)
    obtain ⟨-, -, hok'⟩ := validateV2Invariants_eq_ok.mp hval
    have hsat := (epochOk_reallocated hok hreal hslot (hout a) hall).mp (hok' t rfl)
    refine ⟨hlisted, (hplan.saturated_iff hvalid hl hkeys hreal).mp hsat, hcapacity, ?_⟩
    omega
  · intro h
    have hbase := hvalid.baseOf_add_le hl h.listed
    have htotal := h.total
    obtain ⟨a, ha, hplan⟩ := hvalid.exists_plan hl (by omega) h.capacity hroom
    obtain ⟨r, hr, hreal⟩ := hempty.addAll hplan.positive (hknown hplan)
      (by rw [hplan.total]; omega)
    have hin : ∀ v ∈ p.affected a, v ∈ l := by
      intro v hv
      rcases mem_affected.mp hv with hpos | hsome
      · by_contra hvl
        rw [h.listed v hvl] at hpos
        exact absurd hpos (lt_irrefl 0)
      · obtain ⟨n, hn⟩ := isSome_iff_exists.mp hsome
        exact hplan.within v n hn
    have hready : ∀ v ∈ p.affected a, ∃ b i, s.validators.get v = some b ∧ b.Fits slot
        ∧ r.stakes.get v = some i := by
      intro v hv
      obtain ⟨b, hb⟩ := isSome_iff_exists.mp ((hkeys v).mpr (hin v hv))
      obtain ⟨i, hi⟩ := hl.eligible v (hin v hv)
      obtain ⟨j, hj, -⟩ := hreal.entry v i hi.entry
      exact ⟨b, j, hb, hfits v b hb, hj⟩
    obtain ⟨u, hu⟩ := exists_checkpoints (hreal.epoch.trans hs) hslot (p.affected_nodup a) hready
    obtain ⟨-, t, rfl, hall⟩ := checkpoints_spec (hreal.epoch.trans hs) (p.affected_nodup a) hu
    have hcap' : r.Capped := hplan.capped_after hvalid hcap hl h.listed hreal
    have hsat := (hplan.saturated_iff hvalid hl hkeys hreal).mpr h.within
    have hok' := (epochOk_reallocated hok hreal hslot (hout a) hall).mpr hsat
    have hback : (r.withEpoch t).mossBacking = target := hreal.mossBacking.trans hplan.total
    refine ⟨r.withEpoch t, rebalance_eq_ok.mpr ⟨a, ha, q, hq, r, hr, hu, ?_, by omega, hback⟩, ?_⟩
    · refine validateV2Invariants_eq_ok.mpr ⟨hreal.valid.congr rfl rfl rfl rfl rfl, hcap', ?_⟩
      intro s' hs'
      cases hs'
      exact hok'
    · intro v hv
      have hnone : (a.get v).getD 0 = 0 := by
        cases hget : a.get v with
        | none => rfl
        | some n => exact absurd (hplan.within v n hget) hv
      exact (hreal.backing v).trans hnone

/-! ## The turn of an epoch -/

/-- `staking_v2_validator_pubkeys`, over the validators of the consensus set that are not pending
    activation. -/
def stakingV2ValidatorPubkeys (candidates : List Pubkey) (p : StakePool) :
    Except String (List Pubkey) := do
  let eligible := candidates.filter fun v =>
    (p.stakes.get v).any fun stake => stake.isActive && stake.meetsMinimum
  let validators := (eligible.insertionSort keyLe).destutter (· ≠ ·)
  failIf (validators = []) "Staking V2 requires at least one active consensus validator"
  pure validators

/-- What the validator passes on is a list that an epoch can be opened with. -/
theorem stakingV2ValidatorPubkeys_electable
    (h : stakingV2ValidatorPubkeys candidates p = .ok l) : p.Electable l := by
  unfold stakingV2ValidatorPubkeys at h
  simp only [ok_rules] at h
  obtain ⟨hne, hl⟩ := h
  have hsub := destutter_sublist (· ≠ ·) ((candidates.filter fun v =>
    (p.stakes.get v).any fun stake => stake.isActive && stake.meetsMinimum).insertionSort keyLe)
  rw [hl] at hne hsub
  refine ⟨hne, ?_, ?_⟩
  -- in key order, and no two neighbours are the same
  · have hsorted : l.Pairwise keyLe := List.Pairwise.sublist hsub (pairwise_sort id _)
    have hchain : l.IsChain (· ≠ ·) := by
      rw [← hl]
      exact isChain_destutter _ _
    exact nodup_of_sorted hsorted hchain
  · intro v hv
    have hmem := hsub.subset hv
    rw [mem_insertionSort, mem_filter] at hmem
    cases hi : p.stakes.get v with
    | none =>
      rw [hi] at hmem
      exact absurd hmem.2 (by simp)
    | some i =>
      rw [hi, any_some, Bool.and_eq_true] at hmem
      exact ⟨i, hi, hmem.2.1, hmem.2.2⟩

/-- The end of `stage_staking_v2_epoch_settlement`, for a MossStake pool that has `backing`. -/
def turnEpoch (p : StakePool) (epochEnd backing : Nat) (nextValidators : List Pubkey) :
    Except String StakePool := do
  let p ← p.advanceStakingV2Epoch epochEnd nextValidators
  p.rebalanceMossstakeAllocations backing nextValidators epochEnd

/-- What the turn of an epoch needs. -/
structure Turnable (p : StakePool) (s : StakingV2EpochState) (l : List Pubkey) (backing : Nat) :
    Prop extends Rebalanceable p l backing where
  slots : s.epochStartSlot + SLOTS_PER_EPOCH < 2 ^ 64
  number : s.currentEpoch + 1 < 2 ^ 64
  opened : ∀ v ∈ l, p.effective v ≤ saturationLimit (p.stakeOf l) l.length

/-- An accumulator that has just been opened can be brought to its own slot. -/
theorem opening_fits : (p.opening v epochEnd bps i).Fits epochEnd := by
  have hnew : ∀ amount, (EpochStakeAccumulator.new amount epochEnd).Fits epochEnd := by
    intro amount
    refine ⟨le_refl _, ?_⟩
    show 0 + amount * (epochEnd - epochEnd) < 2 ^ 128
    rw [Nat.sub_self, mul_zero]
    decide
  refine ⟨hnew _, ?_⟩
  simp_all [opening, get_mapValues]

end StakePool

/-- **The turn of a settled epoch.**  The listed validators have room for the backing, and the key
    of the protocol, for which there is no private key, is not one of them. -/
theorem epoch_turn_ok_iff {p : StakePool} {s : StakingV2EpochState} {l : List Pubkey} {backing : Nat}
    (hp : p.EpochSettled s) (hl : p.Electable l) (hmoss : MOSSSTAKE_PROTOCOL_DELEGATOR ∉ l)
    (hroom : backing ≤ p.mossCapacity backing l) :
    (∃ q, p.turnEpoch (s.epochStartSlot + SLOTS_PER_EPOCH) backing l = .ok q
      ∧ ∀ v, v ∉ l → q.mossOf v = 0) ↔ p.Turnable s l backing := by
  unfold StakePool.turnEpoch
  simp only [bind_eq_ok]
  have hadvance := advance_iff hp hl rfl
  -- the rebalance, on any pool that the roll-over can leave
  have hrebalance : ∀ q, p.advanceStakingV2Epoch (s.epochStartSlot + SLOTS_PER_EPOCH) l = .ok q →
      ((∃ u, q.rebalanceMossstakeAllocations backing l (s.epochStartSlot + SLOTS_PER_EPOCH) = .ok u
        ∧ ∀ v, v ∉ l → u.mossOf v = 0) ↔ p.Rebalanceable l backing) := by
    intro q hq
    obtain ⟨s', hpool, hval, hstart, hlisted, hunlisted⟩ := advance_spec hp.valid hp.epoch hq
    subst hpool
    have hkeys : ∀ v, (s'.validators.get v).isSome = true ↔ v ∈ l := by
      intro v
      by_cases hv : v ∈ l
      · obtain ⟨i, bps, -, hget⟩ := hlisted v hv
        simp [hget, hv]
      · simp [hunlisted v hv, hv]
    have hfits : ∀ v a, s'.validators.get v = some a →
        a.Fits (s.epochStartSlot + SLOTS_PER_EPOCH) := by
      intro v a ha
      obtain ⟨i, bps, -, hget⟩ := hlisted v ((hkeys v).mp (by rw [ha]; rfl))
      rw [ha] at hget
      rw [Option.some.inj hget]
      exact opening_fits
    have hl' : StakePool.Electable { p with stakingV2State := some s' } l := by
      refine ⟨hl.occupied, hl.distinct, fun v hv => ?_⟩
      obtain ⟨i, hi⟩ := hl.eligible v hv
      exact ⟨i, hi.entry, hi.active, hi.minimum⟩
    rw [rebalance_iff hval rfl hl' hkeys (Nat.le_of_eq hstart) hfits hmoss hroom]
    exact ⟨fun h => ⟨h.listed, h.within, h.capacity, h.total⟩,
      fun h => ⟨h.listed, h.within, h.capacity, h.total⟩⟩
  constructor
  · rintro ⟨u, ⟨q, hq, hu⟩, hout⟩
    obtain ⟨hslots, hnumber, hopened⟩ := hadvance.mp ⟨q, hq⟩
    exact { (hrebalance q hq).mp ⟨u, hu, hout⟩ with
      slots := hslots, number := hnumber, opened := hopened }
  · intro h
    obtain ⟨q, hq⟩ := hadvance.mpr ⟨h.slots, h.number, h.opened⟩
    obtain ⟨u, hu, hout⟩ := (hrebalance q hq).mpr h.toRebalanceable
    exact ⟨u, ⟨q, hq, hu⟩, hout⟩

section

/-- Three validators, MossStake backing on all of them, and the first epoch settled without a
    reward. -/
private def backedPool : StakePool :=
  let p := [PoolCall.stake ⟨1⟩ 100000000000000 0, .stake ⟨2⟩ 100000000000000 0,
    .stake ⟨3⟩ 100000000000000 0].foldl PoolCall.run StakePool.new
  let p := p.settleTo (p.initializeStakingV2 0 [⟨1⟩, ⟨2⟩, ⟨3⟩])
  let p := p.settleTo (p.rebalanceMossstakeAllocations 30000 [⟨1⟩, ⟨2⟩, ⟨3⟩] 5)
  p.settleTo ((p.closeEpoch 432000 0).map Prod.snd)

private def backedState : StakingV2EpochState := backedPool.stakingV2State.get (by decide +kernel)

/-- Without a change of the set, the epoch turns. -/
theorem epoch_turn_ok_iff_same_set :
    backedPool.Turnable backedState [⟨1⟩, ⟨2⟩, ⟨3⟩] 30000
      ∧ ∃ q, backedPool.turnEpoch (backedState.epochStartSlot + SLOTS_PER_EPOCH) 30000
          [⟨1⟩, ⟨2⟩, ⟨3⟩] = .ok q ∧ ∀ v, v ∉ [⟨1⟩, ⟨2⟩, ⟨3⟩] → q.mossOf v = 0 := by
  have hsettled : backedPool.EpochSettled backedState :=
    ⟨by decide +kernel, (Option.some_get _).symm, by decide +kernel⟩
  have hlist : StakePool.stakingV2ValidatorPubkeys [⟨3⟩, ⟨1⟩, ⟨2⟩] backedPool
      = .ok [⟨1⟩, ⟨2⟩, ⟨3⟩] := by
    decide +kernel
  have hkeys : backedPool.delegations.keys ⊆ [⟨1⟩, ⟨2⟩, ⟨3⟩] := by decide +kernel
  have hturn : backedPool.Turnable backedState [⟨1⟩, ⟨2⟩, ⟨3⟩] 30000 :=
    { listed := fun v hv => mossOf_eq_zero fun hmem => hv (hkeys hmem)
      within := by decide +kernel
      capacity := by decide +kernel
      total := by decide +kernel
      slots := by decide +kernel
      number := by decide +kernel
      opened := by decide +kernel }
  exact ⟨hturn, (epoch_turn_ok_iff hsettled (stakingV2ValidatorPubkeys_electable hlist)
    (by decide) (by decide +kernel)).mpr hturn⟩

/-- The third validator has left before the end of the epoch. -/
private def leftPool : StakePool := backedPool.settleTo (backedPool.deregisterValidator ⟨3⟩)

/-- A validator that leaves with MossStake backing stops the turn of the epoch: the others have room
    for all of it, but the rebalance has to checkpoint the one that left, and it has no accounting
    any more. -/
theorem dropped_backing_stops_turn :
    leftPool.validateV2Invariants = .ok () ∧ leftPool.mossOf ⟨3⟩ = 10000
      ∧ StakePool.stakingV2ValidatorPubkeys [⟨1⟩, ⟨2⟩, ⟨3⟩] leftPool = .ok [⟨1⟩, ⟨2⟩]
      ∧ 30000 ≤ leftPool.mossCapacity 30000 [⟨1⟩, ⟨2⟩]
      ∧ (leftPool.advanceStakingV2Epoch 432000 [⟨1⟩, ⟨2⟩]).isOk = true
      ∧ (leftPool.turnEpoch 432000 30000 [⟨1⟩, ⟨2⟩]).map (fun _ => ())
        = .error s!"validator {(⟨3⟩ : Pubkey)} is not active in current Staking V2 epoch" := by
  decide +kernel

end
end Lichen.Staking
