/-
  Checkpoints: what bringing the accumulators of one validator forward does, and when it fails.

  An accumulator grows by `amount * elapsed`, so it can only fail by moving backwards or by leaving
  128 bits (`Fits`).  After a checkpoint of `v` the accounting of `v` is `Current` again, the other
  validators are where they were, and what is left of the epoch's rules is the saturation limit
  (`epochOk_checkpoints`): that is the part which a change of one validator can break for another.
-/
import Lichen.Staking.EpochValid

open Base HashMap
namespace Lichen.Staking
open EpochStakeAccumulator

/-! ## One accumulator -/

namespace EpochStakeAccumulator

/-- Brought to `slot` and set to `amount`. -/
def advanced (a : EpochStakeAccumulator) (slot amount : Nat) : EpochStakeAccumulator :=
  ⟨amount, a.weightedSlotSpores + a.amount * (slot - a.lastCheckpointSlot), slot⟩

/-- It can be brought to `slot`. -/
structure Fits (a : EpochStakeAccumulator) (slot : Nat) : Prop where
  forward : a.lastCheckpointSlot ≤ slot
  room : a.weightedSlotSpores + a.amount * (slot - a.lastCheckpointSlot) < 2 ^ 128

theorem setAmount_eq_ok {a b : EpochStakeAccumulator} {slot amount} :
    a.setAmount slot amount = .ok b ↔ a.Fits slot ∧ b = a.advanced slot amount := by
  unfold setAmount checkpoint
  simp only [ok_rules, U128.checkedMul_eq_some, U128.checkedAdd_eq_some]
  constructor
  · rintro ⟨c, ⟨elapsed, ⟨hle, rfl⟩, accrued, ⟨-, rfl⟩, weighted, ⟨hlt, rfl⟩, rfl⟩, rfl⟩
    exact ⟨⟨hle, hlt⟩, rfl⟩
  · rintro ⟨⟨hle, hlt⟩, rfl⟩
    exact ⟨_, ⟨_, ⟨hle, rfl⟩, _, ⟨by omega, rfl⟩, _, ⟨hlt, rfl⟩, rfl⟩, rfl⟩

theorem new_fits (h : start ≤ slot) : (new 0 start).Fits slot := by
  refine ⟨h, ?_⟩
  show 0 + 0 * (slot - start) < 2 ^ 128
  omega

end EpochStakeAccumulator

/-! ## The delegations of a validator -/

/-- The accumulator of a delegator; it starts with the epoch when the delegator is new. -/
def accumulatorOf (accumulators : HashMap Pubkey EpochStakeAccumulator) (start : Nat)
    (d : Pubkey) : EpochStakeAccumulator :=
  (accumulators.get d).getD (EpochStakeAccumulator.new 0 start)

section
variable {current : HashMap Pubkey Nat} {start slot : Nat}

/-- One turn of the loop of `checkpointDelegations`. -/
private def turn (current : HashMap Pubkey Nat) (start slot : Nat)
    (acc : HashMap Pubkey EpochStakeAccumulator) (d : Pubkey) :
    Except String (HashMap Pubkey EpochStakeAccumulator) := do
  let accumulator := (acc.get d).getD (EpochStakeAccumulator.new 0 start)
  let accumulator ← accumulator.setAmount slot ((current.get d).getD 0)
  pure (acc.put d accumulator)

private theorem turn_eq_ok {acc acc' : HashMap Pubkey EpochStakeAccumulator} {d} :
    turn current start slot acc d = .ok acc' ↔ (accumulatorOf acc start d).Fits slot ∧
      acc' = acc.put d ((accumulatorOf acc start d).advanced slot ((current.get d).getD 0)) := by
  unfold turn
  simp only [ok_rules, setAmount_eq_ok]
  constructor
  · rintro ⟨a, ⟨hfit, rfl⟩, rfl⟩
    exact ⟨hfit, rfl⟩
  · rintro ⟨hfit, rfl⟩
    exact ⟨_, ⟨hfit, rfl⟩, rfl⟩

private theorem turns_eq_ok (hl : l.Nodup) : ∀ {acc acc' : HashMap Pubkey EpochStakeAccumulator},
      tryFold (turn current start slot) acc l = .ok acc' →
      (∀ d ∈ l, (accumulatorOf acc start d).Fits slot) ∧
      ∀ d, acc'.get d = if d ∈ l
        then some ((accumulatorOf acc start d).advanced slot ((current.get d).getD 0))
        else acc.get d := by
  induction l with
  | nil =>
    intro acc acc' h
    rw [tryFold_nil, Except.ok.injEq] at h
    simp [h]
  | cons x l ih =>
    intro acc acc' h
    obtain ⟨hx, hl⟩ := List.nodup_cons.mp hl
    obtain ⟨b, hb, hrest⟩ := tryFold_cons_eq_ok.mp h
    obtain ⟨hfit, rfl⟩ := turn_eq_ok.mp hb
    obtain ⟨hfits, hget⟩ := ih hl hrest
    -- the accumulators of the rest are not touched by the first turn
    have hof : ∀ d, d ≠ x → accumulatorOf (acc.put x ((accumulatorOf acc start x).advanced slot
        ((current.get x).getD 0))) start d = accumulatorOf acc start d := by
      intro d hd
      unfold accumulatorOf
      rw [get_put, if_neg hd]
    constructor
    · intro d hd
      rcases List.mem_cons.mp hd with rfl | hd
      · exact hfit
      · have hdx : d ≠ x := fun heq => hx (heq ▸ hd)
        rw [← hof d hdx]
        exact hfits d hd
    · intro d
      rw [hget]
      by_cases hd : d = x
      · subst hd
        simp [hx]
      · simp [hd, hof d hd, get_put]

private theorem exists_turns (hl : l.Nodup) : ∀ {acc : HashMap Pubkey EpochStakeAccumulator},
      (∀ d ∈ l, (accumulatorOf acc start d).Fits slot) →
      ∃ acc', tryFold (turn current start slot) acc l = .ok acc' := by
  induction l with
  | nil =>
    intro acc _
    exact ⟨acc, rfl⟩
  | cons x l ih =>
    intro acc hfits
    obtain ⟨hx, hl⟩ := List.nodup_cons.mp hl
    have hfirst : turn current start slot acc x = .ok _ :=
      turn_eq_ok.mpr ⟨hfits x List.mem_cons_self, rfl⟩
    have hrest : ∀ d ∈ l, (accumulatorOf (acc.put x ((accumulatorOf acc start x).advanced slot
        ((current.get x).getD 0))) start d).Fits slot := by
      intro d hd
      have hdx : d ≠ x := fun heq => hx (heq ▸ hd)
      unfold accumulatorOf
      rw [get_put, if_neg hdx]
      exact hfits d (List.mem_cons_of_mem x hd)
    simp_all [tryFold_cons_eq_ok]

variable {accumulators : HashMap Pubkey EpochStakeAccumulator}

/-- The owners the loop goes through: those with an accumulator and those with a delegation. -/
private theorem mem_owners :
    d ∈ accumulators.keys ++ current.keys.filter (fun k => !accumulators.containsKey k) ↔
      (accumulators.get d).isSome = true ∨ (current.get d).isSome = true := by
  grind [HashMap.containsKey]

private theorem owners_nodup :
    (accumulators.keys ++ current.keys.filter (fun k => !accumulators.containsKey k)).Nodup := by
  grind [keys_nodup, HashMap.containsKey]

/-- **Checkpointing the delegations** succeeds when every accumulator fits, and brings forward
    exactly the delegators that have an accumulator or a delegation. -/
theorem checkpointDelegations_spec
    (h : StakePool.checkpointDelegations current start slot accumulators = .ok r) :
    (∀ d x, accumulators.get d = some x → x.Fits slot) ∧
    ∀ d, r.get d = if (accumulators.get d).isSome = true ∨ (current.get d).isSome = true
      then some ((accumulatorOf accumulators start d).advanced slot ((current.get d).getD 0))
      else none := by
  have hturns : tryFold (turn current start slot) accumulators _ = .ok r := h
  obtain ⟨hfits, hget⟩ := turns_eq_ok owners_nodup hturns
  constructor
  · grind [accumulatorOf]
  · intro d
    rw [hget]
    by_cases hd : (accumulators.get d).isSome = true ∨ (current.get d).isSome = true
    · rw [if_pos hd, if_pos (mem_owners.mpr hd)]
    · rw [if_neg hd, if_neg (fun hmem => hd (mem_owners.mp hmem))]
      exact Option.not_isSome_iff_eq_none.mp fun hsome => hd (.inl hsome)

theorem exists_checkpointDelegations (hstart : start ≤ slot)
    (hfits : ∀ d x, accumulators.get d = some x → x.Fits slot) :
    ∃ r, StakePool.checkpointDelegations current start slot accumulators = .ok r := by
  show ∃ r, tryFold (turn current start slot) accumulators _ = .ok r
  refine exists_turns owners_nodup fun d _ => ?_
  unfold accumulatorOf
  cases hx : accumulators.get d with
  | none => exact new_fits hstart
  | some x => exact hfits d x hx

end

/-! ## A validator -/

/-- All accumulators of a validator can be brought to `slot`. -/
structure ValidatorEpochAccounting.Fits (a : ValidatorEpochAccounting) (slot : Nat) : Prop where
  bond : a.selfBond.Fits slot
  delegations : ∀ d x, a.delegations.get d = some x → x.Fits slot

namespace StakePool

variable {p q r : StakePool} {v w : Pubkey} {i : StakeInfo} {s t : StakingV2EpochState} {slot : Nat}
  {a a' : ValidatorEpochAccounting}

/-- The accounting `a` of `v`, brought to `slot` and to the stakes of the pool. -/
structure Checkpointed (p : StakePool) (start : Nat) (v : Pubkey) (slot : Nat)
    (a a' : ValidatorEpochAccounting) : Prop where
  frozen : a' = { a with selfBond := a'.selfBond, delegations := a'.delegations }
  bond : ∃ i, p.stakes.get v = some i ∧ a'.selfBond = a.selfBond.advanced slot i.amount
  delegations : ∀ d, a'.delegations.get d =
    if (a.delegations.get d).isSome = true ∨ ((p.delegationsOf v).get d).isSome = true
    then some ((accumulatorOf a.delegations start d).advanced slot (p.delegation v d)) else none

/-- The pool with new accounting for `v`. -/
def withAccounting (p : StakePool) (s : StakingV2EpochState) (v : Pubkey)
    (a : ValidatorEpochAccounting) : StakePool :=
  { p with stakingV2State := some { s with validators := s.validators.put v a } }

theorem checkpointInner_spec (hs : p.stakingV2State = some s)
    (h : p.checkpointStakingV2ValidatorInner v slot = .ok q) :
    s.epochStartSlot ≤ slot ∧ ∃ a a', s.validators.get v = some a ∧ a.Fits slot
      ∧ p.Checkpointed s.epochStartSlot v slot a a' ∧ q = p.withAccounting s v a' := by
  unfold checkpointStakingV2ValidatorInner at h
  simp only [hs, ok_rules, not_lt, setAmount_eq_ok] at h
  obtain ⟨hslot, a, ha, i, hi, b, ⟨hfit, rfl⟩, d, hd, rfl⟩ := h
  obtain ⟨hfits, hget⟩ := checkpointDelegations_spec hd
  refine ⟨hslot, a, { a with selfBond := a.selfBond.advanced slot i.amount, delegations := d }, ha,
    ⟨hfit, hfits⟩, ⟨rfl, ⟨i, hi, rfl⟩, ?_⟩, rfl⟩
  intro e
  rw [delegation_eq]
  exact hget e

theorem exists_checkpointInner (hs : p.stakingV2State = some s) (hslot : s.epochStartSlot ≤ slot)
    (ha : s.validators.get v = some a) (hi : p.stakes.get v = some i) (hfits : a.Fits slot) :
    ∃ q, p.checkpointStakingV2ValidatorInner v slot = .ok q := by
  have hex : ∃ d, checkpointDelegations ((p.delegations.get v).getD ∅) s.epochStartSlot slot
      a.delegations = .ok d := exists_checkpointDelegations hslot hfits.delegations
  obtain ⟨d, hd⟩ := hex
  unfold checkpointStakingV2ValidatorInner
  simp only [hs, ok_rules, not_lt, setAmount_eq_ok]
  exact ⟨_, hslot, a, ha, i, hi, _, ⟨hfits.bond, rfl⟩, d, hd, rfl⟩

/-- The other validators' accounting does not see the change of one. -/
theorem Current.frame (h : p.Current start w a) (hstake : q.stakes.get w = p.stakes.get w)
    (hdel : q.delegations.get w = p.delegations.get w) : q.Current start w a := by
  have hof : q.delegationsOf w = p.delegationsOf w := by
    unfold delegationsOf
    rw [hdel]
  refine ⟨?_, h.fresh, ?_, ?_⟩
  · rw [hstake]
    exact h.bond
  · intro d x hx
    rw [delegation_eq, hof, ← delegation_eq]
    exact h.delegations d x hx
  · rw [hof]
    exact h.covered

/-- A checkpoint makes the accounting of its validator current. -/
theorem Checkpointed.current (h : q.Checkpointed start v slot a a')
    (hold : ∀ d x, a.delegations.get d = some x → d ≠ v)
    (hnew : ∀ d n, (q.delegationsOf v).get d = some n → d ≠ v) (hslot : start ≤ slot)
    (hblocks : ∀ i, q.stakes.get v = some i → a.productionBaseline ≤ i.blocksProduced) :
    q.Current start v a' := by
  obtain ⟨i, hi, hbond⟩ := h.bond
  have hbase : a'.productionBaseline = a.productionBaseline := by rw [h.frozen]
  refine ⟨⟨i, hi, ?_, ?_⟩, ?_, ?_, ?_⟩
  · rw [hbond]
    rfl
  · rw [hbase]
    exact hblocks i hi
  · rw [hbond]
    exact hslot
  · intro d x hx
    rw [h.delegations] at hx
    split at hx
    · rename_i hd
      cases hx
      refine ⟨?_, hslot, rfl⟩
      rcases hd with hd | hd
      · obtain ⟨x, hx⟩ := Option.isSome_iff_exists.mp hd
        exact hold d x hx
      · obtain ⟨n, hn⟩ := Option.isSome_iff_exists.mp hd
        exact hnew d n hn
    · simp at hx
  · intro d n hn
    refine ⟨_, by rw [h.delegations, if_pos (Or.inr (by rw [hn]; rfl))], ?_⟩
    show q.delegation v d = n
    rw [delegation_eq, hn]
    rfl

theorem Valid.delegationsOf_entry (h : p.Valid)
    (hd : (p.delegationsOf v).get d = some n) : d ≠ v ∧ 0 < n := by
  unfold delegationsOf at hd
  cases hm : p.delegations.get v with
  | none =>
    rw [hm] at hd
    simp at hd
  | some m =>
    rw [hm] at hd
    exact h.entries v m d n hm hd

/-- The state `t` is `s` with the validators of `l` checkpointed. -/
structure CheckpointedAll (r : StakePool) (s : StakingV2EpochState) (slot : Nat) (l : List Pubkey)
    (t : StakingV2EpochState) : Prop where
  rest : t = { s with validators := t.validators }
  same : ∀ w, w ∉ l → t.validators.get w = s.validators.get w
  checkpointed : ∀ w, w ∈ l → ∃ a a', s.validators.get w = some a ∧ t.validators.get w = some a'
    ∧ r.Checkpointed s.epochStartSlot w slot a a'

theorem CheckpointedAll.start (h : r.CheckpointedAll s slot l t) :
    t.epochStartSlot = s.epochStartSlot := by
  rw [h.rest]

/-- One more. -/
theorem CheckpointedAll.snoc (h : r.CheckpointedAll s slot l t) (hv : v ∉ l)
    (ha : t.validators.get v = some a) (hcp : r.Checkpointed s.epochStartSlot v slot a a') :
    r.CheckpointedAll s slot (v :: l) { t with validators := t.validators.put v a' } := by
  have ha' : s.validators.get v = some a := by
    rw [← h.same v hv]
    exact ha
  refine ⟨by rw [h.rest], ?_, ?_⟩
  · grind [same]
  · grind [checkpointed]

/-- The pool `r` with another epoch state. -/
def withEpoch (r : StakePool) (t : StakingV2EpochState) : StakePool :=
  { r with stakingV2State := some t }

/-- **After checkpoints.**  The pool `q` differs from a pool whose epoch is in order in the stake of
    some validators; once these are checkpointed, the epoch is in order again exactly when no
    validator of the epoch is above the limit. -/
theorem epochOk_checkpoints (h : p.EpochOk s) (hq : q.Valid) (hslot : s.epochStartSlot ≤ slot)
    (hsame : ∀ w, w ∉ l → q.stakes.get w = p.stakes.get w
      ∧ q.delegations.get w = p.delegations.get w)
    (hblocks : ∀ w a i, s.validators.get w = some a → q.stakes.get w = some i →
      a.productionBaseline ≤ i.blocksProduced) (hc : q.CheckpointedAll s slot l t) :
    (q.withEpoch t).EpochOk t ↔ ∀ w b, s.validators.get w = some b →
      q.effective w ≤ saturationLimit (q.epochStake s) s.validators.size := by
  have hrest := hc.rest
  -- the validators of the epoch are the same, before and after
  have hkeys : ∀ w, (t.validators.get w).isSome = true ↔ w ∈ s.validators.keys := by
    intro w
    rw [mem_keys_iff]
    by_cases hw : w ∈ l
    · grind [CheckpointedAll.checkpointed]
    · rw [hc.same w hw]
  have hsize : t.validators.size = s.validators.size := by
    rw [size_of_keys s.validators.keys_nodup hkeys]
    exact (size_of_keys s.validators.keys_nodup fun w =>
      (s.validators.mem_keys_iff w).symm).symm
  have hstake : (q.withEpoch t).epochStake t = q.epochStake s := by
    have ht := sumBy_of_keys s.validators.keys_nodup hkeys q.effective
    have hs := sumBy_of_keys s.validators.keys_nodup
      (fun w => (s.validators.mem_keys_iff w).symm) q.effective
    exact ht.trans hs.symm
  have hback : ∀ w b, t.validators.get w = some b → ∃ a, s.validators.get w = some a := by
    intro w b hb
    have hw := (hkeys w).mp (by rw [hb]; rfl)
    exact Option.isSome_iff_exists.mp ((s.validators.mem_keys_iff w).mp hw)
  constructor
  · intro hok w b hb
    have hw := (hkeys w).mpr (mem_keys_of_get hb)
    obtain ⟨b', hb'⟩ := Option.isSome_iff_exists.mp hw
    have hsat := hok.saturated w b' hb'
    rw [hstake, hsize] at hsat
    exact hsat
  · intro hsat
    obtain ⟨exposure, hexp, hexpsize, hfrozen⟩ := h.frozen
    refine
      { header := by rw [hrest]; exact h.header
        commissions := by rw [hrest]; exact h.commissions
        retained := by rw [hrest]; exact h.retained
        snapshots := by rw [hrest]; exact h.snapshots
        frozen := ⟨exposure, by rw [hrest]; exact hexp, by rw [hexpsize, hsize], ?_⟩
        occupied := by rw [hsize]; exact h.occupied
        current := ?_
        fits := by rw [hstake]; exact lt_of_le_of_lt (hq.epochStake_le s) hq.fits
        saturated := ?_ }
    · intro w b hb
      have hcomm : t.commissions = s.commissions := by rw [hrest]
      by_cases hw : w ∈ l
      · obtain ⟨a, a', ha, ha', hcp⟩ := hc.checkpointed w hw
        rw [hb] at ha'
        cases ha'
        obtain ⟨hown, hweight, hpower, hx, hcommission⟩ := hfrozen w a ha
        rw [hcp.frozen]
        exact ⟨hown, hweight, hpower, hx, by rw [hcomm]; exact hcommission⟩
      · rw [hc.same w hw] at hb
        obtain ⟨hown, hweight, hpower, hx, hcommission⟩ := hfrozen w b hb
        exact ⟨hown, hweight, hpower, hx, by rw [hcomm]; exact hcommission⟩
    · intro w b hb
      rw [hc.start]
      by_cases hw : w ∈ l
      · obtain ⟨a, a', ha, ha', hcp⟩ := hc.checkpointed w hw
        rw [hb] at ha'
        cases ha'
        refine .frame (p := q) (hcp.current ?_ ?_ hslot fun i => hblocks w a i ha) rfl rfl
        · exact fun d x hx => ((h.current w a ha).delegations d x hx).1
        · exact fun d n hn => (hq.delegationsOf_entry hn).1
      · rw [hc.same w hw] at hb
        exact (h.current w b hb).frame (hsame w hw).1 (hsame w hw).2
    · intro w b hb
      obtain ⟨a, ha⟩ := hback w b hb
      rw [hstake, hsize]
      exact hsat w a ha

end StakePool
end Lichen.Staking
