/-
  Opening an epoch.

  The accounting of a new epoch is made from the pool alone: every listed validator starts with its
  bond, its delegations and its effective stake as frozen power (`opening`), and what was exposed to
  slashing is exactly that power.  Opening fails when a validator is listed twice or is not
  reward-eligible, and for no other reason (`openAccounting_spec`, `exists_openAccounting`).
-/
import Lichen.Staking.StakeTime

open Base HashMap
namespace Lichen.Staking
open List

/-! ## Leader weights -/

theorem integerSqrtLoop_le (value : Nat) : ∀ fuel x y, integerSqrtLoop value fuel x y ≤ x := by
  intro fuel
  induction fuel with
  | zero => exact fun x y => le_refl x
  | succ fuel ih =>
    grind [integerSqrtLoop]

/-- Newton's method starts at half the value. -/
theorem integerSqrt_le (h : 3 ≤ value) : integerSqrt value + 1 ≤ value := by
  have hne : value ≠ 0 := by omega
  have hlt : (value + 1) / 2 < value := by omega
  have hloop : integerSqrtLoop value value value ((value + 1) / 2) ≤ (value + 1) / 2 := by
    cases value with
    | zero => exact absurd rfl hne
    | succ fuel =>
      rw [integerSqrtLoop, if_pos hlt]
      exact integerSqrtLoop_le _ _ _ _
  unfold integerSqrt
  rw [if_neg hne]
  omega

/-! ## One validator -/

namespace StakePool

variable {p : StakePool} {v : Pubkey} {i : StakeInfo}
  {start bps epoch : Nat}

/-- The validator can be part of an epoch. -/
structure Eligible (p : StakePool) (v : Pubkey) (i : StakeInfo) : Prop where
  entry : p.stakes.get v = some i
  active : i.isActive = true
  minimum : i.meetsMinimum = true

/-- The accounting of a validator at the start of an epoch. -/
def opening (p : StakePool) (v : Pubkey) (start bps : Nat) (i : StakeInfo) :
    ValidatorEpochAccounting where
  validator := v
  selfBond := EpochStakeAccumulator.new i.amount start
  delegations := (p.delegationsOf v).mapValues fun _ amount => EpochStakeAccumulator.new amount start
  productionBaseline := i.blocksProduced
  consensusPower := i.totalStake
  leaderWeight := integerSqrt (min i.totalStake MAX_VALIDATOR_STAKE) + 1
  commissionBps := bps

/-- The leader weight of a validator is at most its stake. -/
theorem Eligible.leaderWeight_le (h : p.Eligible v i) (start bps : Nat) :
    (p.opening v start bps i).leaderWeight ≤ i.totalStake := by
  have hmin : MIN_VALIDATOR_STAKE ≤ i.totalStake := of_decide_eq_true h.minimum
  have hthree : 3 ≤ min i.totalStake MAX_VALIDATOR_STAKE := by
    unfold MIN_VALIDATOR_STAKE at hmin
    unfold MAX_VALIDATOR_STAKE
    omega
  show integerSqrt (min i.totalStake MAX_VALIDATOR_STAKE) + 1 ≤ i.totalStake
  have hle := integerSqrt_le hthree
  omega

theorem buildEpochAccounting_eq_ok : p.buildEpochAccounting v start bps = .ok a ↔
      ∃ i, p.Eligible v i ∧ a = p.opening v start bps i := by
  unfold buildEpochAccounting
  simp only [ok_rules, not_or, Bool.not_eq_false]
  constructor
  · rintro ⟨i, hi, ⟨hact, hmin⟩, w, ⟨-, rfl⟩, rfl⟩
    exact ⟨i, ⟨hi, hact, hmin⟩, rfl⟩
  · rintro ⟨i, h, rfl⟩
    have hle := h.leaderWeight_le start bps
    have hlt : i.totalStake < 2 ^ 64 := U64.saturatingAdd_lt _ _
    exact ⟨i, h.entry, ⟨h.active, h.minimum⟩, _, ⟨lt_of_le_of_lt hle hlt, rfl⟩, rfl⟩

/-! ## All of them -/

/-- The commission schedule that a validator takes into an epoch. -/
def scheduleOf (commissions : HashMap Pubkey ValidatorCommissionState) (epoch : Nat) (v : Pubkey) :
    ValidatorCommissionState :=
  (commissions.get v).getD (ValidatorCommissionState.new epoch)

section
variable {duplicate : Pubkey → String}

/-- One turn of the loop of `openAccounting`. -/
private def openTurn (p : StakePool) (epoch start : Nat) (duplicate : Pubkey → String)
    (acc : HashMap Pubkey ValidatorEpochAccounting × HashMap Pubkey ValidatorCommissionState)
    (v : Pubkey) :
    Except String (HashMap Pubkey ValidatorEpochAccounting ×
      HashMap Pubkey ValidatorCommissionState) := do
  failIf (acc.1.containsKey v = true) (duplicate v)
  let schedule := (acc.2.get v).getD (ValidatorCommissionState.new epoch)
  let accounting ← p.buildEpochAccounting v start schedule.currentBps
  pure (acc.1.put v accounting, acc.2.put v schedule)

private theorem openTurn_eq_ok :
    p.openTurn epoch start duplicate acc v = .ok r ↔ acc.1.get v = none ∧ ∃ i, p.Eligible v i
      ∧ r = (acc.1.put v (p.opening v start (scheduleOf acc.2 epoch v).currentBps i),
        acc.2.put v (scheduleOf acc.2 epoch v)) := by
  unfold openTurn HashMap.containsKey
  simp only [ok_rules, buildEpochAccounting_eq_ok, Option.not_isSome_iff_eq_none]
  grind [scheduleOf]

/-- What the loop has made of a list of validators. -/
structure Opened (p : StakePool) (epoch start : Nat) (l : List Pubkey)
    (acc r : HashMap Pubkey ValidatorEpochAccounting × HashMap Pubkey ValidatorCommissionState) :
    Prop where
  distinct : l.Nodup
  new : ∀ v ∈ l, acc.1.get v = none
  eligible : ∀ v ∈ l, ∃ i, p.Eligible v i
  accounting : ∀ v, r.1.get v = if v ∈ l
    then (p.stakes.get v).map (p.opening v start (scheduleOf acc.2 epoch v).currentBps)
    else acc.1.get v
  schedules : ∀ v, r.2.get v = if v ∈ l then some (scheduleOf acc.2 epoch v) else acc.2.get v

/-- What the loop over the validators leaves. -/
private theorem openTurns_spec :
    ∀ {acc r : HashMap Pubkey ValidatorEpochAccounting × HashMap Pubkey ValidatorCommissionState},
      tryFold (p.openTurn epoch start duplicate) acc l = .ok r → p.Opened epoch start l acc r := by
  induction l with
  | nil =>
    intro acc r h
    rw [tryFold_nil, Except.ok.injEq] at h
    subst h
    exact ⟨nodup_nil, by simp, by simp, by simp, by simp⟩
  | cons x l ih =>
    intro acc r h
    obtain ⟨b, hb, hrest⟩ := tryFold_cons_eq_ok.mp h
    obtain ⟨hnone, i, hi, rfl⟩ := openTurn_eq_ok.mp hb
    obtain ⟨hdistinct, hnew, helig, hacc, hsched⟩ := ih hrest
    have hx : x ∉ l := by
      intro hmem
      have habs := hnew x hmem
      simp at habs
    -- the schedules of the others are not touched by the first turn
    have hof : ∀ v, v ≠ x →
        scheduleOf (acc.2.put x (scheduleOf acc.2 epoch x)) epoch v = scheduleOf acc.2 epoch v := by
      intro v hv
      unfold scheduleOf
      rw [get_put_ne _ _ hv]
    refine ⟨nodup_cons.mpr ⟨hx, hdistinct⟩, ?_, ?_, ?_, ?_⟩
    · intro v hv
      rcases mem_cons.mp hv with rfl | hv
      · exact hnone
      · have hne : v ≠ x := fun heq => hx (heq ▸ hv)
        rw [← hnew v hv, get_put_ne _ _ hne]
    · intro v hv
      rcases mem_cons.mp hv with rfl | hv
      · exact ⟨i, hi⟩
      · exact helig v hv
    · intro v
      rw [hacc]
      by_cases hv : v = x
      · subst hv
        simp [hx, hi.entry]
      · simp only [hof v hv, mem_cons, hv, false_or]
        split
        · rfl
        · exact get_put_ne _ _ hv
    · intro v
      rw [hsched]
      by_cases hv : v = x
      · subst hv
        simp [hx]
      · simp only [hof v hv, mem_cons, hv, false_or]
        split
        · rfl
        · exact get_put_ne _ _ hv

private theorem exists_openTurns (hl : l.Nodup) (helig : ∀ v ∈ l, ∃ i, p.Eligible v i) :
    ∀ {acc : HashMap Pubkey ValidatorEpochAccounting × HashMap Pubkey ValidatorCommissionState},
      (∀ v ∈ l, acc.1.get v = none) →
      ∃ r, tryFold (p.openTurn epoch start duplicate) acc l = .ok r := by
  induction l with
  | nil => exact fun _ => ⟨_, rfl⟩
  | cons x l ih =>
    intro acc hnew
    obtain ⟨hx, hl⟩ := nodup_cons.mp hl
    obtain ⟨i, hi⟩ := helig x mem_cons_self
    have hturn : p.openTurn epoch start duplicate acc x = .ok _ :=
      openTurn_eq_ok.mpr ⟨hnew x mem_cons_self, i, hi, rfl⟩
    have hrest : ∀ v ∈ l, (acc.1.put x (p.opening x start
        (scheduleOf acc.2 epoch x).currentBps i)).get v = none := by
      intro v hv
      have hne : v ≠ x := fun heq => hx (heq ▸ hv)
      rw [get_put_ne _ _ hne]
      exact hnew v (mem_cons_of_mem x hv)
    have helig' : ∀ v ∈ l, ∃ i, p.Eligible v i := fun v hv => helig v (mem_cons_of_mem x hv)
    obtain ⟨r, hr⟩ := ih hl helig' (show ∀ v ∈ l,
      ((acc.1.put x (p.opening x start (scheduleOf acc.2 epoch x).currentBps i),
        acc.2.put x (scheduleOf acc.2 epoch x)) : HashMap Pubkey ValidatorEpochAccounting ×
        HashMap Pubkey ValidatorCommissionState).1.get v = none from hrest)
    exact ⟨r, tryFold_cons_eq_ok.mpr ⟨_, hturn, hr⟩⟩

end

theorem openAccounting_spec (h : p.openAccounting epoch start duplicate commissions l = .ok r) :
    p.Opened epoch start l (∅, commissions) r := by
  have hturns : tryFold (p.openTurn epoch start duplicate) (∅, commissions) l = .ok r := h
  exact openTurns_spec hturns

section
variable {l : List Pubkey} {commissions : HashMap Pubkey ValidatorCommissionState}
  {opened} (h : p.Opened epoch start l (∅, commissions) opened)
include h

theorem Opened.isSome_iff (v : Pubkey) : (opened.1.get v).isSome = true ↔ v ∈ l := by
  rw [h.accounting]
  by_cases hv : v ∈ l
  · obtain ⟨i, hi⟩ := h.eligible v hv
    simp [hv, hi.entry]
  · simp [hv]

theorem Opened.get (ha : opened.1.get v = some a) : v ∈ l ∧ ∃ i, p.Eligible v i
      ∧ a = p.opening v start (scheduleOf commissions epoch v).currentBps i := by
  have hv : v ∈ l := (h.isSome_iff v).mp (by rw [ha]; rfl)
  obtain ⟨i, hi⟩ := h.eligible v hv
  rw [h.accounting, if_pos hv, hi.entry, Option.map_some] at ha
  exact ⟨hv, i, hi, (Option.some.inj ha).symm⟩

end

theorem exists_openAccounting (hl : l.Nodup)
    (helig : ∀ v ∈ l, ∃ i, p.Eligible v i) (duplicate : Pubkey → String)
    (commissions : HashMap Pubkey ValidatorCommissionState) :
    ∃ r, p.openAccounting epoch start duplicate commissions l = .ok r :=
  exists_openTurns hl helig fun v _ => get_empty v

end StakePool
end Lichen.Staking
