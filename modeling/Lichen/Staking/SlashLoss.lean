/-
  What the loop of an equivocation slash takes from whom.

  An owner loses `exposed * percent / 100`: first from an exit that it requested since the snapshot
  (`coolingLoss`), then from what it still has bonded (`activeLoss`).  Owners are distinct, so the
  turns of the loop do not disturb each other and both losses can be read off the pool before the
  slash.  While the loop runs, the totals of the pool lag behind its entries; `switchedOff` is the
  pool as it will be settled, and that one is valid after every turn.
-/
import Lichen.Staking.Checkpoint

open Base HashMap
namespace Lichen.Staking
open U128 List
namespace StakePool
variable {p q q' : StakePool} {v o : Pubkey} {i : StakeInfo} {start percent : Nat}

/-! ## Losses -/

section
variable (p : StakePool)

/-- What an owner has bonded with `v`: the operator its self-bond, anyone else a delegation. -/
def bondedBy (v o : Pubkey) : Nat := if o = v then p.bond v else p.delegation v o

/-- What the pending exit of an owner holds. -/
def requested (v o : Pubkey) : Nat :=
  ((p.unstakeRequests.get (v, o)).map UnstakeRequest.amount).getD 0

/-- The same, if the exit was requested in slot `start` or later: it unlocks one cooldown after
    the request. -/
def requestedSince (v o : Pubkey) (start : Nat) : Nat :=
  ((p.unstakeRequests.get (v, o)).map fun r =>
    if start + UNSTAKE_COOLDOWN_SLOTS ≤ r.unlockSlot then r.amount else 0).getD 0

/-- What the owner of an exposure pays out of a pending exit requested since `start`: its share of
    the slash, as far as the exit has it.  MossStake settles elsewhere. -/
def coolingLoss (v : Pubkey) (start percent : Nat) (e : Pubkey × Nat) : Nat :=
  if e.1 = MOSSSTAKE_PROTOCOL_DELEGATOR then 0
  else min (p.requestedSince v e.1 start) (e.2 * percent / 100)

/-- What it then pays out of its bond. -/
def activeLoss (v : Pubkey) (start percent : Nat) (e : Pubkey × Nat) : Nat :=
  if e.1 = MOSSSTAKE_PROTOCOL_DELEGATOR then 0
  else min (p.bondedBy v e.1) (e.2 * percent / 100 - p.coolingLoss v start percent e)

end

theorem requestedSince_of_get (h : p.unstakeRequests.get (v, o) = some r) (start : Nat) :
    p.requestedSince v o start
      = if start + UNSTAKE_COOLDOWN_SLOTS ≤ r.unlockSlot then r.amount else 0 := by
  rw [requestedSince, h, Option.map_some, Option.getD_some]

theorem requestedSince_of_none (h : p.unstakeRequests.get (v, o) = none) (start : Nat) :
    p.requestedSince v o start = 0 := by
  rw [requestedSince, h]
  rfl

/-- The code counts back from the unlock slot. -/
theorem coolingDownStake_eq (p : StakePool) (v o : Pubkey) (start n : Nat) :
    p.coolingDownStake v o start n = min (p.requestedSince v o start) n := by
  unfold coolingDownStake
  cases h : p.unstakeRequests.get (v, o) with
  | none =>
    rw [requestedSince_of_none h]
    exact (Nat.zero_min n).symm
  | some r =>
    rw [requestedSince_of_get h]
    simp only
    generalize UNSTAKE_COOLDOWN_SLOTS = cooldown
    by_cases hunlock : cooldown ≤ r.unlockSlot
    · have hsince : start ≤ r.unlockSlot - cooldown ↔ start + cooldown ≤ r.unlockSlot := by omega
      rw [U64.checkedSub_eq_some.mpr ⟨hunlock, rfl⟩]
      simp only [hsince]
      split
      · rfl
      · exact (Nat.zero_min n).symm
    · have hnone : U64.checkedSub r.unlockSlot cooldown = none := if_neg hunlock
      have hlate : ¬ start + cooldown ≤ r.unlockSlot := by omega
      rw [hnone, if_neg hlate, Nat.zero_min]

/-- A pending exit pays what it has. -/
theorem requestedSince_le (p : StakePool) (v o : Pubkey) (start : Nat) :
    p.requestedSince v o start ≤ p.requested v o := by
  cases h : p.unstakeRequests.get (v, o) with
  | none =>
    rw [requestedSince_of_none h]
    exact Nat.zero_le _
  | some r =>
    rw [requestedSince_of_get h, requested, h, Option.map_some, Option.getD_some]
    split
    · exact le_refl _
    · exact Nat.zero_le _

variable {e : Pubkey × Nat}

/-- Both losses only look at the bond and the request of the owner. -/
theorem coolingLoss_congr (hreq : q.unstakeRequests.get (v, e.1) = p.unstakeRequests.get (v, e.1)) :
    q.coolingLoss v start percent e = p.coolingLoss v start percent e := by
  unfold coolingLoss requestedSince
  rw [hreq]

theorem activeLoss_congr (hb : q.bondedBy v e.1 = p.bondedBy v e.1)
    (hreq : q.unstakeRequests.get (v, e.1) = p.unstakeRequests.get (v, e.1)) :
    q.activeLoss v start percent e = p.activeLoss v start percent e := by
  unfold activeLoss
  rw [hb, coolingLoss_congr hreq]

/-! ## The pool as it will be settled -/

/-- The offender switched off and the active losses so far taken out of the network total. -/
def switchedOff (q : StakePool) (v : Pubkey) (loss : Nat) : StakePool :=
  match q.stakes.get v with
  | none => q
  | some i => { q with
      stakes := q.stakes.put v { i with isActive := false }
      totalStaked := q.totalStaked - loss }

theorem switchedOff_of_get (hi : q.stakes.get v = some i) (loss : Nat) :
    q.switchedOff v loss = { q with
      stakes := q.stakes.put v { i with isActive := false }
      totalStaked := q.totalStaked - loss } := by
  unfold switchedOff
  rw [hi]

/-- One turn of the loop for the owner `o`, that takes `taken` out of bonded stake. -/
structure SlashTurn (q q' : StakePool) (v o : Pubkey) (taken : Nat) : Prop where
  epoch : q'.stakingV2State = q.stakingV2State
  totalStaked : q'.totalStaked = q.totalStaked
  totalSlashed : q'.totalSlashed = q.totalSlashed
  stakes : ∀ w, w ≠ v → q'.stakes.get w = q.stakes.get w
  maps : ∀ w, w ≠ v → q'.delegations.get w = q.delegations.get w
  entry : ∀ i, q.stakes.get v = some i → ∃ i', q'.stakes.get v = some i'
    ∧ i'.blocksProduced = i.blocksProduced
    ∧ i'.amount + i'.delegatedAmount + taken = i.amount + i.delegatedAmount
    ∧ (o ≠ v → i'.amount = i.amount)
  owners : ∀ e, e ≠ o → q'.delegation v e = q.delegation v e
  requests : ∀ e, e ≠ o → q'.unstakeRequests.get (v, e) = q.unstakeRequests.get (v, e)
  valid : ∀ loss, (q.switchedOff v loss).Valid → (q'.switchedOff v (loss + taken)).Valid

theorem SlashTurn.refl (q : StakePool) (v o : Pubkey) : SlashTurn q q v o 0 :=
  ⟨rfl, rfl, rfl, fun _ _ => rfl, fun _ _ => rfl, fun j hj => ⟨j, hj, rfl, rfl, fun _ => rfl⟩,
    fun _ _ => rfl, fun _ _ => rfl, fun _ h => h⟩

/-- The bonds of the other owners stay. -/
theorem SlashTurn.bondedBy (h : SlashTurn q q' v o taken)
    (hi : q.stakes.get v = some i) {e} (he : e ≠ o) :
    q'.bondedBy v e = q.bondedBy v e := by
  grind [StakePool.bondedBy, entry, bond_of_get, owners]

section
variable (hi : q.stakes.get v = some i)
include hi

/-- A pending exit pays `loss`. -/
theorem takeCoolingDown_turn (hle : loss ≤ q.requested v o) :
    SlashTurn q (q.takeCoolingDown v o loss) v o 0
      ∧ (q.takeCoolingDown v o loss).requested v o + loss = q.requested v o
      ∧ ∀ k, k ≠ (v, o) →
        (q.takeCoolingDown v o loss).unstakeRequests.get k = q.unstakeRequests.get k := by
  unfold takeCoolingDown
  cases hr : q.unstakeRequests.get (v, o) with
  | none =>
    have hnone : loss = 0 := by
      rw [requested, hr] at hle
      exact Nat.le_zero.mp hle
    exact ⟨.refl q v o, by rw [hnone, add_zero], fun _ _ => rfl⟩
  | some r =>
    have hamount : q.requested v o = r.amount := by
      rw [requested, hr]
      rfl
    rw [hamount] at hle ⊢
    -- whatever is left of the request, the rest of the pool is the same
    have hturn : ∀ requests : HashMap (Pubkey × Pubkey) UnstakeRequest,
        (∀ k, k ≠ (v, o) → requests.get k = q.unstakeRequests.get k) →
        (q.RequestsOk → ({ q with unstakeRequests := requests } : StakePool).RequestsOk) →
        SlashTurn q { q with unstakeRequests := requests } v o 0 := by
      intro requests hother hok
      refine ⟨rfl, rfl, rfl, fun _ _ => rfl, fun _ _ => rfl,
        fun j hj => ⟨j, hj, rfl, rfl, fun _ => rfl⟩, fun _ _ => rfl,
        fun e he => hother _ fun heq => he (Prod.mk.inj heq).2, fun loss h => ?_⟩
      rw [switchedOff_of_get hi] at h
      rw [switchedOff_of_get (q := { q with unstakeRequests := requests }) hi]
      exact { h with requests := hok h.requests }
    simp only
    split_ifs with hz hleft
    · exact ⟨.refl q v o, by rw [hz, add_zero, hamount], fun _ _ => rfl⟩
    · have hother : ∀ k, k ≠ (v, o) →
          (q.unstakeRequests.remove (v, o)).get k = q.unstakeRequests.get k :=
        fun k hk => get_remove_ne _ hk
      refine ⟨hturn _ hother fun hok w t r' hr' => ?_, ?_, hother⟩
      · obtain ⟨-, hget⟩ := get_remove_cases hr'
        exact hok w t r' hget
      · rw [requested, get_remove_self, Option.map_none, Option.getD_none]
        omega
    · have hother : ∀ k, k ≠ (v, o) → (q.unstakeRequests.put (v, o)
          { r with amount := r.amount - loss }).get k = q.unstakeRequests.get k :=
        fun k hk => get_put_ne _ _ hk
      refine ⟨hturn _ hother fun hok w t r' hr' => ?_, ?_, hother⟩
      · rcases get_put_cases hr' with ⟨hwt, rfl⟩ | ⟨-, hget⟩
        · obtain ⟨rfl, rfl⟩ := Prod.mk.inj hwt
          obtain ⟨hrv, hrs, -⟩ := hok w t r hr
          exact ⟨hrv, hrs, Nat.pos_of_ne_zero hleft⟩
        · exact hok w t r' hget
      · rw [requested, get_put_self]
        exact Nat.sub_add_cancel hle

/-- The operator pays out of its self-bond. -/
theorem takeSelfBond_turn (remaining : Nat) :
    ∃ q', q.takeSelfBond v remaining = .ok (min i.amount remaining, q')
      ∧ SlashTurn q q' v v (min i.amount remaining)
      ∧ q'.bond v + min i.amount remaining = i.amount ∧ q'.unstakeRequests = q.unstakeRequests := by
  obtain ⟨htaken, hamt, hval, hd, hfp, -, -⟩ := StakeInfo.slash_spec i remaining
  have htaken' : (i.slash remaining).2 = min i.amount remaining := by
    rw [htaken, Nat.min_comm]
  have hblocks : (i.slash remaining).1.blocksProduced = i.blocksProduced := by
    unfold StakeInfo.slash
    simp only
    split <;> rfl
  refine ⟨{ q with stakes := q.stakes.put v (i.slash remaining).1 }, ?_, ?_, ?_, rfl⟩
  · unfold takeSelfBond
    simp only [ok_rules]
    exact ⟨i, hi, by rw [htaken']⟩
  · refine ⟨rfl, rfl, rfl, fun w hw => ?_, fun _ _ => rfl, fun j hj => ?_, fun _ _ => rfl,
      fun _ _ => rfl, fun loss h => ?_⟩
    · exact get_put_ne _ _ hw
    · rw [hi] at hj
      cases hj
      refine ⟨_, get_put_self _ _ _, hblocks, ?_, fun hne => absurd rfl hne⟩
      rw [hd, hamt]
      omega
    · rw [switchedOff_of_get hi] at h
      rw [switchedOff_of_get (get_put_self _ _ _), put_put]
      -- in the settled pool this is one bond replaced by a smaller one
      have hentry := get_put_self q.stakes v { i with isActive := false }
      have hshare := h.share_le hentry
      have hbond := h.bonded v _ hentry
      have hfits := h.fits
      refine h.setBond hentry (put_put _ _ _ _).symm hval ?_
        (fun hact => absurd hact (by simp)) rfl hd ?_ ?_ h.requests rfl hfp
      · show (i.slash remaining).1.amount ≤ MAX_VALIDATOR_STAKE
        have hb : i.amount ≤ MAX_VALIDATOR_STAKE := hbond
        omega
      · show q.totalStaked - (loss + min i.amount remaining) + i.amount
          = q.totalStaked - loss + (i.slash remaining).1.amount
        have hs : i.amount + i.delegatedAmount ≤ q.totalStaked - loss := hshare
        omega
      · show q.totalStaked - (loss + min i.amount remaining) < 2 ^ 64
        have hf : q.totalStaked - loss < 2 ^ 64 := hfits
        omega
  · rw [bond_of_get (get_put_self _ _ _), hamt]
    omega

/-- A delegation of a pool under slash can be reduced as in the settled pool. -/
theorem less_of_switchedOff
    (h : (q.switchedOff v loss).Valid) (hpos : 0 < amount) (hle : amount ≤ q.delegation v o)
    (hq' : q'.delegations = q.withoutDelegation v o amount) :
    LessDelegation q q' v o amount ∧ i.delegatedAmount = q.delegatedTo v := by
  rw [switchedOff_of_get hi] at h
  have hless := h.lessDelegation hpos hle hq'
  have hown := h.delegated v _ (get_put_self q.stakes v { i with isActive := false })
  exact ⟨⟨hless.others, hless.total, hless.ok, hless.entry⟩, hown⟩

/-- A delegator pays out of its delegation. -/
theorem takeDelegation_turn
    (hview : (q.switchedOff v loss₀).Valid) (remaining : Nat) (hov : o ≠ v) :
    ∃ q', q.takeDelegation v o remaining = .ok (min (q.delegation v o) remaining, q')
      ∧ SlashTurn q q' v o (min (q.delegation v o) remaining)
      ∧ q'.delegation v o + min (q.delegation v o) remaining = q.delegation v o
      ∧ q'.unstakeRequests = q.unstakeRequests := by
  have hle : min (q.delegation v o) remaining ≤ q.delegation v o := min_le_left _ _
  unfold takeDelegation
  generalize min (q.delegation v o) remaining = taken at hle ⊢
  by_cases hz : taken = 0
  · simp only [hz, if_true]
    exact ⟨q, rfl, .refl q v o, rfl, rfl⟩
  have hpos : 0 < taken := Nat.pos_of_ne_zero hz
  let i' : StakeInfo := { i with delegatedAmount := i.delegatedAmount - taken }
  let q' : StakePool := { q with
    stakes := q.stakes.put v i', delegations := q.withoutDelegation v o taken }
  have hboth : LessDelegation q q' v o taken ∧ i.delegatedAmount = q.delegatedTo v :=
    less_of_switchedOff hi hview hpos hle rfl
  obtain ⟨hless, hown⟩ := hboth
  have hdelegated : taken ≤ i.delegatedAmount := by
    have htot := hless.total
    omega
  simp only [hz, if_false, ok_rules]
  have hleft : q'.delegation v o + taken = q.delegation v o := by
    rw [hless.entry o, if_pos rfl]
    omega
  refine ⟨q', ⟨i, hi, _, ⟨hdelegated, rfl⟩, rfl⟩, ?_, hleft, rfl⟩
  refine ⟨rfl, rfl, rfl, fun w hw => get_put_ne _ _ hw, hless.others, fun j hj => ?_,
    fun e he => ?_, fun _ _ => rfl, fun loss h => ?_⟩
  · grind
  · rw [hless.entry e, if_neg he]
  · rw [switchedOff_of_get hi] at h
    rw [switchedOff_of_get (q := q') (get_put_self _ _ _), put_put]
    -- in the settled pool this is one entry replaced, with a smaller delegation map
    have hentry := get_put_self q.stakes v { i with isActive := false }
    have hshare := h.share_le hentry
    have hf : q.totalStaked - loss < 2 ^ 64 := h.fits
    have hbond := h.bonded v _ hentry
    refine h.setEntry hentry (put_put _ _ _ _).symm rfl hbond
      (fun hact => absurd hact (by simp)) rfl rfl ?_ ?_ hless.others ?_ hless.ok h.requests
    · grind
    · show q.totalStaked - (loss + taken) < 2 ^ 64
      omega
    · have htot : q'.delegatedTo v + taken = q.delegatedTo v := hless.total
      show i.delegatedAmount - taken = q'.delegatedTo v
      omega

/-- **What the owner has bonded pays the rest.** -/
theorem takeBonded_turn (hview : (q.switchedOff v loss₀).Valid) (o : Pubkey) (remaining : Nat) :
    ∃ q', q.takeBonded v o remaining = .ok (min (q.bondedBy v o) remaining, q')
      ∧ SlashTurn q q' v o (min (q.bondedBy v o) remaining)
      ∧ q'.bondedBy v o + min (q.bondedBy v o) remaining = q.bondedBy v o
      ∧ q'.unstakeRequests = q.unstakeRequests := by
  unfold takeBonded bondedBy
  by_cases hov : o = v
  · subst hov
    simp only [if_true]
    rw [bond_of_get hi]
    exact takeSelfBond_turn hi remaining
  · simp only [hov, if_false]
    exact takeDelegation_turn hi hview remaining hov

end

/-- Two turns for the same owner are one. -/
theorem SlashTurn.trans (h : SlashTurn q q' v o a)
    (h' : SlashTurn q' q'' v o b) : SlashTurn q q'' v o (a + b) := by
  refine ⟨h'.epoch.trans h.epoch, h'.totalStaked.trans h.totalStaked,
    h'.totalSlashed.trans h.totalSlashed, fun w hw => (h'.stakes w hw).trans (h.stakes w hw),
    fun w hw => (h'.maps w hw).trans (h.maps w hw), fun i hi => ?_,
    fun e he => (h'.owners e he).trans (h.owners e he),
    fun e he => (h'.requests e he).trans (h.requests e he), fun loss hl => ?_⟩
  · grind [entry]
  · have hvalid := h'.valid (loss + a) (h.valid loss hl)
    rwa [add_assoc] at hvalid

/-! ## One turn of the loop -/

/-- What an owner loses altogether. -/
def nativeLoss (p : StakePool) (v : Pubkey) (start percent : Nat) (e : Pubkey × Nat) : Nat :=
  p.activeLoss v start percent e + p.coolingLoss v start percent e

theorem losses_le (e : Pubkey × Nat) : p.nativeLoss v start percent e ≤ e.2 * percent / 100 := by
  grind [coolingLoss, nativeLoss, activeLoss]

/-- A turn that goes through. -/
structure SlashStep (s s' : SlashProgress) (v : Pubkey) (start percent : Nat) (e : Pubkey × Nat) :
    Prop where
  active : s'.activeLossTotal = s.activeLossTotal + s.updated.activeLoss v start percent e
  native : s'.nativeLossTotal = s.nativeLossTotal + s.updated.nativeLoss v start percent e
  turn : SlashTurn s.updated s'.updated v e.1 (s.updated.activeLoss v start percent e)

/-- The line of an owner in the settlement, if it loses something. -/
def lossLine (p : StakePool) (v : Pubkey) (start percent : Nat) (e : Pubkey × Nat) :
    List StakingV2SlashOwnerLoss :=
  if p.nativeLoss v start percent e = 0 then []
  else [⟨e.1, p.activeLoss v start percent e, p.coolingLoss v start percent e⟩]

/-- A turn that charges its owner, and no one else. -/
structure Charged (s s' : SlashProgress) (v : Pubkey) (start percent : Nat) (e : Pubkey × Nat) :
    Prop extends SlashStep s s' v start percent e where
  bonded : s'.updated.bondedBy v e.1 + s.updated.activeLoss v start percent e
    = s.updated.bondedBy v e.1
  request : s'.updated.requested v e.1 + s.updated.coolingLoss v start percent e
    = s.updated.requested v e.1
  elsewhere : ∀ k, k ≠ (v, e.1) → s'.updated.unstakeRequests.get k = s.updated.unstakeRequests.get k
  listed : s'.ownerLosses = s.ownerLosses ++ s.updated.lossLine v start percent e

theorem takeCoolingDown_same (loss : Nat) : (q.takeCoolingDown v o loss).stakes = q.stakes
    ∧ (q.takeCoolingDown v o loss).delegations = q.delegations := by
  grind [takeCoolingDown]

theorem takeCoolingDown_bondedBy (loss : Nat) (e : Pubkey) :
    (q.takeCoolingDown v o loss).bondedBy v e = q.bondedBy v e := by
  simp [takeCoolingDown_same, StakePool.bondedBy, bond, delegation]

section
variable {s : SlashProgress} (hi : s.updated.stakes.get v = some i)
  (hview : (s.updated.switchedOff v s.activeLossTotal).Valid)
  (hactive : s.activeLossTotal + (i.amount + i.delegatedAmount) < 2 ^ 64)
  (hnative : s.nativeLossTotal < 2 ^ 64)
include hi hview hactive hnative

/-- The turn of an owner that pays something, or nothing because it has nothing. -/
theorem slashOwner_native (he : e.2 * percent / 100 < 2 ^ 64)
    (hmul : e.2 * percent < 2 ^ 128) (hzero : e.2 * percent / 100 ≠ 0)
    (hmoss : e.1 ≠ MOSSSTAKE_PROTOCOL_DELEGATOR) :
    (s.nativeLossTotal + s.updated.nativeLoss v start percent e < 2 ^ 64 →
      ∃ s', slashOwner v start percent s e = .ok s' ∧ Charged s s' v start percent e) ∧
    ∀ s', slashOwner v start percent s e = .ok s' →
      s.nativeLossTotal + s.updated.nativeLoss v start percent e < 2 ^ 64 := by
  have hcool : s.updated.coolingLoss v start percent e
      = s.updated.coolingDownStake v e.1 start (e.2 * percent / 100) :=
    (if_neg hmoss).trans (s.updated.coolingDownStake_eq v e.1 start _).symm
  have hact : s.updated.activeLoss v start percent e = min (s.updated.bondedBy v e.1)
    (e.2 * percent / 100 - s.updated.coolingLoss v start percent e) := if_neg hmoss
  have hmin := s.updated.coolingDownStake_eq v e.1 start (e.2 * percent / 100)
  have hle : s.updated.coolingDownStake v e.1 start (e.2 * percent / 100) ≤ e.2 * percent / 100 :=
    hmin.trans_le (min_le_right _ _)
  -- the exit first, then the bond; both are turns for the same owner
  obtain ⟨hturn₁, hreq, helse⟩ := takeCoolingDown_turn hi
    ((hmin.trans_le (min_le_left _ _)).trans (s.updated.requestedSince_le v e.1 start))
  generalize hcd : s.updated.coolingDownStake v e.1 start (e.2 * percent / 100) = cool at *
  rw [hcool] at hact
  obtain ⟨i₁, hi₁, -, -, -⟩ := hturn₁.entry i hi
  obtain ⟨q, hq, hturn₂, hbonded, hsame⟩ := takeBonded_turn hi₁ (hturn₁.valid _ hview) e.1
    (e.2 * percent / 100 - cool)
  rw [takeCoolingDown_bondedBy, ← hact] at hq hturn₂ hbonded
  have hturn := hturn₁.trans hturn₂
  rw [zero_add] at hturn
  obtain ⟨i₂, -, -, hsum, -⟩ := hturn.entry i hi
  have hnat : s.updated.activeLoss v start percent e + cool
      = s.updated.nativeLoss v start percent e := by
    unfold nativeLoss
    rw [hcool]
  have hreq' : q.requested v e.1 + s.updated.coolingLoss v start percent e
      = s.updated.requested v e.1 := by
    rw [requested, hsame, hcool]
    exact hreq
  have helse' : ∀ k, k ≠ (v, e.1) → q.unstakeRequests.get k = s.updated.unstakeRequests.get k :=
    fun k hk => hsame ▸ helse k hk
  -- everything up to the totals goes through
  have hmul' : checkedMul e.2 percent = some (e.2 * percent) := checkedMul_eq_some.mpr ⟨hmul, rfl⟩
  have hto : tryToU64 (e.2 * percent / 100) = some (e.2 * percent / 100) :=
    tryToU64_eq_some.mpr ⟨he, rfl⟩
  have hsub : U64.checkedSub (e.2 * percent / 100) cool = some (e.2 * percent / 100 - cool) :=
    U64.checkedSub_eq_some.mpr ⟨hle, rfl⟩
  have hadd : U64.checkedAdd (s.updated.activeLoss v start percent e) cool
      = some (s.updated.nativeLoss v start percent e) :=
    U64.checkedAdd_eq_some.mpr ⟨by omega, hnat.symm⟩
  unfold slashOwner
  simp only [hmul', hto, hcd, hsub, hadd, hq, okOr, bind_ok, hzero, hmoss, if_false]
  by_cases hnone : s.updated.nativeLoss v start percent e = 0
  · have hzero' : s.updated.activeLoss v start percent e = 0 := by omega
    simp only [hnone, if_true, pure_eq_ok]
    refine ⟨fun _ => ⟨_, rfl, ⟨?_, ?_, hturn⟩, hbonded, hreq', helse', ?_⟩, fun _ _ => by omega⟩
    · exact hzero'.symm ▸ rfl
    · exact hnone.symm ▸ rfl
    · rw [lossLine, if_pos hnone, append_nil]
  · simp only [hnone, if_false]
    have hact' : U64.checkedAdd s.activeLossTotal (s.updated.activeLoss v start percent e)
        = some (s.activeLossTotal + s.updated.activeLoss v start percent e) :=
      U64.checkedAdd_eq_some.mpr ⟨by omega, rfl⟩
    simp only [hact', bind_ok]
    constructor
    · intro hroom
      have hnative' : U64.checkedAdd s.nativeLossTotal (s.updated.nativeLoss v start percent e)
          = some (s.nativeLossTotal + s.updated.nativeLoss v start percent e) :=
        U64.checkedAdd_eq_some.mpr ⟨hroom, rfl⟩
      simp only [hnative', bind_ok, pure_eq_ok]
      refine ⟨_, rfl, ⟨rfl, rfl, hturn⟩, hbonded, hreq', helse', ?_⟩
      rw [lossLine, if_neg hnone, hcool]
    · grind

/-- **One turn** fails only when the total of the losses leaves 64 bits. -/
theorem slashOwner_spec (start : Nat) (he : e.2 < 2 ^ 64) (hpercent : percent ≤ 100) :
    (s.nativeLossTotal + s.updated.nativeLoss v start percent e < 2 ^ 64 →
      ∃ s', slashOwner v start percent s e = .ok s' ∧ Charged s s' v start percent e) ∧
    ∀ s', slashOwner v start percent s e = .ok s' →
      s.nativeLossTotal + s.updated.nativeLoss v start percent e < 2 ^ 64 := by
  have hprod : e.2 * percent ≤ e.2 * 100 := Nat.mul_le_mul_left e.2 hpercent
  have hto : e.2 * percent / 100 < 2 ^ 64 := by omega
  have hmul : e.2 * percent < 2 ^ 128 := by omega
  have hle : s.updated.nativeLoss v start percent e ≤ e.2 * percent / 100 := losses_le e
  have hsplit : s.updated.nativeLoss v start percent e = s.updated.activeLoss v start percent e
    + s.updated.coolingLoss v start percent e := rfl
  -- a turn that takes nothing
  have hidle : ∀ s', s.updated.nativeLoss v start percent e = 0 → s'.updated = s.updated →
      s'.activeLossTotal = s.activeLossTotal → s'.nativeLossTotal = s.nativeLossTotal →
      s'.ownerLosses = s.ownerLosses → Charged s s' v start percent e := by
    intro s' hz hupd _ _ hlist
    have hact : s.updated.activeLoss v start percent e = 0 := by omega
    have hcool : s.updated.coolingLoss v start percent e = 0 := by omega
    refine ⟨⟨by omega, by omega, ?_⟩, ?_, ?_, fun _ _ => hupd ▸ rfl, ?_⟩
    · rw [hact, hupd]
      exact .refl _ _ _
    · rw [hact, hupd, add_zero]
    · rw [hcool, hupd, add_zero]
    · rw [lossLine, if_pos hz, append_nil, hlist]
  by_cases hzero : e.2 * percent / 100 = 0
  · have hok : slashOwner v start percent s e = .ok s := by
      unfold slashOwner
      simp only [ok_rules, checkedMul_eq_some, tryToU64_eq_some]
      exact ⟨_, ⟨hmul, rfl⟩, _, ⟨hto, rfl⟩, by rw [if_pos hzero]; rfl⟩
    exact ⟨fun _ => ⟨s, hok, hidle s (by omega) rfl rfl rfl rfl⟩, fun _ _ => by omega⟩
  by_cases hmoss : e.1 = MOSSSTAKE_PROTOCOL_DELEGATOR
  · have hnone : s.updated.nativeLoss v start percent e = 0 := by
      unfold nativeLoss activeLoss coolingLoss
      rw [if_pos hmoss, if_pos hmoss]
    have hok : slashOwner v start percent s e
        = .ok { s with mossstakeRequestedLoss := e.2 * percent / 100 } := by
      unfold slashOwner
      simp only [ok_rules, checkedMul_eq_some, tryToU64_eq_some]
      exact ⟨_, ⟨hmul, rfl⟩, _, ⟨hto, rfl⟩, by rw [if_neg hzero, if_pos hmoss]; rfl⟩
    exact ⟨fun _ => ⟨_, hok, hidle _ hnone rfl rfl rfl rfl⟩, fun _ _ => by omega⟩
  · exact slashOwner_native hi hview hactive hnative hto hmul hzero hmoss

end

/-! ## The loop -/

/-- What holds of the pool under slash, compared with the pool `p` before it. -/
structure SlashInv (p : StakePool) (v : Pubkey) (s : SlashProgress) : Prop where
  valid : (s.updated.switchedOff v s.activeLossTotal).Valid
  native : s.nativeLossTotal < 2 ^ 64
  entry : ∀ i, p.stakes.get v = some i → ∃ i', s.updated.stakes.get v = some i'
    ∧ i'.blocksProduced = i.blocksProduced
    ∧ i'.amount + i'.delegatedAmount + s.activeLossTotal = i.amount + i.delegatedAmount
  epoch : s.updated.stakingV2State = p.stakingV2State
  totalStaked : s.updated.totalStaked = p.totalStaked
  totalSlashed : s.updated.totalSlashed = p.totalSlashed
  stakes : ∀ w, w ≠ v → s.updated.stakes.get w = p.stakes.get w
  maps : ∀ w, w ≠ v → s.updated.delegations.get w = p.delegations.get w

theorem SlashInv.step (h : SlashInv p v s)
    (hstep : SlashStep s s' v start percent e) (hn : s'.nativeLossTotal < 2 ^ 64) :
    SlashInv p v s' := by
  obtain ⟨hactive, -, hturn⟩ := hstep
  refine ⟨?_, hn, fun i hi => ?_, hturn.epoch.trans h.epoch, hturn.totalStaked.trans h.totalStaked,
    hturn.totalSlashed.trans h.totalSlashed, fun w hw => (hturn.stakes w hw).trans (h.stakes w hw),
    fun w hw => (hturn.maps w hw).trans (h.maps w hw)⟩
  · rw [hactive]
    exact hturn.valid _ h.valid
  · grind [entry, SlashTurn.entry]

/-- What the turns for `l` do to a pool in which these owners still are as in `p`. -/
structure ChargedAll (p : StakePool) (s s' : SlashProgress) (v : Pubkey) (start percent : Nat)
    (l : List (Pubkey × Nat)) : Prop where
  active : s'.activeLossTotal = s.activeLossTotal + (l.map (p.activeLoss v start percent)).sum
  native : s'.nativeLossTotal = s.nativeLossTotal + (l.map (p.nativeLoss v start percent)).sum
  owners : ∀ e ∈ l, s'.updated.bondedBy v e.1 + p.activeLoss v start percent e = p.bondedBy v e.1
    ∧ s'.updated.requested v e.1 + p.coolingLoss v start percent e = p.requested v e.1
  others : ∀ o, o ∉ l.map Prod.fst → s'.updated.bondedBy v o = s.updated.bondedBy v o
  elsewhere : ∀ k, (∀ o ∈ l.map Prod.fst, k ≠ (v, o)) →
    s'.updated.unstakeRequests.get k = s.updated.unstakeRequests.get k
  listed : s'.ownerLosses = s.ownerLosses ++ l.flatMap (p.lossLine v start percent)

theorem ChargedAll.cons
    (hstep : Charged s s₁ v start percent e) (h : ChargedAll p s₁ s' v start percent l)
    (hi : s.updated.stakes.get v = some i) (hout : e.1 ∉ l.map Prod.fst)
    (hb : s.updated.bondedBy v e.1 = p.bondedBy v e.1)
    (hr : s.updated.unstakeRequests.get (v, e.1) = p.unstakeRequests.get (v, e.1)) :
    ChargedAll p s s' v start percent (e :: l) := by
  obtain ⟨⟨hactive, hnative, hturn⟩, hbonded, hrequest, helse, hlisted⟩ := hstep
  have hact : s.updated.activeLoss v start percent e = p.activeLoss v start percent e :=
    activeLoss_congr hb hr
  have hcool : s.updated.coolingLoss v start percent e = p.coolingLoss v start percent e :=
    coolingLoss_congr hr
  have hnat : s.updated.nativeLoss v start percent e = p.nativeLoss v start percent e :=
    congrArg₂ _ hact hcool
  rw [lossLine, hnat, hact, hcool] at hlisted
  rw [hact] at hactive hbonded
  rw [hnat] at hnative
  have hreq : s'.updated.requested v e.1 + p.coolingLoss v start percent e = p.requested v e.1 := by
    rw [requested, h.elsewhere (v, e.1) fun o ho heq => hout ((Prod.mk.inj heq).2 ▸ ho)]
    rw [hcool] at hrequest
    exact hrequest.trans (by rw [requested, requested, hr])
  refine ⟨?_, ?_, ?_, fun o ho => ?_, fun k hk => ?_, ?_⟩
  · rw [h.active, hactive, map_cons, sum_cons, add_assoc]
  · rw [h.native, hnative, map_cons, sum_cons, add_assoc]
  · refine forall_mem_cons.mpr ⟨⟨?_, hreq⟩, h.owners⟩
    rw [h.others e.1 hout, hbonded, hb]
  · rw [map_cons, mem_cons, not_or] at ho
    rw [h.others o ho.2, hturn.bondedBy hi ho.1]
  · rw [map_cons, forall_mem_cons] at hk
    rw [h.elsewhere k hk.2, helse k hk.1]
  · rw [h.listed, hlisted, append_assoc, flatMap_cons]
    rfl

/-- **All turns.**  The losses are those of the pool before the slash. -/
theorem slashOwners_spec (start : Nat) (hp : p.stakes.get v = some i)
    (hfit : i.amount + i.delegatedAmount < 2 ^ 64) (hpercent : percent ≤ 100)
    (hl : (l.map Prod.fst).Nodup) :
    ∀ {s : SlashProgress}, SlashInv p v s → (∀ e ∈ l, e.2 < 2 ^ 64) →
      (∀ e ∈ l, s.updated.bondedBy v e.1 = p.bondedBy v e.1
        ∧ s.updated.unstakeRequests.get (v, e.1) = p.unstakeRequests.get (v, e.1)) →
      (s.nativeLossTotal + (l.map (p.nativeLoss v start percent)).sum < 2 ^ 64 →
        ∃ s', tryFold (slashOwner v start percent) s l = .ok s' ∧ SlashInv p v s'
          ∧ ChargedAll p s s' v start percent l)
      ∧ ∀ s', tryFold (slashOwner v start percent) s l = .ok s' →
        s.nativeLossTotal + (l.map (p.nativeLoss v start percent)).sum < 2 ^ 64 := by
  induction l with
  | nil =>
    intro s hinv _ _
    refine ⟨fun _ => ⟨s, rfl, hinv, rfl, rfl, nofun, fun _ _ => rfl, fun _ _ => rfl, ?_⟩,
      fun _ _ => hinv.native⟩
    exact (append_nil _).symm
  | cons e l ih =>
    intro s hinv hsmall hsame
    rw [map_cons, nodup_cons] at hl
    obtain ⟨hout, hl⟩ := hl
    obtain ⟨i', hi', -, hsum⟩ := hinv.entry i hp
    obtain ⟨hb, hr⟩ := hsame e mem_cons_self
    have hact : s.updated.activeLoss v start percent e = p.activeLoss v start percent e :=
      activeLoss_congr hb hr
    have hnat : s.updated.nativeLoss v start percent e = p.nativeLoss v start percent e := by
      unfold nativeLoss
      rw [hact, coolingLoss_congr hr]
    obtain ⟨hgo, hback⟩ := slashOwner_spec hi' hinv.valid (by omega) hinv.native start
      (hsmall e mem_cons_self) hpercent
    rw [hnat] at hgo hback
    -- what the rest of the loop sees after this turn
    have hrest : ∀ s₁, SlashStep s s₁ v start percent e → SlashInv p v s₁ →
        (∀ e' ∈ l, s₁.updated.bondedBy v e'.1 = p.bondedBy v e'.1
          ∧ s₁.updated.unstakeRequests.get (v, e'.1) = p.unstakeRequests.get (v, e'.1)) := by
      intro s₁ hstep _ e' he'
      have hne : e'.1 ≠ e.1 := fun heq => hout (heq ▸ mem_map_of_mem he')
      obtain ⟨hb', hr'⟩ := hsame e' (mem_cons_of_mem e he')
      exact ⟨(hstep.turn.bondedBy hi' hne).trans hb', (hstep.turn.requests _ hne).trans hr'⟩
    have hsmall' : ∀ e' ∈ l, e'.2 < 2 ^ 64 := fun e' he' => hsmall e' (mem_cons_of_mem e he')
    simp only [map_cons, sum_cons, tryFold_cons_eq_ok]
    constructor
    · intro _
      obtain ⟨s₁, hs₁, hstep⟩ := hgo (by omega)
      have hnative₁ : s₁.nativeLossTotal = s.nativeLossTotal + p.nativeLoss v start percent e := by
        rw [hstep.native, hnat]
      have hinv₁ := hinv.step hstep.toSlashStep (by omega)
      obtain ⟨s₂, hs₂, hinv₂, hall⟩ :=
        (ih hl hinv₁ hsmall' (hrest s₁ hstep.toSlashStep hinv₁)).1 (by omega)
      exact ⟨s₂, ⟨s₁, hs₁, hs₂⟩, hinv₂, .cons hstep hall hi' hout hb hr⟩
    · rintro s₂ ⟨s₁, hs₁, hs₂⟩
      obtain ⟨s₁', hs₁', hstep⟩ := hgo (hback s₁ hs₁)
      obtain rfl : s₁ = s₁' := Except.ok.inj (hs₁.symm.trans hs₁')
      have hnative₁ : s₁.nativeLossTotal = s.nativeLossTotal + p.nativeLoss v start percent e := by
        rw [hstep.native, hnat]
      have hinv₁ := hinv.step hstep.toSlashStep (by have := hback s₁ hs₁; omega)
      have hlast := (ih hl hinv₁ hsmall' (hrest s₁ hstep.toSlashStep hinv₁)).2 s₂ hs₂
      omega

end StakePool
end Lichen.Staking
