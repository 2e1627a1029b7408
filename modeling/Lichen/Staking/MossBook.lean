/-
  The books of a MossStake pool, and what the check accepts.

  A pool owes the value of its positions and the requests it has not paid yet.  `Backed` says that
  a book of positions adds up to a supply and a backing, and `Pending` that every request can be
  paid; together with the rate they are what `validateInvariants` checks.  `Cut` is what leaves a
  position with some of its shares: rounded down, except that the last share takes all that is left.
-/
import Lichen.Staking.MossStake

open Base HashMap
open Lichen.Staking (sortedEntries sum_sortedEntries nodup_sortedEntries mem_sortedEntries keyLe
  UNSTAKE_COOLDOWN_SLOTS)

namespace Lichen.MossStake

open MossStakePool

/-! ## A book of positions -/

def StakingPosition.value (x : StakingPosition) : Nat := x.licnDeposited + x.rewardsEarned

/-- The shares of all positions. -/
def sharesOf (m : HashMap Pubkey StakingPosition) : Nat := m.sumBy fun _ x => x.stLicnAmount

/-- The value of all positions. -/
def valueOf (m : HashMap Pubkey StakingPosition) : Nat := m.sumBy fun _ x => x.value

/-- A book that adds up to `supply` shares worth `backing`. -/
structure Backed (m : HashMap Pubkey StakingPosition) (supply backing : Nat) : Prop where
  owner : ∀ k x, m.get k = some x → x.owner = k
  shares_pos : ∀ k x, m.get k = some x → 0 < x.stLicnAmount
  shares : sharesOf m = supply
  value : valueOf m = backing
  supply_lt : supply < 2 ^ 64
  backing_lt : backing < 2 ^ 64

variable {m : HashMap Pubkey StakingPosition} {k : Pubkey} {x : StakingPosition}

theorem Backed.bounds (h : Backed m s v) (hx : m.get k = some x) :
    x.stLicnAmount ≤ s ∧ x.licnDeposited + x.rewardsEarned ≤ v := by
  constructor
  · rw [← h.shares]
    exact le_sumBy_of_get (fun _ x => x.stLicnAmount) hx
  · rw [← h.value]
    exact le_sumBy_of_get (fun _ x => x.value) hx

/-- The shares and the value a key has, if it has any. -/
def held (m : HashMap Pubkey StakingPosition) (k : Pubkey) : Nat × Nat :=
  match m.get k with
  | some x => (x.stLicnAmount, x.value)
  | none => (0, 0)

theorem held_of_get (hx : m.get k = some x) : held m k = (x.stLicnAmount, x.value) := by
  unfold held
  rw [hx]

theorem share_shares (m : HashMap Pubkey StakingPosition) (k : Pubkey) :
    m.share (fun _ x => x.stLicnAmount) k = (held m k).1 := by
  unfold held HashMap.share
  cases m.get k <;> rfl

theorem share_value (m : HashMap Pubkey StakingPosition) (k : Pubkey) :
    m.share (fun _ x => x.value) k = (held m k).2 := by
  unfold held HashMap.share
  cases m.get k <;> rfl

/-- Writing one position. -/
theorem Backed.put (h : Backed m s v) (howner : x.owner = k) (hpos : 0 < x.stLicnAmount)
    (hs : s' + (held m k).1 = s + x.stLicnAmount) (hv : v' + (held m k).2 = v + x.value)
    (hs' : s' < 2 ^ 64) (hv' : v' < 2 ^ 64) : Backed (m.put k x) s' v' := by
  have hshares := sumBy_put m (fun _ x => x.stLicnAmount) k x
  have hvalue := sumBy_put m (fun _ x => x.value) k x
  rw [share_shares] at hshares
  rw [share_value] at hvalue
  have hms := h.shares
  have hmv := h.value
  unfold sharesOf at hms
  unfold valueOf at hmv
  refine ⟨?_, ?_, ?_, ?_, hs', hv'⟩
  · exact forall_put h.owner howner
  · exact forall_put h.shares_pos hpos
  · unfold sharesOf
    omega
  · unfold valueOf
    omega

/-- Dropping one position. -/
theorem Backed.remove (h : Backed m s v)
    (k : Pubkey) : Backed (m.remove k) (s - (held m k).1) (v - (held m k).2) := by
  have hshares := sumBy_remove m (fun _ x => x.stLicnAmount) k
  have hvalue := sumBy_remove m (fun _ x => x.value) k
  rw [share_shares] at hshares
  rw [share_value] at hvalue
  have hms := h.shares
  have hmv := h.value
  unfold sharesOf at hms
  unfold valueOf at hmv
  refine ⟨fun k' y hy => h.owner k' y (get_remove_cases hy).2,
    fun k' y hy => h.shares_pos k' y (get_remove_cases hy).2, ?_, ?_, ?_, ?_⟩
  · unfold sharesOf
    omega
  · unfold valueOf
    omega
  · exact lt_of_le_of_lt (Nat.sub_le _ _) h.supply_lt
  · exact lt_of_le_of_lt (Nat.sub_le _ _) h.backing_lt

/-! ## Taking part of a position out -/

/-- What `split_position_value_for_unstake` cuts off `x`. -/
structure Cut (x : StakingPosition) (amount principal rewards licn : Nat) : Prop where
  enough : amount ≤ x.stLicnAmount
  total : licn = principal + rewards
  principal_le : principal ≤ x.licnDeposited
  rewards_le : rewards ≤ x.rewardsEarned
  all : amount = x.stLicnAmount → principal = x.licnDeposited ∧ rewards = x.rewardsEarned
  part : amount < x.stLicnAmount →
    principal = amount * x.licnDeposited / x.stLicnAmount
      ∧ rewards = amount * x.rewardsEarned / x.stLicnAmount

/-- A part of a whole, rounded down. -/
theorem toU64_part (hlt : amount < whole) (hn : n < 2 ^ 64) :
    U128.toU64 (amount * n / whole) = amount * n / whole ∧ amount * n / whole ≤ n := by
  have hle : amount * n / whole ≤ n := by
    refine Nat.div_le_of_le_mul ?_
    exact Nat.mul_le_mul_right n hlt.le
  exact ⟨U128.toU64_of_lt (lt_of_le_of_lt hle hn), hle⟩

theorem split_spec (hval : x.licnDeposited + x.rewardsEarned < 2 ^ 64)
    (h : splitPositionValueForUnstake x amount = .ok (principal, rewards, licn)) :
    Cut x amount principal rewards licn := by
  unfold splitPositionValueForUnstake at h
  simp only [bind_unit_eq_ok, failIf_eq_ok] at h
  obtain ⟨-, henough, h⟩ := h
  split at h
  · simp only [ok_rules, Prod.mk.injEq] at h
    obtain ⟨_, ⟨_, rfl⟩, rfl, rfl, rfl⟩ := h
    exact ⟨by omega, rfl, le_refl _, le_refl _, fun _ => ⟨rfl, rfl⟩, fun hlt => by omega⟩
  · rename_i hne
    have hlt : amount < x.stLicnAmount := by omega
    obtain ⟨hp, hple⟩ := toU64_part (n := x.licnDeposited) hlt (by omega)
    obtain ⟨hr, hrle⟩ := toU64_part (n := x.rewardsEarned) hlt (by omega)
    simp only [ok_rules, Prod.mk.injEq, hp, hr] at h
    obtain ⟨_, ⟨_, rfl⟩, rfl, rfl, rfl⟩ := h
    exact ⟨by omega, rfl, hple, hrle, fun heq => absurd heq hne, fun _ => ⟨rfl, rfl⟩⟩

/-- **Taking a part out.**  A position that gives away all of its shares gives away all of its
    value and goes. -/
theorem Backed.cut (h : Backed m s v) (hx : m.get k = some x)
    (hcut : Cut x amount principal rewards licn) :
    Backed (setPosition m k (reduce x amount principal rewards)) (s - amount) (v - licn) := by
  obtain ⟨hst, hval⟩ := h.bounds hx
  obtain ⟨henough, rfl, hple, hrle, hall, -⟩ := hcut
  unfold setPosition
  split
  · rename_i hgone
    obtain ⟨hst0, -, -⟩ := hgone
    have hrem := h.remove k
    rw [held_of_get hx] at hrem
    have hamount : amount = x.stLicnAmount := le_antisymm henough (Nat.le_of_sub_eq_zero hst0)
    grind [StakingPosition.value]
  · rename_i hkeeps
    unfold reduce U64.saturatingSub at hkeeps ⊢
    simp only at hkeeps
    have hleft : 0 < x.stLicnAmount - amount := by
      rcases Nat.lt_or_ge amount x.stLicnAmount with - | -
      · omega
      · omega
    have hs := h.supply_lt
    have hv := h.backing_lt
    grind [put, owner, held_of_get, StakingPosition.value]

/-! ## Requests -/

/-- A request that the pool accepts under `owner`. -/
structure RequestOk (owner : Pubkey) (r : UnstakeRequest) : Prop where
  owner_eq : r.owner = owner
  shares_pos : 0 < r.stLicnAmount
  licn_pos : 0 < r.licnToReceive
  slots : r.requestedAt ≤ r.claimableAt
  seconds : 0 < r.claimableAtUnixSeconds → r.requestedAtUnixSeconds ≤ r.claimableAtUnixSeconds

/-- Every bucket holds requests, and every request is worth something. -/
def Pending (requests : HashMap Pubkey (List UnstakeRequest)) : Prop :=
  ∀ k l, requests.get k = some l → l ≠ [] ∧ ∀ r ∈ l, RequestOk k r

/-- What a bucket is owed. -/
def owedTo (l : List UnstakeRequest) : Nat := (l.map (·.licnToReceive)).sum

/-- What all requests are owed. -/
def pendingTotal (requests : HashMap Pubkey (List UnstakeRequest)) : Nat :=
  requests.sumBy fun _ l => owedTo l

@[simp] theorem owedTo_nil : owedTo [] = 0 := rfl

@[simp] theorem owedTo_cons (r : UnstakeRequest) (l : List UnstakeRequest) :
    owedTo (r :: l) = r.licnToReceive + owedTo l := by
  simp [owedTo]

@[simp] theorem owedTo_append (l l' : List UnstakeRequest) :
    owedTo (l ++ l') = owedTo l + owedTo l' := by
  simp [owedTo]

theorem owedTo_filter_add (l : List UnstakeRequest) (q : UnstakeRequest → Bool) :
    owedTo (l.filter q) + owedTo (l.filter fun r => !q r) = owedTo l := by
  induction l with
  | nil => rfl
  | cons r l ih =>
    grind [owedTo_cons]

section
variable (requests : HashMap Pubkey (List UnstakeRequest)) (k : Pubkey)

theorem share_pending :
    requests.share (fun _ l => owedTo l) k = owedTo ((requests.get k).getD []) := by
  unfold HashMap.share
  cases requests.get k <;> rfl

theorem pendingTotal_put (l : List UnstakeRequest) :
    pendingTotal (requests.put k l) + owedTo ((requests.get k).getD [])
      = pendingTotal requests + owedTo l := by
  have h := sumBy_put requests (fun _ l => owedTo l) k l
  rw [share_pending] at h
  exact h

end

theorem Pending.put (h : Pending requests) (hl : l ≠ []) (hok : ∀ r ∈ l, RequestOk k r) :
    Pending (requests.put k l) := by
  exact forall_put h ⟨hl, hok⟩

theorem Pending.remove (h : Pending requests) (k : Pubkey) : Pending (requests.remove k) := by
  grind [Pending]

theorem Pending.ok (h : Pending requests)
    (k : Pubkey) : ∀ r ∈ (requests.get k).getD [], RequestOk k r := by
  cases hk : requests.get k with
  | none => exact fun r hr => absurd hr List.not_mem_nil
  | some l => exact (h k l hk).2

/-! ## What the check accepts -/

/-- A pool that adds up. -/
structure Valid (p : MossStakePool) : Prop where
  backed : Backed p.positions p.stLicnToken.totalSupply p.stLicnToken.totalLicnStaked
  rate : p.stLicnToken.exchangeRateFp = p.stLicnToken.calculateExchangeRateFp
  pending : Pending p.unstakeRequests

theorem checkPosition_eq_ok : checkPosition acc e = .ok r ↔
      (e.2.owner = e.1 ∧ 0 < e.2.stLicnAmount) ∧ acc.1 + e.2.stLicnAmount < 2 ^ 64
        ∧ acc.2 + e.2.value < 2 ^ 64 ∧ r = (acc.1 + e.2.stLicnAmount, acc.2 + e.2.value) := by
  unfold checkPosition StakingPosition.value
  simp only [ok_rules, ne_eq, not_not]
  grind

theorem tryFold_checkPosition : ∀ {acc r : Nat × Nat}, acc.1 < 2 ^ 64 → acc.2 < 2 ^ 64 →
      (tryFold checkPosition acc l = .ok r ↔ (∀ e ∈ l, e.2.owner = e.1 ∧ 0 < e.2.stLicnAmount)
          ∧ r.1 < 2 ^ 64 ∧ r.2 < 2 ^ 64 ∧ r = (acc.1 + (l.map fun e => e.2.stLicnAmount).sum,
            acc.2 + (l.map fun e => e.2.value).sum)) := by
  induction l with
  | nil =>
    grind [tryFold_nil]
  | cons e l ih =>
    intro acc r h1 h2
    rw [tryFold_cons_eq_ok]
    simp only [List.map_cons, List.sum_cons, List.mem_cons, forall_eq_or_imp]
    constructor
    · rintro ⟨b, hb, hrest⟩
      obtain ⟨he, hs, hv, rfl⟩ := checkPosition_eq_ok.mp hb
      grind
    · rintro ⟨⟨he, hl⟩, hr1, hr2, rfl⟩
      have hs : acc.1 + e.2.stLicnAmount < 2 ^ 64 := by omega
      have hv : acc.2 + e.2.value < 2 ^ 64 := by omega
      refine ⟨_, checkPosition_eq_ok.mpr ⟨he, hs, hv, rfl⟩, (ih hs hv).mpr ⟨hl, hr1, hr2, ?_⟩⟩
      rw [add_assoc, add_assoc]

theorem checkRequest_eq_ok : checkRequest owner r = .ok () ↔ RequestOk owner r := by
  unfold checkRequest
  simp only [bind_unit_eq_ok, failIf_eq_ok, ne_eq, not_not]
  constructor
  · rintro ⟨howner, hzero, hslots, hseconds⟩
    exact ⟨howner, by omega, by omega, by omega, by omega⟩
  · rintro ⟨howner, hshares, hlicn, hslots, hseconds⟩
    exact ⟨howner, by omega, by omega, by omega⟩

theorem checkBucket_eq_ok : checkBucket e = .ok () ↔ e.2 ≠ [] ∧ ∀ r ∈ e.2, RequestOk e.1 r := by
  unfold checkBucket
  simp only [bind_unit_eq_ok, failIf_eq_ok, forEach_eq_ok, checkRequest_eq_ok, ne_eq]

/-- **The check.** -/
theorem validateInvariants_iff : p.validateInvariants = .ok () ↔ Valid p := by
  have hsum : ∀ f : StakingPosition → Nat,
      ((sortedEntries p.positions).map fun e => f e.2).sum = p.positions.sumBy fun _ x => f x :=
    fun f => sum_sortedEntries p.positions fun e => f e.2
  have hmem : (∀ e ∈ sortedEntries p.positions, e.2.owner = e.1 ∧ 0 < e.2.stLicnAmount) ↔
      ∀ k x, p.positions.get k = some x → x.owner = k ∧ 0 < x.stLicnAmount := by
    constructor
    · exact fun h k x hx => h (k, x) (mem_sortedEntries.mpr hx)
    · simp [mem_sortedEntries]
  have hbuckets : (∀ e ∈ p.unstakeRequests.toList, checkBucket e = .ok ()) ↔
      Pending p.unstakeRequests := by
    simp only [checkBucket_eq_ok]
    exact forall_mem_toList
  have hfold := fun r : Nat × Nat =>
    @tryFold_checkPosition (sortedEntries p.positions) (0, 0) r (by decide) (by decide)
  unfold validateInvariants
  simp only [ok_rules, forEach_eq_ok, hbuckets, ne_eq, not_not, hfold, hmem, hsum]
  constructor
  · rintro ⟨⟨s, v⟩, ⟨hall, hs, hv, hr⟩, hsupply, hbacking, hrate, hpending⟩
    simp only [zero_add, Prod.mk.injEq] at hr
    obtain ⟨rfl, rfl⟩ := hr
    exact ⟨⟨fun k x hx => (hall k x hx).1, fun k x hx => (hall k x hx).2, hsupply, hbacking,
      hsupply ▸ hs, hbacking ▸ hv⟩, hrate, hpending⟩
  · rintro ⟨⟨howner, hpos, hsupply, hbacking, hs, hv⟩, hrate, hpending⟩
    unfold sharesOf at hsupply
    unfold valueOf at hbacking
    refine ⟨(_, _), ⟨fun k x hx => ⟨howner k x hx, hpos k x hx⟩, ?_, ?_, rfl⟩, ?_, ?_, hrate,
      hpending⟩
    · simp only [zero_add, hsupply]
      exact hs
    · simp only [zero_add, hbacking]
      exact hv
    · simp only [zero_add, hsupply]
    · simp only [zero_add, hbacking]

theorem withTotals_rate (s v : Nat) : (StLicnToken.withTotals s v).exchangeRateFp
      = (StLicnToken.withTotals s v).calculateExchangeRateFp := rfl

/-- What the pool owes. -/
def MossStakePool.owed (p : MossStakePool) : Nat :=
  valueOf p.positions + pendingTotal p.unstakeRequests

theorem Valid.owed_eq (h : Valid p) :
    p.owed = p.stLicnToken.totalLicnStaked + pendingTotal p.unstakeRequests := by
  unfold owed
  rw [h.backed.value]

/-- `p'` is a pool that adds up and owes `flow` more than `p`. -/
structure Follows (p p' : MossStakePool) (flow : Int) : Prop where
  valid : Valid p'
  owed : (p'.owed : Int) = p.owed + flow

theorem Follows.rfl (h : Valid p) : Follows p p 0 := ⟨h, by omega⟩

end Lichen.MossStake
