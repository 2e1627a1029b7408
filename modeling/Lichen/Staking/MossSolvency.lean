/-
  What MossStake owes, through every sequence of calls.

  Each call is described once, by what it does to the books: a change of one position, of one
  bucket of requests, or, for rewards and slashes, of a whole book in one pass whose last turn takes
  the remainder.  `Follows` says that the pool still adds up and what it owes has changed by a flow.

  Two calls can spoil a pool.  An exit whose share of a position rounds to nothing, or that leaves
  a position slashed to nothing, files a request that is worth nothing, and from then on the pool
  is refused wherever it is checked.  And the sum of what a user claims is taken with a plain `+`.
-/
import Lichen.Staking.MossBook

open Base HashMap
open Lichen.Staking (sortedEntries sum_sortedEntries nodup_sortedEntries mem_sortedEntries)
namespace Lichen.MossStake
open MossStakePool StakingPosition List StLicnToken

/-- The flow a reply reports; none, if the call is refused. -/
def flowOf {α : Type} (flow : α → Int) : Except String α → Int
  | .ok a => flow a
  | .error _ => 0

/-! ## Deposits -/

variable {p : MossStakePool} {x : StakingPosition}

theorem depositInto_spec {minted licnAmount currentSlot lockUntil tier} (hv : Valid p)
    (h : p.depositInto user minted licnAmount currentSlot lockUntil tier = .ok x) :
    x.owner = user ∧ x.stLicnAmount = (held p.positions user).1 + minted
      ∧ x.value = (held p.positions user).2 + licnAmount := by
  unfold depositInto at h
  unfold held
  split at h
  · unfold enlarge at h
    simp only [ok_rules] at h
    grind [Valid.backed, Backed.owner, value]
  · grind [value]

variable {p p' : MossStakePool}

theorem stakeWithTier_spec (hv : Valid p)
    (h : p.stakeWithTier user licnAmount currentSlot tier = .ok (n, p')) :
    Follows p p' licnAmount := by
  unfold stakeWithTier at h
  simp only [ok_rules, Prod.mk.injEq] at h
  obtain ⟨_, _, hminted, _, ⟨hsupply, rfl⟩, _, ⟨hbacking, rfl⟩, lockUntil, _, x, hx, rfl, rfl⟩ := h
  obtain ⟨howner, hshares, hvalue⟩ := depositInto_spec hv hx
  have hvalid : Valid
      { p with
        stLicnToken := .withTotals (p.stLicnToken.totalSupply + p.stLicnToken.licnToStLicn licnAmount)
          (p.stLicnToken.totalLicnStaked + licnAmount)
        positions := p.positions.put user x } := by
    refine ⟨?_, withTotals_rate _ _, hv.pending⟩
    exact hv.backed.put howner (by omega) (by simp only [withTotals]; omega)
      (by simp only [withTotals]; omega) hsupply hbacking
  refine ⟨hvalid, ?_⟩
  rw [hvalid.owed_eq, hv.owed_eq]
  simp only [withTotals]
  omega

/-! ## Exits -/

/-- The shares of an exit are worth something: they are all of a position that has some value, or
    their part of the principal or of the rewards does not round to nothing. -/
def WorthSomething (p : MossStakePool) (user : Pubkey) (stLicnAmount : Nat) : Prop :=
  ∀ x, p.positions.get user = some x →
    (stLicnAmount = x.stLicnAmount → 0 < x.licnDeposited + x.rewardsEarned)
      ∧ (stLicnAmount < x.stLicnAmount → x.stLicnAmount ≤ stLicnAmount * x.licnDeposited
          ∨ x.stLicnAmount ≤ stLicnAmount * x.rewardsEarned)

theorem Cut.licn_pos (hcut : Cut x amount principal rewards licn) (hamount : 0 < amount)
    (hall : amount = x.stLicnAmount → 0 < x.licnDeposited + x.rewardsEarned)
    (hpart : amount < x.stLicnAmount → x.stLicnAmount ≤ amount * x.licnDeposited
      ∨ x.stLicnAmount ≤ amount * x.rewardsEarned) : 0 < licn := by
  rw [hcut.total]
  rcases Nat.lt_or_eq_of_le hcut.enough with hlt | heq
  · obtain ⟨hp, hr⟩ := hcut.part hlt
    rcases hpart hlt with hdep | hrew
    · have hpos := Nat.div_pos hdep (by omega)
      omega
    · have hpos := Nat.div_pos hrew (by omega)
      omega
  · obtain ⟨hp, hr⟩ := hcut.all heq
    omega

variable {stLicnAmount currentSlot : Nat} {r : UnstakeRequest}

theorem requestUnstake_spec (hv : Valid p) (hworth : WorthSomething p user stLicnAmount)
    (h : p.requestUnstake user stLicnAmount currentSlot = .ok (r, p')) : Follows p p' 0 := by
  unfold requestUnstake at h
  simp only [ok_rules, Prod.mk.injEq, Prod.exists] at h
  obtain ⟨hzero, _, ⟨_, rfl⟩, x, hx, _, _, principal, rewards, licn, hsplit, _, ⟨-, rfl⟩, _,
    ⟨hbacking, rfl⟩, _, rfl⟩ := h
  have hbounds := (hv.backed.bounds hx).2
  have hcut := split_spec (lt_of_le_of_lt hbounds hv.backed.backing_lt) hsplit
  obtain ⟨hall, hpart⟩ := hworth x hx
  have hlicn : 0 < licn := hcut.licn_pos (by omega) hall hpart
  have hreq : RequestOk user ⟨user, stLicnAmount, licn, currentSlot,
      currentSlot + Staking.UNSTAKE_COOLDOWN_SLOTS, 0, 0⟩ :=
    ⟨rfl, by simp only; omega, hlicn, Nat.le_add_right _ _, fun h => absurd h (by simp)⟩
  have hpending : Pending (p.unstakeRequests.entryPush user ⟨user, stLicnAmount, licn, currentSlot,
      currentSlot + Staking.UNSTAKE_COOLDOWN_SLOTS, 0, 0⟩) := by
    refine hv.pending.put (by simp) ?_
    intro r hr
    rcases mem_append.mp hr with hr | hr
    · exact hv.pending.ok user r hr
    · rw [mem_singleton.mp hr]
      exact hreq
  have howed := pendingTotal_put p.unstakeRequests user
    ((p.unstakeRequests.get user).getD [] ++ [⟨user, stLicnAmount, licn, currentSlot,
      currentSlot + Staking.UNSTAKE_COOLDOWN_SLOTS, 0, 0⟩])
  rw [owedTo_append, owedTo_cons, owedTo_nil] at howed
  simp only at howed
  refine ⟨⟨hv.backed.cut hx hcut, withTotals_rate _ _, hpending⟩, ?_⟩
  rw [Valid.owed_eq ⟨hv.backed.cut hx hcut, withTotals_rate _ _, hpending⟩, hv.owed_eq]
  simp only [withTotals, HashMap.entryPush]
  omega

/-! ## Claims -/

/-- The claimable requests of a user add up to an amount. -/
def ClaimFits (p : MossStakePool) (user : Pubkey) (currentSlot : Nat) : Prop :=
  owedTo (((p.unstakeRequests.get user).getD []).filter (MossStakePool.claimable currentSlot))
    < 2 ^ 64

theorem foldl_claimed (l : List UnstakeRequest) : ∀ t, t + owedTo l < 2 ^ 64 →
      l.foldl (fun total r => U64.wrappingAdd total r.licnToReceive) t = t + owedTo l := by
  induction l with
  | nil => exact fun t _ => rfl
  | cons r l ih =>
    intro t ht
    rw [owedTo_cons] at ht ⊢
    have hadd : U64.wrappingAdd t r.licnToReceive = t + r.licnToReceive :=
      Nat.mod_eq_of_lt (by omega)
    rw [foldl_cons, hadd, ih _ (by omega), add_assoc]

theorem owedTo_eq_zero (hok : ∀ r ∈ l, RequestOk k r) (h : owedTo l = 0) : l = [] := by
  cases l with
  | nil => rfl
  | cons r l =>
    have hpos := (hok r mem_cons_self).licn_pos
    rw [owedTo_cons] at h
    omega

theorem withBucket_spec (h : Pending requests) {user} (hok : ∀ r ∈ l, RequestOk user r) :
    Pending (withBucket requests user l)
      ∧ pendingTotal (withBucket requests user l)
          + owedTo ((requests.get user).getD []) = pendingTotal requests + owedTo l := by
  unfold withBucket
  split
  · rename_i hnil
    have hsum := HashMap.sumBy_remove requests (fun _ l => owedTo l) user
    rw [share_pending] at hsum
    rw [hnil, owedTo_nil, add_zero]
    exact ⟨h.remove user, hsum⟩
  · rename_i hne
    exact ⟨h.put hne hok, pendingTotal_put requests user l⟩

/-- What a claim pays. -/
def claimFlow (totalClaimable : Nat) : Int := -totalClaimable

theorem claimUnstake_spec (hv : Valid p) (hfits : ClaimFits p user currentSlot) :
    Follows p (p.claimUnstake user currentSlot).2
      (flowOf claimFlow (p.claimUnstake user currentSlot).1) := by
  unfold claimUnstake
  cases hget : p.unstakeRequests.get user with
  | none => exact .rfl hv
  | some l =>
    have hok := (hv.pending user l hget).2
    have hrest : ∀ r ∈ l.filter fun r => !claimable currentSlot r, RequestOk user r :=
      fun r hr => hok r (mem_of_mem_filter hr)
    have hsplit := owedTo_filter_add l (claimable currentSlot)
    unfold ClaimFits at hfits
    rw [hget, Option.getD_some] at hfits
    have hclaimed := foldl_claimed _ 0 (by rw [zero_add]; exact hfits)
    rw [zero_add] at hclaimed
    simp only [hclaimed]
    split
    · rename_i hzero
      -- every request is worth something, so nothing has been drained
      have hnone := owedTo_eq_zero (fun r hr => hok r (mem_of_mem_filter hr)) hzero
      have hsame : (l.filter fun r => !claimable currentSlot r) = l := by
        refine filter_eq_self.mpr fun r hr => ?_
        have hno := filter_eq_nil_iff.mp hnone r hr
        simpa using hno
      rw [hsame]
      have hsum := pendingTotal_put p.unstakeRequests user l
      rw [hget, Option.getD_some] at hsum
      refine ⟨⟨hv.backed, hv.rate, hv.pending.put (hv.pending user l hget).1 hok⟩, ?_⟩
      unfold owed flowOf
      simp only
      omega
    · obtain ⟨hpending, hsum⟩ := withBucket_spec hv.pending hrest
      rw [hget, Option.getD_some] at hsum
      refine ⟨⟨hv.backed, withTotals_rate _ _, hpending⟩, ?_⟩
      unfold owed flowOf claimFlow updateExchangeRate
      simp only
      omega

/-! ## Transfers -/

theorem receive_spec (h : Backed m s v)
    {user shares principal rewards currentSlot} (hs : s + shares < 2 ^ 64)
    (hv : v + (principal + rewards) < 2 ^ 64) :
    (receive m user shares principal rewards currentSlot).owner = user
      ∧ (receive m user shares principal rewards currentSlot).stLicnAmount
          = (held m user).1 + shares
      ∧ (receive m user shares principal rewards currentSlot).value
          = (held m user).2 + (principal + rewards) := by
  unfold receive held
  cases hget : m.get user with
  | none => exact ⟨rfl, (zero_add _).symm, (zero_add _).symm⟩
  | some x =>
    obtain ⟨hst, hval⟩ := h.bounds hget
    grind [U64.wrappingAdd, Backed.owner, value]

theorem transfer_spec (hv : Valid p)
    (h : p.transfer source target stLicnAmount currentSlot = .ok p') : Follows p p' 0 := by
  unfold transfer at h
  simp only [ok_rules, Prod.exists] at h
  obtain ⟨hzero, _, x, hx, _, _, _, principal, rewards, licn, hsplit, rfl⟩ := h
  obtain ⟨hst, hval⟩ := hv.backed.bounds hx
  have hs := hv.backed.supply_lt
  have hb := hv.backed.backing_lt
  have hcut := split_spec (by omega) hsplit
  have hmid := hv.backed.cut hx hcut
  have hlicn : principal + rewards ≤ x.licnDeposited + x.rewardsEarned :=
    Nat.add_le_add hcut.principal_le hcut.rewards_le
  rw [hcut.total] at hmid
  obtain ⟨howner, hshares, hvalue⟩ := @receive_spec _ _ _ hmid target stLicnAmount principal
    rewards currentSlot (by omega) (by omega)
  have hend : Backed _ p.stLicnToken.totalSupply p.stLicnToken.totalLicnStaked :=
    hmid.put howner (by omega) (by omega) (by omega) hs hb
  refine ⟨⟨hend, hv.rate, hv.pending⟩, ?_⟩
  unfold owed
  simp only [hend.value, hv.backed.value]
  omega

/-! ## Rewards -/

/-- The rewards of one position. -/
def rewardsOf (m : HashMap Pubkey StakingPosition) (k : Pubkey) : Nat :=
  m.share (fun _ x => x.rewardsEarned) k

variable {totalRewards : Nat}

theorem rewardStep_eq_ok {acc r e}
    (h : rewardStep tierWeighted totalRewards totalWeighted last acc e = .ok r) :
    ∃ share, r = (acc.1 + share, acc.2 ++ [(e.1, e.2.rewardsEarned + share)]) := by
  unfold rewardStep at h
  grind

/-- The pass over the positions: the owners in order, and what is distributed on top of the
    rewards they have. -/
theorem rewardSteps_spec : ∀ {acc r : Nat × List (Pubkey × Nat)},
      tryFoldLast (rewardStep tierWeighted totalRewards totalWeighted) acc l = .ok r →
      r.2.map Prod.fst = acc.2.map Prod.fst ++ l.map Prod.fst
        ∧ (r.2.map Prod.snd).sum + acc.1
            = (acc.2.map Prod.snd).sum + (l.map fun e => e.2.rewardsEarned).sum + r.1 := by
  induction l with
  | nil =>
    simp [tryFoldLast]
  | cons e l ih =>
    grind [tryFoldLast_cons_eq_ok, rewardStep_eq_ok]

/-- Setting rewards: the shares and owners stay, and the value changes by the difference. -/
theorem setRewards_spec : ∀ {m m' : HashMap Pubkey StakingPosition}, (us.map Prod.fst).Nodup →
      tryFold setRewards m us = .ok m' →
      (∀ k x', m'.get k = some x' → ∃ x, m.get k = some x ∧ x'.owner = x.owner
          ∧ x'.stLicnAmount = x.stLicnAmount)
        ∧ sharesOf m' = sharesOf m
        ∧ valueOf m' + (us.map fun u => rewardsOf m u.1).sum
            = valueOf m + (us.map Prod.snd).sum := by
  induction us with
  | nil =>
    intro m m' _ h
    rw [tryFold_nil, Except.ok.injEq] at h
    subst h
    exact ⟨fun k x hx => ⟨x, hx, rfl, rfl⟩, rfl, rfl⟩
  | cons u us ih =>
    intro m m' hnodup h
    obtain ⟨hu, hnodup⟩ := nodup_cons.mp hnodup
    obtain ⟨m₁, h₁, hrest⟩ := tryFold_cons_eq_ok.mp h
    obtain ⟨hkeep, hshares, hvalue⟩ := ih hnodup hrest
    unfold setRewards at h₁
    simp only [ok_rules] at h₁
    obtain ⟨x, hx, rfl⟩ := h₁
    have hsum := sumBy_put m (fun _ x => x.stLicnAmount) u.1 { x with rewardsEarned := u.2 }
    have hval := sumBy_put m (fun _ x => x.value) u.1 { x with rewardsEarned := u.2 }
    rw [share_of_get hx] at hsum hval
    have hothers : (us.map fun v => rewardsOf (m.put u.1 { x with rewardsEarned := u.2 }) v.1)
        = us.map fun v => rewardsOf m v.1 := by
      refine map_congr_left fun v hv => ?_
      have hne : v.1 ≠ u.1 := fun heq => hu (heq ▸ mem_map_of_mem hv)
      unfold rewardsOf HashMap.share
      rw [get_put_ne _ _ hne]
    have hown : rewardsOf m u.1 = x.rewardsEarned := share_of_get hx
    refine ⟨?_, ?_, ?_⟩
    · intro k x' hx'
      obtain ⟨y, hy, howner, hst⟩ := hkeep k x' hx'
      rcases get_put_cases hy with ⟨rfl, rfl⟩ | ⟨-, hy⟩
      · exact ⟨x, hx, howner, hst⟩
      · exact ⟨y, hy, howner, hst⟩
    · unfold sharesOf at hshares ⊢
      simp only at hsum
      omega
    · rw [map_cons, map_cons, sum_cons, sum_cons, hown]
      rw [hothers] at hvalue
      unfold valueOf value at hvalue ⊢
      unfold value at hval
      simp only at hval
      omega

/-- Every reward is in the book once. -/
theorem sum_rewardsOf (m : HashMap Pubkey StakingPosition) :
    (((sortedEntries m).map Prod.fst).map (rewardsOf m)).sum
      = ((sortedEntries m).map fun e => e.2.rewardsEarned).sum := by
  rw [map_map]
  congr 1
  refine map_congr_left ?_
  rintro ⟨k, x⟩ he
  exact share_of_get (f := fun _ x => x.rewardsEarned) (mem_sortedEntries.mp he)

/-- What a distribution adds: nothing, if there are no shares. -/
def rewardFlow (p : MossStakePool) (totalRewards : Nat) : Int :=
  if p.stLicnToken.totalSupply = 0 then 0 else totalRewards

theorem distributeRewardsWithPolicy_spec (hv : Valid p)
    (h : p.distributeRewardsWithPolicy totalRewards tierWeighted = .ok p') :
    Follows p p' (rewardFlow p totalRewards) := by
  unfold distributeRewardsWithPolicy at h
  unfold rewardFlow
  split at h
  · rw [Except.ok.injEq] at h
    subst h
    have hzero : (if p.stLicnToken.totalSupply = 0 then 0 else (totalRewards : Int)) = 0 := by
      split <;> omega
    rw [hzero]
    exact .rfl hv
  · simp only [ok_rules, Prod.exists, ne_eq, not_not] at h
    obtain ⟨_, _, ⟨hbacking, rfl⟩, d, us, hsteps, rfl, m, hset, rfl⟩ := h
    obtain ⟨hkeys, hsum⟩ := rewardSteps_spec hsteps
    simp only [map_nil, nil_append, sum_nil, zero_add, add_zero] at hkeys hsum
    have hnodup : (us.map Prod.fst).Nodup := by
      rw [hkeys]
      exact nodup_sortedEntries p.positions
    obtain ⟨hkeep, hshares, hvalue⟩ := setRewards_spec hnodup hset
    have hold : (us.map fun u => rewardsOf p.positions u.1).sum
        = ((sortedEntries p.positions).map fun e => e.2.rewardsEarned).sum := by
      rw [← sum_rewardsOf, ← hkeys, map_map]
      rfl
    have hend : Backed m p.stLicnToken.totalSupply (p.stLicnToken.totalLicnStaked + d) := by
      refine ⟨?_, ?_, ?_, ?_, hv.backed.supply_lt, hbacking⟩
      · grind [Valid.backed, Backed.owner]
      · grind [Valid.backed, Backed.shares_pos]
      · rw [hshares]
        exact hv.backed.shares
      · have hv0 := hv.backed.value
        omega
    have hvalid : Valid { p with
        stLicnToken := .withTotals p.stLicnToken.totalSupply (p.stLicnToken.totalLicnStaked + d)
        positions := m } := ⟨hend, withTotals_rate _ _, hv.pending⟩
    refine ⟨hvalid, ?_⟩
    grind [Valid.owed_eq, withTotals]

/-! ## Slashing -/

theorem owedTo_set (h : l[i]? = some r)
    (r' : UnstakeRequest) : owedTo (l.set i r') + r.licnToReceive = owedTo l + r'.licnToReceive := by
  induction l generalizing i with
  | nil => simp at h
  | cons a l ih =>
    cases i with
    | zero =>
      grind [owedTo_cons]
    | succ i =>
      grind [owedTo_cons]

/-- One request is lowered by its share. -/
theorem coolingStep_spec {acc r e} (h : coolingStep loss available last acc e = .ok r) :
    r.1 + pendingTotal r.2 = acc.1 + pendingTotal acc.2 := by
  unfold coolingStep slashRequest at h
  simp only [ok_rules] at h
  obtain ⟨share, _, _, _, ⟨_, rfl⟩, _, ⟨bucket, hbucket, request, hrequest, _, ⟨hle, rfl⟩, rfl⟩,
    rfl⟩ := h
  have hset := owedTo_set hrequest { request with licnToReceive := request.licnToReceive - share }
  have hput := pendingTotal_put acc.2 e.owner
    (bucket.set e.index { request with licnToReceive := request.licnToReceive - share })
  rw [hbucket, Option.getD_some] at hput
  simp only at hset ⊢
  omega

theorem owedTo_filter_pos (l : List UnstakeRequest) :
    owedTo (l.filter fun r => decide (0 < r.licnToReceive)) = owedTo l := by
  induction l with
  | nil => rfl
  | cons r l ih =>
    grind [owedTo_cons]

/-- Nothing of value is dropped. -/
theorem pendingTotal_dropWorthless (requests : HashMap Pubkey (List UnstakeRequest)) :
    pendingTotal (dropWorthless requests) = pendingTotal requests := by
  refine sumBy_eq_of_share fun k => ?_
  rw [share_pending, share_pending]
  unfold dropWorthless
  rw [get_retain, get_mapValues]
  cases requests.get k with
  | none => rfl
  | some l =>
    grind [owedTo_filter_pos]

theorem slashActive_spec (h : p.slashActive loss = .ok p') :
    p'.stLicnToken.totalLicnStaked + loss = p.stLicnToken.totalLicnStaked
      ∧ p'.unstakeRequests = p.unstakeRequests := by
  unfold slashActive at h
  grind

theorem slashCooling_spec (h : p.slashCooling eligible loss available = .ok p') :
    pendingTotal p'.unstakeRequests + loss = pendingTotal p.unstakeRequests
      ∧ p'.stLicnToken = p.stLicnToken := by
  unfold slashCooling at h
  split at h
  · grind
  · simp only [ok_rules, Prod.exists, ne_eq, not_not] at h
    obtain ⟨d, requests, hsteps, rfl, rfl⟩ := h
    have hsum := tryFoldLast_induct
      (P := fun acc => acc.1 + pendingTotal acc.2 = 0 + pendingTotal p.unstakeRequests)
      (fun last b a b' hb hstep => (coolingStep_spec hstep).trans hb) rfl hsteps
    grind [pendingTotal_dropWorthless]

/-- What a slash takes. -/
def slashFlow (s : MossStakePool.MossStakeSlashSettlement) : Int :=
  -(s.activeBackingLoss + s.coolingDownLoss : Nat)

theorem applyStakingV2Slash_spec (hv : Valid p)
    (h : p.applyStakingV2Slash requestedLoss start = .ok (s, p')) :
    Follows p p' (slashFlow s) := by
  obtain ⟨_, h⟩ := bind_unit_eq_ok.mp h
  split at h
  · simp only [pure_eq_ok, Prod.mk.injEq] at h
    obtain ⟨rfl, rfl⟩ := h
    exact .rfl hv
  · simp only [ok_rules] at h
    obtain ⟨coolingAvailable, _, _, ⟨_, rfl⟩, h⟩ := h
    split at h
    · simp only [pure_eq_ok, Prod.mk.injEq] at h
      obtain ⟨rfl, rfl⟩ := h
      exact .rfl hv
    · simp only [ok_rules, Prod.mk.injEq, validateInvariants_iff] at h
      obtain ⟨coolingDownLoss, _, _, ⟨_, rfl⟩, _, p₁, h₁, p₂, h₂, hend, rfl, rfl⟩ := h
      obtain ⟨hactive, hsame⟩ := slashActive_spec h₁
      obtain ⟨hcooling, htoken⟩ := slashCooling_spec h₂
      refine ⟨hend, ?_⟩
      grind [Valid.owed_eq, updateExchangeRate, slashFlow, withTotals]

/-! ## Whole runs -/

/-- The calls of the pool. -/
inductive Call where
  | stakeWithTier (user : Pubkey) (licnAmount currentSlot : Nat) (tier : LockTier)
  | requestUnstake (user : Pubkey) (stLicnAmount currentSlot : Nat)
  | claimUnstake (user : Pubkey) (currentSlot : Nat)
  | transfer (source target : Pubkey) (stLicnAmount currentSlot : Nat)
  | distributeRewards (totalRewards : Nat)
  | distributeRewardsV2 (totalRewards : Nat)
  | applyStakingV2Slash (requestedLoss offenseEpochStartSlot : Nat)

/-- One call: the LICN that comes in less what goes out, as replied, and the pool it leaves. -/
def perform (p : MossStakePool) : Call → Int × MossStakePool
  | .stakeWithTier user licnAmount currentSlot tier =>
    let r := p.commit (p.stakeWithTier user licnAmount currentSlot tier)
    (flowOf (fun _ => licnAmount) r.1, r.2)
  | .requestUnstake user stLicnAmount currentSlot =>
    let r := p.commit (p.requestUnstake user stLicnAmount currentSlot)
    (flowOf (fun _ => 0) r.1, r.2)
  | .claimUnstake user currentSlot =>
    let r := p.claimUnstake user currentSlot
    (flowOf claimFlow r.1, r.2)
  | .transfer source target stLicnAmount currentSlot =>
    let r := p.commit ((p.transfer source target stLicnAmount currentSlot).map fun p' => ((), p'))
    (flowOf (fun _ => 0) r.1, r.2)
  | .distributeRewards totalRewards =>
    let r := p.commit ((p.distributeRewards totalRewards).map fun p' => ((), p'))
    (flowOf (fun _ => rewardFlow p totalRewards) r.1, r.2)
  | .distributeRewardsV2 totalRewards =>
    let r := p.distributeRewardsV2 totalRewards
    (flowOf (fun _ => rewardFlow p totalRewards) r.1, r.2)
  | .applyStakingV2Slash requestedLoss offenseEpochStartSlot =>
    let r := p.commit (p.applyStakingV2Slash requestedLoss offenseEpochStartSlot)
    (flowOf slashFlow r.1, r.2)

/-- The pool after a sequence of calls, and the sum of their flows. -/
def run : MossStakePool → List Call → Int × MossStakePool
  | p, [] => (0, p)
  | p, c :: calls =>
    let r := run (perform p c).2 calls
    ((perform p c).1 + r.1, r.2)

/-- An exit that is accepted takes out something, and a claim adds up. -/
def Sound (p : MossStakePool) : Call → Prop
  | .requestUnstake user stLicnAmount currentSlot =>
    (∃ r, p.requestUnstake user stLicnAmount currentSlot = .ok r) → WorthSomething p user stLicnAmount
  | .claimUnstake user currentSlot => ClaimFits p user currentSlot
  | _ => True

/-- Every call of the sequence is sound in the pool it finds. -/
def SoundRun : MossStakePool → List Call → Prop
  | _, [] => True
  | p, c :: calls => Sound p c ∧ SoundRun (perform p c).2 calls

theorem commit_follows {α : Type} {r : Except String (α × MossStakePool)}
    {flow} (hv : Valid p) (h : ∀ a p', r = .ok (a, p') → Follows p p' (flow a)) :
    Follows p (p.commit r).2 (flowOf flow (p.commit r).1) := by
  cases r with
  | error e => exact .rfl hv
  | ok x => exact h x.1 x.2 rfl

theorem map_unit_eq_ok {r : Except String MossStakePool} :
    (r.map fun p => ((), p)) = .ok (u, p') ↔ r = .ok p' := by
  cases r <;> simp [Except.map]

theorem distributeRewardsV2_spec (hv : Valid p) : Follows p (p.distributeRewardsV2 totalRewards).2
      (flowOf (fun _ => rewardFlow p totalRewards) (p.distributeRewardsV2 totalRewards).1) := by
  unfold distributeRewardsV2
  rw [validateInvariants_iff.mpr hv]
  cases h : p.distributeRewardsWithPolicy totalRewards false with
  | error e => exact .rfl hv
  | ok p' =>
    have hfollows := distributeRewardsWithPolicy_spec hv h
    simp only [validateInvariants_iff.mpr hfollows.valid]
    exact hfollows

/-- **One call.** -/
theorem perform_follows {c : Call} (hv : Valid p) (hsound : Sound p c) :
    Follows p (perform p c).2 (perform p c).1 := by
  cases c with
  | stakeWithTier user licnAmount currentSlot tier =>
    exact commit_follows hv fun n p' h => stakeWithTier_spec hv h
  | requestUnstake user stLicnAmount currentSlot =>
    exact commit_follows hv fun r p' h => requestUnstake_spec hv (hsound ⟨_, h⟩) h
  | claimUnstake user currentSlot => exact claimUnstake_spec hv hsound
  | transfer source target stLicnAmount currentSlot =>
    exact commit_follows hv fun u p' h => transfer_spec hv (map_unit_eq_ok.mp h)
  | distributeRewards totalRewards =>
    exact commit_follows hv fun u p' h =>
      distributeRewardsWithPolicy_spec hv (map_unit_eq_ok.mp h)
  | distributeRewardsV2 totalRewards => exact distributeRewardsV2_spec hv
  | applyStakingV2Slash requestedLoss offenseEpochStartSlot =>
    exact commit_follows hv fun s p' h => applyStakingV2Slash_spec hv h

theorem run_follows : ∀ {p : MossStakePool}, Valid p → SoundRun p calls →
      Follows p (run p calls).2 (run p calls).1 := by
  induction calls with
  | nil => exact fun hv _ => .rfl hv
  | cons c calls ih =>
    intro p hv hsound
    have hstep := perform_follows hv hsound.1
    have hrest := ih hstep.valid hsound.2
    refine ⟨hrest.valid, ?_⟩
    have howed := hrest.owed
    have howed' := hstep.owed
    simp only [run]
    omega

/-- **A pool that passes its check and is called soundly stays so**, and owes what came in less what
    went out. -/
theorem pool_solvent (p : MossStakePool) (calls : List Call) (hp : p.validateInvariants = .ok ())
    (hsound : SoundRun p calls) :
    (run p calls).2.validateInvariants = .ok ()
      ∧ ((run p calls).2.owed : Int) = p.owed + (run p calls).1 := by
  have h := run_follows (validateInvariants_iff.mp hp) hsound
  exact ⟨validateInvariants_iff.mpr h.valid, h.owed⟩

/-- A deposit with its rewards: part of it is taken out, slashed on its way and claimed. -/
def claimedCalls : List Call :=
  [.stakeWithTier ⟨7⟩ 1000 0 .Flexible, .distributeRewards 500, .requestUnstake ⟨7⟩ 400 1,
    .applyStakingV2Slash 300 0, .claimUnstake ⟨7⟩ 2000000]

theorem pool_solvent_claimed :
    (run MossStakePool.new claimedCalls).2.validateInvariants = .ok ()
      ∧ ((run MossStakePool.new claimedCalls).2.owed : Int)
        = MossStakePool.new.owed + (run MossStakePool.new claimedCalls).1 := by
  refine pool_solvent _ _ rfl ⟨trivial, trivial, ?_, trivial, ?_, trivial⟩
  · intro _ x hx
    have hget : (perform (perform MossStakePool.new
        (.stakeWithTier ⟨7⟩ 1000 0 .Flexible)).2 (.distributeRewards 500)).2.positions.get ⟨7⟩
          = some ⟨⟨7⟩, 1000, 1000, 0, 0, 500, .Flexible, 0, 0⟩ := by decide +kernel
    rw [hget] at hx
    cases hx
    exact ⟨fun h => absurd h (by decide), fun _ => .inl (by decide)⟩
  · unfold Sound ClaimFits
    decide +kernel

/-- Two requests of `2 ^ 63` spores. -/
def twoHalves : List Call :=
  [.stakeWithTier ⟨7⟩ (2 ^ 63) 0 .Flexible, .requestUnstake ⟨7⟩ (2 ^ 63) 0,
    .stakeWithTier ⟨7⟩ (2 ^ 63) 0 .Flexible, .requestUnstake ⟨7⟩ (2 ^ 63) 0]

/-- A thousand spores are slashed to one, and one of the thousand shares leaves: the request is
    worth nothing.  And two requests of `2 ^ 63` spores are worth nothing together. -/
theorem pool_spoiled :
    (run MossStakePool.new
      [.stakeWithTier ⟨7⟩ 1000 0 .Flexible, .applyStakingV2Slash 999 0,
        .requestUnstake ⟨7⟩ 1 1]).2.validateInvariants.toOption = none
      ∧ (run MossStakePool.new twoHalves).2.owed = 2 ^ 64
      ∧ (run MossStakePool.new (twoHalves ++ [.claimUnstake ⟨7⟩ 2000000])).2.owed = 0
      ∧ (run MossStakePool.new (twoHalves ++ [.claimUnstake ⟨7⟩ 2000000])).1 = 2 ^ 64 := by
  decide +kernel

end Lichen.MossStake
