/-
  One call on a valid pool: which calls leave a pool that can be read back.

  Two things can go wrong, and nothing else.  Additions to `totalStaked` saturate instead of failing,
  so an amount that does not fit leaves a total below the sum of the entries.  And
  `remove_ghost_validators` removes a validator whose self-bond is gone without looking at its
  delegations: the map stays behind under a key that no longer exists.
-/
import Lichen.Staking.Bookkeeping

open Base HashMap
namespace Lichen.Staking
namespace StakePool
variable {p p' : StakePool}

/-! ## Self-bonds -/

theorem bondedTotal_put (h : p.Valid) (hi : p.stakes.get v = some i)
    (hs : p'.stakes = p.stakes.put v i') :
    p'.bondedTotal + (i.amount + i.delegatedAmount)
      = p.totalStaked + (i'.amount + i'.delegatedAmount) := by
  have hsum := sumBy_put p.stakes (fun _ i => i.amount + i.delegatedAmount) v i'
  rw [share_of_get hi] at hsum
  rw [h.totals]
  unfold bondedTotal
  rw [hs]
  exact hsum

/-- A saturated total is not the sum of the entries. -/
theorem room_of_ledger (hl : p'.Ledger) (hsum : p'.bondedTotal = p.totalStaked + amount)
    (htot : p'.totalStaked = U64.saturatingAdd p.totalStaked amount) :
    p.totalStaked + amount < 2 ^ 64 := by
  have heq := hl.totals
  have hlt := U64.saturatingAdd_lt p.totalStaked amount
  omega

theorem Valid.stakeWithIndex (h : p.Valid) (hop : p.stakeWithIndex v amount slot index = .ok p')
    (hroom : p.totalStaked + amount < 2 ^ 64) : p'.Valid := by
  obtain ⟨-, hmax, rfl⟩ := stakeWithIndex_eq_ok.mp hop
  rw [U64.saturatingAdd_of_lt hroom]
  cases hi : p.stakes.get v with
  | none =>
    rw [bond_of_none hi, Nat.zero_add] at hmax
    have hfp := (fingerprintOf_of_none hi).symm
    exact h.newEntry hi rfl (h.toBound.keep rfl rfl hfp) rfl rfl rfl rfl hmax
      of_decide_eq_true rfl hroom
  | some i =>
    rw [bond_of_get hi] at hmax
    refine h.setBond hi rfl rfl hmax StakeInfo.minimum_of_refresh_active rfl rfl ?_ hroom
      h.requests rfl rfl
    show p.totalStaked + amount + i.amount = p.totalStaked + (i.amount + amount)
    omega

theorem stakeWithIndex_room (h : p.Valid)
    (hop : p.stakeWithIndex v amount slot index = .ok p') (hl : p'.Ledger) :
    p.totalStaked + amount < 2 ^ 64 := by
  obtain ⟨-, -, hp'⟩ := stakeWithIndex_eq_ok.mp hop
  refine room_of_ledger hl ?_ (by rw [hp'])
  cases hi : p.stakes.get v with
  | none =>
    have hs : p'.stakes
        = p.stakes.put v (StakeInfo.withBootstrapIndex v amount slot index) := by rw [hp', hi]
    have hsum := HashMap.sumBy_put_of_none (fun _ i => i.amount + i.delegatedAmount)
      (StakeInfo.withBootstrapIndex v amount slot index) hi
    rw [h.totals]
    unfold bondedTotal
    rw [hs, hsum]
    show amount + 0 + p.bondedTotal = p.bondedTotal + amount
    omega
  | some i =>
    have hs : p'.stakes
        = p.stakes.put v ({ i with amount := i.amount + amount } : StakeInfo).refresh := by
      rw [hp', hi]
    have hput := bondedTotal_put h hi hs
    simp only [StakeInfo.refresh_amount, StakeInfo.refresh_delegatedAmount] at hput
    omega

/-- Raising a self-bond by `amount`, as `add_validator_stake` and `top_up_stake` do. -/
theorem Valid.raiseBond (h : p.Valid) (hi : p.stakes.get v = some i)
    (hle : amount ≤ MAX_VALIDATOR_STAKE - i.amount)
    (hs : p'.stakes = p.stakes.put v i') (hreg : p'.fingerprintRegistry = p.fingerprintRegistry)
    (hdel : p'.delegations = p.delegations) (hreq : p'.unstakeRequests = p.unstakeRequests)
    (hval : i'.validator = i.validator) (hfp : i'.machineFingerprint = i.machineFingerprint)
    (hd : i'.delegatedAmount = i.delegatedAmount)
    (ha : i'.amount = U64.saturatingAdd i.amount amount)
    (hact : i'.isActive = true → i.isActive = true ∨
      MIN_VALIDATOR_STAKE ≤ i'.amount + i'.delegatedAmount)
    (htot : p'.totalStaked = U64.saturatingAdd p.totalStaked amount) :
    (p.totalStaked + amount < 2 ^ 64 → p'.Valid)
      ∧ (p'.Ledger → p.totalStaked + amount < 2 ^ 64) := by
  have hb := h.bonded v i hi
  have hsum : i.amount + amount ≤ MAX_VALIDATOR_STAKE := by omega
  have ha' : i'.amount = i.amount + amount := by rw [ha, saturatingAdd_bond hsum]
  refine ⟨fun hroom => ?_, fun hl => ?_⟩
  · rw [U64.saturatingAdd_of_lt hroom] at htot
    refine h.setBond hi hs hval (by omega) ?_ hdel hd (by omega) (by omega)
      (h.requests_kept hreq) hreg hfp
    intro hactive
    rcases hact hactive with hold | hnew
    · have hmin := h.active v i hi hold
      omega
    · exact hnew
  · have hput := bondedTotal_put h hi hs
    refine room_of_ledger hl ?_ htot
    omega

/-! ## Exits, slashes and delegations -/

section
variable (h : p.Valid)
include h

/-- A new request under its own key. -/
theorem Valid.requestsOk_put
    (hreq : p'.unstakeRequests = p.unstakeRequests.put (v, d) r) (hv : r.validator = v)
    (hd : r.staker = d) (hpos : 0 < r.amount) : p'.RequestsOk := by
  intro w s r' hr'
  rw [hreq] at hr'
  rcases get_put_cases hr' with ⟨hkey, rfl⟩ | ⟨-, hr'⟩
  · cases hkey
    exact ⟨hv, hd, hpos⟩
  · exact h.requests w s r' hr'

theorem Valid.delegate (hne : d ≠ v) (hop : p.delegate d v amount = .ok p') : p'.Valid := by
  obtain ⟨i, hi, hpos, hroom, hp'⟩ := delegate_eq_ok hop
  have hmore := h.moreDelegation hpos hne (show p'.delegations = _ by rw [hp'])
  have htot : p'.totalStaked = p.totalStaked + amount := by rw [hp']
  have hs : p'.stakes = p.stakes.put v
    ({ i with delegatedAmount := i.delegatedAmount + amount } : StakeInfo).refresh := by rw [hp']
  refine h.setEntry hi hs rfl (h.bonded v i hi) StakeInfo.minimum_of_refresh_active
    (by rw [hp']) rfl ?_ (by omega) hmore.others ?_ hmore.ok
    (h.requests_kept (by rw [hp']))
  · show p'.totalStaked + (i.amount + i.delegatedAmount)
      = p.totalStaked + (i.amount + (i.delegatedAmount + amount))
    omega
  · rw [hmore.total, ← h.delegated v i hi]
    rfl

theorem Valid.requestDelegationUnstake
    (hop : p.requestDelegationUnstake d v amount slot = .ok p') : p'.Valid := by
  obtain ⟨hpos, -, hle, -, i, hi, hdel, hp'⟩ := requestDelegationUnstake_eq_ok.mp hop
  have hshare := h.share_le hi
  have hfit := h.fits
  have hless := h.lessDelegation hpos hle (show p'.delegations = _ by rw [hp'])
  have htot : p'.totalStaked = p.totalStaked - amount := by rw [hp']
  have hs : p'.stakes = p.stakes.put v
    ({ i with delegatedAmount := i.delegatedAmount - amount } : StakeInfo).refresh := by rw [hp']
  have hnew : p'.unstakeRequests = p.unstakeRequests.put (v, d)
    ⟨v, d, amount, slot + UNSTAKE_COOLDOWN_SLOTS⟩ := by rw [hp']
  refine h.setEntry hi hs rfl (h.bonded v i hi) StakeInfo.minimum_of_refresh_active
    (by rw [hp']) rfl ?_ (by omega) hless.others ?_ hless.ok
    (h.requestsOk_put hnew rfl rfl hpos)
  · show p'.totalStaked + (i.amount + i.delegatedAmount)
      = p.totalStaked + (i.amount + (i.delegatedAmount - amount))
    omega
  · have hsum := hless.total
    rw [← h.delegated v i hi] at hsum
    show i.delegatedAmount - amount = _
    omega

theorem Valid.requestUnstake (hop : p.requestUnstake v amount slot s = .ok p') : p'.Valid := by
  obtain ⟨i, hi, -, -, hpos, hle, -, rfl⟩ := requestUnstake_eq_ok.mp hop
  have hshare := h.share_le hi
  have hfit := h.fits
  have hb := h.bonded v i hi
  refine h.setBond hi rfl rfl ?_ StakeInfo.minimum_of_refresh_active rfl rfl ?_ ?_
    (h.requestsOk_put rfl (h.keyed v i hi) rfl hpos) rfl rfl
  · show i.amount - amount ≤ MAX_VALIDATOR_STAKE
    omega
  · show p.totalStaked - amount + i.amount = p.totalStaked + (i.amount - amount)
    omega
  · show p.totalStaked - amount < 2 ^ 64
    omega

theorem Valid.claimUnstake (hop : p.claimUnstake v slot s = .ok (amount, p')) : p'.Valid := by
  obtain ⟨r, -, -, rfl, rfl⟩ := claimUnstake_eq_ok.mp hop
  refine { h with requests := ?_ }
  grind [requests]

theorem Valid.slashValidator (amount : Nat) : (p.slashValidator v amount).Valid := by
  unfold StakePool.slashValidator
  cases hi : p.stakes.get v with
  | none => exact h
  | some i =>
    obtain ⟨htaken, hamt, hval, hd, hfp, hact, hnone⟩ := StakeInfo.slash_spec i amount
    have hshare := h.share_le hi
    have hfit := h.fits
    have hb := h.bonded v i hi
    refine h.setBond hi rfl hval ?_ ?_ rfl hd ?_ ?_ h.requests rfl hfp
    · rw [hamt]
      omega
    · intro hactive
      rcases hact hactive with hold | hnew
      · by_cases hz : min amount i.amount = 0
        · rw [hnone hz]
          exact h.active v i hi hold
        · have hrefresh : (i.slash amount).1.isActive = true → MIN_VALIDATOR_STAKE
              ≤ (i.slash amount).1.amount + (i.slash amount).1.delegatedAmount := by
            have hz' : ¬ (min amount i.amount = 0 ∨ i.amount = 0) := by omega
            unfold StakeInfo.slash
            simp only [if_neg hz']
            exact StakeInfo.minimum_of_refresh_active
          exact hrefresh hactive
      · exact hnew
    · show p.totalStaked - (i.slash amount).2 + i.amount = p.totalStaked + (i.slash amount).1.amount
      omega
    · show p.totalStaked - (i.slash amount).2 < 2 ^ 64
      omega

end

theorem Valid.rebalance
    (hop : p.rebalanceMossstakeAllocations target active slot = .ok p') : p'.Valid := by
  unfold rebalanceMossstakeAllocations validateV2Invariants at hop
  simp only [ok_rules, validateInvariants_eq_ok] at hop
  obtain ⟨-, -, -, -, -, -, q, -, ⟨hq, -⟩, -, -, -, rfl⟩ := hop
  exact hq

/-! ## Ghosts -/

/-- A validator with nothing delegated has no delegation map, empty maps being dropped. -/
theorem Valid.delegations_none (h : p.Valid) (hi : p.stakes.get v = some i)
    (hd : i.delegatedAmount = 0) : p.delegations.get v = none := by
  cases hm : p.delegations.get v with
  | none => rfl
  | some m =>
    have hne := h.nonempty v m hm
    have hsum : m.sumBy (fun _ a => a) = 0 := by
      rw [h.delegated v i hi] at hd
      unfold delegatedTo delegationsOf at hd
      rwa [hm] at hd
    have hall : ∀ d, m.get d = none := by
      intro d
      cases ha : m.get d with
      | none => rfl
      | some a =>
        have hle := le_sumBy_of_get (fun _ a => a) ha
        have hpos := (h.entries v m d a hm ha).2
        omega
    rw [isEmpty_iff.mpr hall] at hne
    simp at hne

/-- The registry after one removal. -/
theorem removeGhost_registry (hi : p.stakes.get v = some i) (f : Fingerprint) :
    (p.removeGhost v).fingerprintRegistry.get f
      = if i.machineFingerprint ≠ 0 ∧ f = i.machineFingerprint then none
        else p.fingerprintRegistry.get f := by
  unfold removeGhost
  grind

theorem removeGhost_stakes (w : Pubkey) :
    (p.removeGhost v).stakes.get w = if w = v then none else p.stakes.get w := by
  grind [removeGhost]

theorem removeGhost_delegations : (p.removeGhost v).delegations = p.delegations := by
  unfold removeGhost
  split <;> rfl

/-- An entry without stake can go. -/
theorem Valid.removeGhost (h : p.Valid) (hi : p.stakes.get v = some i) (ha : i.amount = 0)
    (hd : i.delegatedAmount = 0) : (p.removeGhost v).Valid := by
  have hdel := removeGhost_delegations (p := p) (v := v)
  have hnone := h.delegations_none hi hd
  have hget : ∀ {w j}, (p.removeGhost v).stakes.get w = some j → w ≠ v ∧ p.stakes.get w = some j := by
    intro w j hj
    rw [removeGhost_stakes] at hj
    split at hj
    · simp at hj
    · exact ⟨by assumption, hj⟩
  have htot : (p.removeGhost v).totalStaked = p.totalStaked := by
    unfold StakePool.removeGhost
    rw [hi]
    show p.totalStaked - i.amount = p.totalStaked
    omega
  refine
    { totals := ?_, delegated := ?_, known := ?_, active := ?_, owned := ?_, carried := ?_
      fits := by rw [htot]; exact h.fits
      keyed := fun w j hj => h.keyed w j (hget hj).2
      bonded := fun w j hj => h.bonded w j (hget hj).2
      nonempty := by rw [hdel]; exact h.nonempty
      entries := by rw [hdel]; exact h.entries
      requests := ?_ }
  · have hsum := sumBy_remove p.stakes (fun _ i => i.amount + i.delegatedAmount) v
    rw [share_of_get hi] at hsum
    have hstakes : (p.removeGhost v).stakes = p.stakes.remove v := by
      unfold StakePool.removeGhost
      rw [hi]
    have htotals := h.totals
    grind [bondedTotal]
  · intro w j hj
    unfold delegatedTo delegationsOf
    rw [hdel]
    exact h.delegated w j (hget hj).2
  · intro w m hm
    rw [hdel] at hm
    obtain ⟨j, hj⟩ := h.known w m hm
    grind [removeGhost_stakes]
  · intro w j hj
    exact h.active w j (hget hj).2
  · intro w j hj hfp
    obtain ⟨hwv, hj⟩ := hget hj
    have hreg := h.owned w j hj hfp
    rw [removeGhost_registry hi, if_neg, hreg]
    rintro ⟨hne, heq⟩
    have hv := h.owned v i hi hne
    rw [← heq, hreg] at hv
    exact hwv (Option.some.inj hv)
  · intro f w hf
    rw [removeGhost_registry hi] at hf
    split at hf
    · simp at hf
    · obtain ⟨hf0, j, hj, hjf⟩ := h.carried f w hf
      grind [removeGhost_stakes]
  · grind [requests, StakePool.removeGhost]

variable {l : List Pubkey}

/-- The whole loop, on validators without self-bond and without delegations. -/
theorem Valid.removeGhosts (h : p.Valid) (hl : l.Nodup)
    (hidle : ∀ v ∈ l, ∃ i, p.stakes.get v = some i ∧ i.amount = 0 ∧ i.delegatedAmount = 0) :
    (l.foldl StakePool.removeGhost p).Valid := by
  induction l generalizing p with
  | nil => exact h
  | cons v l ih =>
    obtain ⟨i, hi, ha, hd⟩ := hidle v List.mem_cons_self
    grind [removeGhost, removeGhost_stakes]

theorem removeGhosts_stakes (w : Pubkey) :
    (l.foldl StakePool.removeGhost p).stakes.get w = if w ∈ l then none else p.stakes.get w := by
  induction l generalizing p with
  | nil => rfl
  | cons v l ih =>
    grind [removeGhost_stakes]

theorem removeGhosts_delegations :
    (l.foldl StakePool.removeGhost p).delegations = p.delegations := by
  induction l generalizing p with
  | nil => rfl
  | cons v l ih => rw [List.foldl_cons, ih, removeGhost_delegations]

theorem mem_ghosts :
    v ∈ p.ghosts slot grace ↔ ∃ i, p.stakes.get v = some i ∧ isGhost slot grace i = true := by
  simp [ghosts, mem_toList]

theorem ghosts_nodup (p : StakePool) (slot grace : Nat) : (p.ghosts slot grace).Nodup := by
  have hkeys : (p.stakes.toList.map Prod.fst).Nodup := by
    rw [toList_map_fst]
    exact p.stakes.keys_nodup
  exact hkeys.sublist (List.filter_sublist.map _)

theorem isGhost_amount (h : isGhost slot grace i = true) : i.amount = 0 := by
  simp only [isGhost, Bool.and_eq_true, decide_eq_true_eq] at h
  exact h.1.2

/-- **Which ghosts can go.**  A pool stays valid when the removed validators have no delegations
    left; one that has leaves its delegation map behind under an unknown key. -/
theorem Valid.removeGhostValidators (h : p.Valid)
    (hidle : ∀ v i, p.stakes.get v = some i → isGhost slot grace i = true →
      i.delegatedAmount = 0) : (p.removeGhostValidators slot grace).Valid := by
  refine h.removeGhosts (p.ghosts_nodup slot grace) fun v hv => ?_
  obtain ⟨i, hi, hg⟩ := mem_ghosts.mp hv
  exact ⟨i, hi, isGhost_amount hg, hidle v i hi hg⟩

theorem Valid.ghost_idle (h : p.Valid)
    (hl : (p.removeGhostValidators slot grace).Ledger) (hi : p.stakes.get v = some i)
    (hg : isGhost slot grace i = true) : i.delegatedAmount = 0 := by
  by_contra hd
  cases hm : p.delegations.get v with
  | none =>
    apply hd
    rw [h.delegated v i hi]
    unfold delegatedTo delegationsOf
    rw [hm]
    rfl
  | some m =>
    have hm' : (p.removeGhostValidators slot grace).delegations.get v = some m := by
      unfold StakePool.removeGhostValidators
      rw [removeGhosts_delegations, hm]
    obtain ⟨j, hj⟩ := hl.known v m hm'
    unfold StakePool.removeGhostValidators at hj
    rw [removeGhosts_stakes, if_pos (mem_ghosts.mpr ⟨i, hi, hg⟩)] at hj
    simp at hj

end StakePool
end Lichen.Staking
