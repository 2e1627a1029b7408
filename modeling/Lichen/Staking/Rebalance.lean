/-
  Replacing the MossStake allocations of a pool.

  `rebalance_mossstake_allocations` empties all allocations, writes the planned ones, checkpoints
  whom it touched and validates.  Here are the first two loops, over the pool.  `Reallocated p r moss`
  is the pool `p` with the allocations `moss` in place of its own, and each turn of a loop changes
  `moss` at one validator: `Valid.removeAll` and `Reallocated.addAll`.
-/
import Lichen.Staking.Allocation

open Base HashMap
namespace Lichen.Staking
open List
namespace StakePool
variable {p p' r : StakePool} {v : Pubkey} {i : StakeInfo} {moss : Pubkey → Nat} {n : Nat}

/-- The MossStake backing of a pool. -/
def mossBacking (p : StakePool) : Nat :=
  p.delegations.sumBy fun _ m => (m.get MOSSSTAKE_PROTOCOL_DELEGATOR).getD 0

theorem share_mossBacking (p : StakePool) (v : Pubkey) :
    p.delegations.share (fun _ m => (m.get MOSSSTAKE_PROTOCOL_DELEGATOR).getD 0) v = p.mossOf v := by
  unfold HashMap.share mossOf delegation
  cases p.delegations.get v <;> rfl

theorem mossBacking_eq (p : StakePool) : p.mossBacking = (p.delegations.keys.map p.mossOf).sum := by
  have hshare : p.mossBacking = p.delegations.sumBy fun v _ => p.mossOf v := by
    unfold mossBacking
    rw [sumBy_eq_share]
    exact sumBy_congr fun v _ _ => p.share_mossBacking v
  rw [hshare]
  exact sumBy_of_keys p.delegations.keys_nodup
    (fun v => (p.delegations.mem_keys_iff v).symm) p.mossOf

/-! ## One removal -/

theorem Valid.congr_delegations (h : p.Valid) (hs : p'.stakes = p.stakes)
    (ht : p'.totalStaked = p.totalStaked) (hr : p'.unstakeRequests = p.unstakeRequests)
    (hf : p'.fingerprintRegistry = p.fingerprintRegistry)
    (hd : ∀ w, p'.delegations.get w = p.delegations.get w) : p'.Valid := by
  have hto : ∀ w, p'.delegatedTo w = p.delegatedTo w := by
    intro w
    unfold delegatedTo delegationsOf
    rw [hd w]
  have htotal : p'.bondedTotal = p.bondedTotal := by
    unfold bondedTotal
    rw [hs]
  refine
    { totals := by rw [ht, htotal]; exact h.totals
      delegated := fun w j hj => by rw [hto]; exact h.delegated w j (hs ▸ hj)
      known := fun w m hm => by rw [hs]; exact h.known w m (hd w ▸ hm)
      active := fun w j hj => h.active w j (hs ▸ hj)
      owned := fun w j hj => by rw [hf]; exact h.owned w j (hs ▸ hj)
      carried := fun f w hw => by rw [hs]; exact h.carried f w (hf ▸ hw)
      fits := by rw [ht]; exact h.fits
      keyed := fun w j hj => h.keyed w j (hs ▸ hj)
      bonded := fun w j hj => h.bonded w j (hs ▸ hj)
      nonempty := fun w m hm => h.nonempty w m (hd w ▸ hm)
      entries := fun w m d a hm => h.entries w m d a (hd w ▸ hm)
      requests := fun w o r hreq => h.requests w o r (hr ▸ hreq) }

/-- The delegations that a removal writes. -/
def withoutMoss (p : StakePool) (v : Pubkey) : HashMap Pubkey (HashMap Pubkey Nat) :=
  if (((p.delegations.get v).getD ∅).remove MOSSSTAKE_PROTOCOL_DELEGATOR).isEmpty = true
  then p.delegations.remove v
  else p.delegations.put v (((p.delegations.get v).getD ∅).remove MOSSSTAKE_PROTOCOL_DELEGATOR)

theorem withoutMoss_eq (hpos : 0 < p.mossOf v) :
    p.withoutMoss v = p.withoutDelegation v MOSSSTAKE_PROTOCOL_DELEGATOR (p.mossOf v) := by
  obtain ⟨m, hm, hd⟩ := exists_entry_of_delegation_pos hpos
  simp_all [withoutDelegation_eq, withoutMoss, lessEntry, mossOf]

theorem Valid.withoutMoss_get (h : p.Valid) (hzero : p.mossOf v = 0) (w : Pubkey) :
    (p.withoutMoss v).get w = p.delegations.get w := by
  have hnone : ((p.delegations.get v).getD ∅).get MOSSSTAKE_PROTOCOL_DELEGATOR = none := by
    cases hget : ((p.delegations.get v).getD ∅).get MOSSSTAKE_PROTOCOL_DELEGATOR with
    | none => rfl
    | some n =>
      have hpos := (h.delegationsOf_entry hget).2
      grind [mossOf, delegation_eq, delegationsOf]
  unfold withoutMoss
  rw [remove_of_none hnone]
  by_cases hw : w = v
  · subst hw
    cases hm : p.delegations.get w with
    | none =>
      simp only [Option.getD_none]
      split
      · exact get_remove_self _ _
      · rename_i hempty
        exact absurd rfl hempty
    | some m =>
      rw [Option.getD_some, if_neg (by rw [h.nonempty w m hm]; simp), get_put_self]
  · grind

/-- What one removal leaves, and that there is always one. -/
structure Removed (p p' : StakePool) (v : Pubkey) : Prop where
  valid : p'.Valid
  epoch : p'.stakingV2State = p.stakingV2State
  total : p'.totalStaked + p.mossOf v = p.totalStaked
  others : ∀ w, w ≠ v ∨ p.mossOf v = 0 →
    p'.stakes.get w = p.stakes.get w ∧ p'.delegations.get w = p.delegations.get w
  entry : 0 < p.mossOf v → p'.stakes.get v = (p.stakes.get v).map (shed (p.mossOf v))
  emptied : p'.mossOf v = 0

/-- The MossStake line of a validator can be removed. -/
theorem Valid.removed (h : p.Valid)
    (v : Pubkey) : ∃ p', p.removeMoss v = .ok p' ∧ Removed p p' v := by
  have hmoss : p.delegation v MOSSSTAKE_PROTOCOL_DELEGATOR = p.mossOf v := rfl
  by_cases hpos : 0 < p.mossOf v
  · obtain ⟨m, hm, -⟩ := exists_entry_of_delegation_pos hpos
    obtain ⟨i, hi⟩ := h.known v m hm
    have hle := h.mossOf_le hi
    have hshare := h.share_le hi
    obtain ⟨p', hp'⟩ : ∃ p' : StakePool, p' = { p with
        stakes := p.stakes.put v (shed (p.mossOf v) i)
        totalStaked := p.totalStaked - p.mossOf v
        delegations := p.withoutMoss v } := ⟨_, rfl⟩
    have hok : p.removeMoss v = .ok p' := by
      simp only [removeMoss, hmoss, hpos, if_true, ok_rules]
      exact ⟨i, hi, _, ⟨hle, rfl⟩, _, ⟨by omega, rfl⟩, hp'.symm⟩
    have hs : p'.stakes = p.stakes.put v (shed (p.mossOf v) i) := by rw [hp']
    have ht : p'.totalStaked = p.totalStaked - p.mossOf v := by rw [hp']
    have hdel : p'.delegations = p.withoutDelegation v MOSSSTAKE_PROTOCOL_DELEGATOR (p.mossOf v) := by
      rw [hp']
      exact withoutMoss_eq hpos
    have hless := h.lessDelegation hpos (le_refl _) hdel
    have hfits := h.fits
    refine ⟨p', hok, ?_, by rw [hp'], by omega, ?_, ?_, ?_⟩
    · refine h.setEntry hi hs rfl (h.bonded v i hi) StakeInfo.minimum_of_refresh_active
        (by rw [hp']) rfl ?_ (by omega) hless.others ?_ hless.ok
        (h.requests_kept (by rw [hp']))
      · show p'.totalStaked + (i.amount + i.delegatedAmount)
          = p.totalStaked + (i.amount + (i.delegatedAmount - p.mossOf v))
        omega
      · have hsum := hless.total
        rw [← h.delegated v i hi] at hsum
        show i.delegatedAmount - p.mossOf v = _
        omega
    · grind [LessDelegation.others]
    · intro _
      rw [hs, get_put_self, hi]
      rfl
    · grind [LessDelegation.entry, mossOf]
  · have hzero : p.mossOf v = 0 := Nat.eq_zero_of_not_pos hpos
    have hok : p.removeMoss v = .ok { p with delegations := p.withoutMoss v } := by
      simp only [removeMoss, hmoss, hpos, if_false]
      rfl
    have hget : ∀ w, ({ p with delegations := p.withoutMoss v } : StakePool).delegations.get w
        = p.delegations.get w := h.withoutMoss_get hzero
    refine ⟨_, hok, h.congr_delegations rfl rfl rfl rfl hget, rfl, ?_, fun w _ => ⟨rfl, hget w⟩,
      fun hlt => absurd hlt hpos, ?_⟩
    · show p.totalStaked + p.mossOf v = p.totalStaked
      omega
    · unfold mossOf delegation
      rw [hget v]
      exact hzero

/-! ## One addition -/

/-- An entry that gains `amount` of delegations; its activity is recomputed. -/
def gain (amount : Nat) (i : StakeInfo) : StakeInfo :=
  ({ i with delegatedAmount := i.delegatedAmount + amount } : StakeInfo).refresh

/-- What one addition leaves. -/
structure Added (p p' : StakePool) (v : Pubkey) (n : Nat) : Prop where
  valid : p'.Valid
  epoch : p'.stakingV2State = p.stakingV2State
  total : p'.totalStaked = p.totalStaked + n
  others : ∀ w, w ≠ v →
    p'.stakes.get w = p.stakes.get w ∧ p'.delegations.get w = p.delegations.get w
  entry : p'.stakes.get v = (p.stakes.get v).map (gain n)
  backed : p'.mossOf v = n

theorem Valid.added (h : p.Valid) (hi : p.stakes.get v = some i) (hzero : p.mossOf v = 0)
    (hpos : 0 < n) (hv : v ≠ MOSSSTAKE_PROTOCOL_DELEGATOR) (hfit : p.totalStaked + n < 2 ^ 64) :
    ∃ p', p.addMoss (v, n) = .ok p' ∧ Added p p' v n := by
  have hshare := h.share_le hi
  obtain ⟨p', hp'⟩ : ∃ p' : StakePool, p' = { p with
      stakes := p.stakes.put v (gain n i)
      totalStaked := p.totalStaked + n
      delegations := p.delegations.put v
        ((p.delegationsOf v).put MOSSSTAKE_PROTOCOL_DELEGATOR n) } := ⟨_, rfl⟩
  have hok : p.addMoss (v, n) = .ok p' := by
    unfold addMoss
    simp only [ok_rules]
    exact ⟨i, hi, _, ⟨by omega, rfl⟩, _, ⟨hfit, rfl⟩, hp'.symm⟩
  have hs : p'.stakes = p.stakes.put v (gain n i) := by rw [hp']
  have ht : p'.totalStaked = p.totalStaked + n := by rw [hp']
  have hdel : p'.delegations = p.delegations.put v ((p.delegationsOf v).put
      MOSSSTAKE_PROTOCOL_DELEGATOR (p.delegation v MOSSSTAKE_PROTOCOL_DELEGATOR + n)) := by
    have hmoss : p.delegation v MOSSSTAKE_PROTOCOL_DELEGATOR = 0 := hzero
    rw [hp', hmoss, zero_add]
  have hmore := h.moreDelegation hpos (Ne.symm hv) hdel
  refine ⟨p', hok, ?_, by rw [hp'], ht, ?_, ?_, ?_⟩
  · refine h.setEntry hi hs rfl (h.bonded v i hi) StakeInfo.minimum_of_refresh_active
      (by rw [hp']) rfl ?_ (by omega) hmore.others ?_ hmore.ok
      (h.requests_kept (by rw [hp']))
    · show p'.totalStaked + (i.amount + i.delegatedAmount)
        = p.totalStaked + (i.amount + (i.delegatedAmount + n))
      omega
    · rw [hmore.total, ← h.delegated v i hi]
      rfl
  · grind
  · rw [hs, get_put_self, hi]
    rfl
  · grind [MoreDelegation.entry, mossOf]

/-! ## The two loops -/

/-- The pool `r` is `p` with the MossStake allocations `moss` in place of its own. -/
structure Reallocated (p r : StakePool) (moss : Pubkey → Nat) : Prop where
  valid : r.Valid
  epoch : r.stakingV2State = p.stakingV2State
  entry : ∀ v i, p.stakes.get v = some i → ∃ i', r.stakes.get v = some i' ∧ i'.amount = i.amount
    ∧ i'.blocksProduced = i.blocksProduced
    ∧ i'.delegatedAmount + p.mossOf v = i.delegatedAmount + moss v
  known : ∀ v i', r.stakes.get v = some i' → ∃ i, p.stakes.get v = some i
  backing : ∀ v, r.mossOf v = moss v
  untouched : ∀ v, p.mossOf v = 0 → moss v = 0 →
    r.stakes.get v = p.stakes.get v ∧ r.delegations.get v = p.delegations.get v

theorem Valid.reallocated (h : p.Valid) : p.Reallocated p p.mossOf :=
  ⟨h, rfl, fun _ i hi => ⟨i, hi, rfl, rfl, rfl⟩, fun _ i hi => ⟨i, hi⟩, fun _ => rfl,
    fun _ _ _ => ⟨rfl, rfl⟩⟩

theorem Removed.mossOf (h : Removed p p' v) (w : Pubkey) :
    p'.mossOf w = if w = v then 0 else p.mossOf w := by
  split
  · rename_i hw
    rw [hw]
    exact h.emptied
  · rename_i hw
    unfold StakePool.mossOf delegation
    rw [(h.others w (Or.inl hw)).2]

/-- One removal in a rebalance. -/
theorem Reallocated.remove (h : p.Reallocated q moss) (hv : moss v = p.mossOf v)
    (hq : Removed q r v) : p.Reallocated r fun w => if w = v then 0 else moss w := by
  have hback : q.mossOf v = p.mossOf v := (h.backing v).trans hv
  refine ⟨hq.valid, hq.epoch.trans h.epoch, ?_, ?_, ?_, ?_⟩
  · intro w i hi
    obtain ⟨j, hj, hamt, hblk, hdel⟩ := h.entry w i hi
    by_cases hw : w = v
    · subst hw
      rw [if_pos rfl]
      by_cases hpos : 0 < q.mossOf w
      · have hle := h.valid.mossOf_le hj
        refine ⟨shed (q.mossOf w) j, by rw [hq.entry hpos, hj]; rfl, hamt, hblk, ?_⟩
        show j.delegatedAmount - q.mossOf w + p.mossOf w = i.delegatedAmount + 0
        omega
      · grind [Removed.others]
    · grind [Removed.others]
  · intro w j hj
    by_cases hw : w = v ∧ 0 < q.mossOf v
    · obtain ⟨rfl, hpos⟩ := hw
      rw [hq.entry hpos, Option.map_eq_some_iff] at hj
      grind [known]
    · have hout : w ≠ v ∨ q.mossOf v = 0 := by
        by_cases hwv : w = v
        · exact .inr (Nat.eq_zero_of_not_pos fun hpos => hw ⟨hwv, hpos⟩)
        · exact .inl hwv
      rw [(hq.others w hout).1] at hj
      exact h.known w j hj
  · intro w
    rw [hq.mossOf w]
    split
    · rfl
    · exact h.backing w
  · intro w hzero _
    have hout : w ≠ v ∨ q.mossOf v = 0 := by
      by_cases hwv : w = v
      · exact .inr (by rw [hback, ← hwv]; exact hzero)
      · exact .inl hwv
    obtain ⟨hs, hd⟩ := hq.others w hout
    grind [untouched]

/-- **All allocations out.** -/
theorem Valid.removeAll (h : p.Valid) :
    ∃ q, tryFold removeMoss p p.delegations.keys = .ok q ∧ p.Reallocated q (fun _ => 0)
      ∧ q.totalStaked + p.mossBacking = p.totalStaked := by
  -- the validators still to come keep their allocation, the others have none
  let P : StakePool → List Pubkey → Prop := fun b rest => rest.Nodup
    ∧ p.Reallocated b (fun w => if w ∈ rest then p.mossOf w else 0)
    ∧ b.totalStaked + p.mossBacking = p.totalStaked + (rest.map p.mossOf).sum
  have hstep : ∀ b v rest, P b (v :: rest) → ∃ b', b.removeMoss v = .ok b' ∧ P b' rest := by
    rintro b v rest ⟨hnd, hb, htotal⟩
    obtain ⟨hv, hnd⟩ := nodup_cons.mp hnd
    obtain ⟨b', hok, hrem⟩ := hb.valid.removed v
    have hnew := hb.remove (v := v) (by simp) hrem
    have hmoss : (fun w => if w = v then 0 else if w ∈ v :: rest then p.mossOf w else 0)
        = fun w => if w ∈ rest then p.mossOf w else 0 := by
      funext w
      by_cases hw : w = v
      · subst hw
        simp [hv]
      · simp [hw]
    rw [hmoss] at hnew
    refine ⟨b', hok, hnd, hnew, ?_⟩
    have hback := hb.backing v
    have hrtotal := hrem.total
    rw [if_pos mem_cons_self] at hback
    rw [map_cons, sum_cons] at htotal
    omega
  have hstart : P p p.delegations.keys := by
    refine ⟨p.delegations.keys_nodup, ?_, by rw [p.mossBacking_eq]⟩
    have hmoss : (fun w => if w ∈ p.delegations.keys then p.mossOf w else 0) = p.mossOf := by
      funext w
      split
      · rfl
      · rename_i hw
        exact (mossOf_eq_zero hw).symm
    rw [hmoss]
    exact h.reallocated
  obtain ⟨q, hq, -, hreal, htotal⟩ := tryFold_total hstep hstart
  refine ⟨q, hq, ?_, ?_⟩
  · simpa using hreal
  · simpa using htotal

theorem Reallocated.add (h : p.Reallocated q moss) (hv : moss v = 0) (hpos : 0 < n)
    (hq : Added q r v n) : p.Reallocated r fun w => if w = v then n else moss w := by
  refine ⟨hq.valid, hq.epoch.trans h.epoch, ?_, ?_, ?_, ?_⟩
  · intro w i hi
    obtain ⟨j, hj, hamt, hblk, hdel⟩ := h.entry w i hi
    by_cases hw : w = v
    · subst hw
      rw [if_pos rfl]
      refine ⟨gain n j, by rw [hq.entry, hj]; rfl, hamt, hblk, ?_⟩
      show j.delegatedAmount + n + p.mossOf w = i.delegatedAmount + n
      omega
    · grind [Added.others]
  · intro w j hj
    by_cases hw : w = v
    · subst hw
      rw [hq.entry, Option.map_eq_some_iff] at hj
      grind [known]
    · rw [(hq.others w hw).1] at hj
      exact h.known w j hj
  · intro w
    split
    · rename_i hw
      rw [hw]
      exact hq.backed
    · rename_i hw
      rw [← h.backing w]
      unfold StakePool.mossOf delegation
      rw [(hq.others w hw).2]
  · intro w _ hnew
    have hw : w ≠ v := by
      intro hwv
      rw [if_pos hwv] at hnew
      omega
    obtain ⟨hs, hd⟩ := hq.others w hw
    grind [untouched]

/-- **All planned allocations in.** -/
theorem Reallocated.addAll (h : p.Reallocated q fun _ => 0)
    (hpos : ∀ v n, a.get v = some n → 0 < n) (hknown : ∀ v n, a.get v = some n →
      v ≠ MOSSSTAKE_PROTOCOL_DELEGATOR ∧ ∃ i, p.stakes.get v = some i)
    (hfit : q.totalStaked + allotted a < 2 ^ 64) :
    ∃ r, tryFold addMoss q (sortedEntries a) = .ok r
      ∧ p.Reallocated r (fun w => (a.get w).getD 0) := by
  -- the entries still to come are not yet there
  let P : StakePool → List (Pubkey × Nat) → Prop := fun b rest => (rest.map Prod.fst).Nodup
    ∧ (∀ e ∈ rest, a.get e.1 = some e.2)
    ∧ p.Reallocated b (fun w => if w ∈ rest.map Prod.fst then 0 else (a.get w).getD 0)
    ∧ b.totalStaked + (rest.map Prod.snd).sum < 2 ^ 64
  have hstep : ∀ b e rest, P b (e :: rest) → ∃ b', b.addMoss e = .ok b' ∧ P b' rest := by
    rintro b ⟨v, n⟩ rest ⟨hnd, hget, hb, hroom⟩
    rw [map_cons, nodup_cons] at hnd
    rw [map_cons, sum_cons] at hroom
    have hv : a.get v = some n := hget (v, n) mem_cons_self
    obtain ⟨hmoss, i, hi⟩ := hknown v n hv
    obtain ⟨j, hj, -⟩ := hb.entry v i hi
    have hzero : (if v ∈ ((v, n) :: rest).map Prod.fst then 0 else (a.get v).getD 0) = 0 := by simp
    have hback : b.mossOf v = 0 := (hb.backing v).trans hzero
    have hroom' : b.totalStaked + n < 2 ^ 64 := by omega
    obtain ⟨b', hok, hadd⟩ := hb.valid.added hj hback (hpos v n hv) hmoss hroom'
    have hnew := hb.add hzero (hpos v n hv) hadd
    have hform : (fun w => if w = v then n
        else if w ∈ ((v, n) :: rest).map Prod.fst then 0 else (a.get w).getD 0)
        = fun w => if w ∈ rest.map Prod.fst then 0 else (a.get w).getD 0 := by
      funext w
      by_cases hw : w = v
      · grind
      · grind
    rw [hform] at hnew
    refine ⟨b', hok, hnd.2, fun e he => hget e (mem_cons_of_mem _ he), hnew, ?_⟩
    have htotal := hadd.total
    omega
  have hstart : P q (sortedEntries a) := by
    refine ⟨nodup_sortedEntries a, fun e he => mem_sortedEntries.mp he, ?_, ?_⟩
    · have hform : (fun w => if w ∈ (sortedEntries a).map Prod.fst then 0 else (a.get w).getD 0)
          = fun _ => 0 := by
        funext w
        split
        · rfl
        · rename_i hw
          cases hget : a.get w with
          | none => rfl
          | some n =>
            exact absurd (mem_map.mpr ⟨(w, n), mem_sortedEntries.mpr hget, rfl⟩) hw
      rw [hform]
      exact h
    · rw [sum_sortedEntries a Prod.snd]
      exact hfit
  obtain ⟨r, hr, -, -, hreal, -⟩ := tryFold_total hstep hstart
  refine ⟨r, hr, ?_⟩
  simpa using hreal

/-- Additions that all succeed fit the network total. -/
theorem addMoss_total (hq : q.totalStaked < 2 ^ 64)
    (h : tryFold addMoss q l = .ok r) : q.totalStaked + (l.map Prod.snd).sum < 2 ^ 64 := by
  let P : StakePool → List (Pubkey × Nat) → Prop := fun b rest => b.totalStaked < 2 ^ 64
    ∧ b.totalStaked + (rest.map Prod.snd).sum = q.totalStaked + (l.map Prod.snd).sum
  have hstep : ∀ b e rest b', P b (e :: rest) → b.addMoss e = .ok b' → P b' rest := by
    rintro b e rest b' ⟨-, hsum⟩ hb'
    unfold addMoss at hb'
    simp only [ok_rules] at hb'
    obtain ⟨i, -, d, -, t, ⟨hlt, rfl⟩, rfl⟩ := hb'
    rw [map_cons, sum_cons] at hsum
    exact ⟨hlt, by show b.totalStaked + e.2 + _ = _; omega⟩
  obtain ⟨hlt, hsum⟩ := tryFold_rest hstep (show P q l from ⟨hq, rfl⟩) h
  grind

end StakePool
end Lichen.Staking
