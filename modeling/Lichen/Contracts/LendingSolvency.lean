/-
  Whether ThallLend can pay everybody.

  The totals are kept exactly: what the pool holds and what is borrowed covers what is deposited and
  reserved, through every call (`Sound.books`).  The deposits behind the total are covered by it,
  because the deposit index only ever grows by its part of the interest (`Sound.deposits`, in exact
  arithmetic).  What is missing is the borrowers' side.  The borrow index has nine decimals, so a
  debt above `10 ^ 9` spores accrues interest into the total that its index does not show: the total
  and the reserves grow by amounts that nobody owes.
-/
import Lichen.Base.LazyIndex
import Lichen.Contracts.ThallLend

open Base U64
namespace Lichen.ThallLend
open Account

/-! ## Accounts -/

namespace Account

def depositClaim (a : Account) : Claim := ⟨a.deposit, a.effectiveDepositIndex⟩

theorem depositClaim_of_index {a : Account} (hpos : 0 < index)
    (h : a.depositIndex = index) : a.depositClaim = ⟨a.deposit, index⟩ := by
  unfold depositClaim effectiveDepositIndex
  rw [h, if_neg (pos_iff_ne_zero.mp hpos)]

theorem computeCurrentDeposit_le (a : Account) (index : Nat) : a.computeCurrentDeposit index
      ≤ a.depositClaim.stored * index / a.depositClaim.checkpoint := by
  unfold computeCurrentDeposit
  split
  · exact Nat.zero_le _
  · exact min_le_left _ _

/-- A settled deposit is worth no more than the claim it settles, and leaves the debt alone. -/
theorem settleUserDeposit_spec (a : Account) (hpos : 0 < index) :
    ∃ v a', a.settleUserDeposit index = (v, a') ∧ (v : ℚ) ≤ a.depositClaim.units * index
      ∧ a'.borrow = a.borrow ∧ a'.borrowIndex = a.borrowIndex := by
  unfold settleUserDeposit
  split
  · refine ⟨_, _, rfl, ?_, rfl, rfl⟩
    exact mul_nonneg a.depositClaim.units_nonneg (Nat.cast_nonneg _)
  · split
    · grind [depositClaim, Claim.units_mul_checkpoint]
    · refine ⟨_, _, rfl, ?_, rfl, rfl⟩
      refine le_trans (Nat.cast_le.mpr (min_le_left _ _)) ?_
      exact a.depositClaim.div_le_units index

/-- The index a debt is as of does not depend on the rest of the account. -/
theorem effectiveBorrowIndex_congr {a b : Account} (h : a.borrowIndex = b.borrowIndex) :
    a.effectiveBorrowIndex = b.effectiveBorrowIndex := by
  unfold effectiveBorrowIndex
  rw [h]

/-- A debt as of the index itself. -/
theorem computeCurrentBorrow_of_index {a : Account} (hpos : 0 < index)
    (hlt : a.borrow < 2 ^ 64) (h : a.effectiveBorrowIndex = index) :
    a.computeCurrentBorrow index = a.borrow := by
  unfold computeCurrentBorrow u128ToU64Saturating
  rw [if_neg (pos_iff_ne_zero.mp hpos), h, Nat.mul_div_cancel _ hpos]
  have hmin : min a.borrow U64.MAX = a.borrow := min_eq_left (Nat.le_sub_one_of_lt hlt)
  rw [hmin]
  split
  · rename_i hzero
    exact hzero.symm
  · rfl

/-- Settling a debt does not change what is owed, and leaves the deposit alone. -/
theorem settleUserBorrow_spec (a : Account) (hpos : 0 < index) (hlt : a.borrow < 2 ^ 64) :
    ∃ v a', a.settleUserBorrow index = (v, a') ∧ v = a.computeCurrentBorrow index ∧ v < 2 ^ 64
      ∧ a'.depositClaim = a.depositClaim ∧ (v ≠ 0 → a'.effectiveBorrowIndex = index) := by
  unfold settleUserBorrow
  rw [if_neg (pos_iff_ne_zero.mp hpos)]
  split
  · grind [computeCurrentBorrow]
  · split
    · grind [computeCurrentBorrow_of_index]
    · refine ⟨_, _, rfl, ?_, ?_, rfl, ?_⟩
      · grind [computeCurrentBorrow]
      · simp [u128ToU64Saturating, effectiveBorrowIndex, U64.MAX]
      · grind [effectiveBorrowIndex]

end Account

/-! ## The invariant -/

/-- The pool with `extra` that has come in and is not booked yet. -/
structure Sound (p : Pool) (extra : Nat) : Prop where
  borrowIndex_pos : 0 < p.borrowIndex
  books : p.totalDeposits + p.reserves + extra ≤ p.held + p.totalBorrows
  deposits : p.accounts.units Account.depositClaim * p.currentDepositIndex ≤ (p.totalDeposits : ℚ)
  debts : p.totalBorrows ≤ p.currentBorrows
  stored : ∀ k a, p.accounts.get k = some a → a.borrow < 2 ^ 64
  unset : p.licn = none → p.held = 0

namespace Pool

theorem currentDepositIndex_pos (p : Pool) : 0 < p.currentDepositIndex := by
  unfold currentDepositIndex
  split
  · decide
  · omega

/-- The units of the account a user has or would have. -/
theorem units_account (p : Pool) (user : Pubkey) :
    ((p.accounts.get user).map fun a => a.depositClaim.units).getD 0
      = (p.account user).depositClaim.units := by
  unfold account
  cases p.accounts.get user with
  | some a => rfl
  | none => simp [empty, depositClaim, Claim.units]

theorem share_account (p : Pool) (user : Pubkey) (index : Nat) :
    p.accounts.share (fun _ a => a.computeCurrentBorrow index) user
      = (p.account user).computeCurrentBorrow index := by
  unfold account HashMap.share
  cases p.accounts.get user with
  | some a => rfl
  | none => simp [empty, computeCurrentBorrow]

end Pool

variable {p : Pool}

theorem Sound.account_lt (h : Sound p extra) (user : Pubkey) :
    (p.account user).borrow < 2 ^ 64 := by
  unfold Pool.account
  cases hget : p.accounts.get user with
  | some a => exact h.stored user a hget
  | none => exact Nat.two_pow_pos 64

theorem Sound.mono (h : Sound p extra) (hle : less ≤ extra) : Sound p less := by
  have hbooks := h.books
  exact { h with books := by omega }

/-- The deposits are covered. -/
theorem Sound.currentDeposits_le (h : Sound p extra) : p.currentDeposits ≤ p.totalDeposits := by
  have hsum : ((p.currentDeposits : Nat) : ℚ)
      ≤ p.accounts.units depositClaim * p.currentDepositIndex :=
    sumBy_le_units fun _ a => a.computeCurrentDeposit_le p.currentDepositIndex
  exact Nat.cast_le.mp (le_trans hsum h.deposits)

/-- **Replacing one account**, with the totals that go with it.  `x` is what leaves the deposit and
    `y` what enters it; the totals follow, and the books are given. -/
theorem Sound.replace (h : Sound p extra) {user : Pubkey}
    {a : Account} {totalDeposits totalBorrows held : Nat} {x y : Nat}
    (hdeposit : a.depositClaim.units * p.currentDepositIndex + x
      ≤ (p.account user).depositClaim.units * p.currentDepositIndex + y)
    (htotal : p.totalDeposits + y = totalDeposits + x)
    (hborrow : totalBorrows + (p.account user).computeCurrentBorrow p.borrowIndex
      ≤ p.totalBorrows + a.computeCurrentBorrow p.borrowIndex)
    (hlt : a.borrow < 2 ^ 64) (hset : p.licn ≠ none)
    (hbooks : totalDeposits + p.reserves + extra' ≤ held + totalBorrows) :
    Sound { p with accounts := p.accounts.put user a, totalDeposits, totalBorrows, held } extra' := by
  refine ⟨h.borrowIndex_pos, hbooks, ?_, ?_, ?_, fun hnone => absurd hnone hset⟩
  · have hput : (p.accounts.put user a).units depositClaim * p.currentDepositIndex + x
        ≤ p.accounts.units depositClaim * p.currentDepositIndex + y :=
      units_put_le (by rw [p.units_account user]; exact hdeposit)
    have hold := h.deposits
    have hcast : (p.totalDeposits : ℚ) + y = totalDeposits + x := by exact_mod_cast htotal
    have hgoal : (p.accounts.put user a).units depositClaim * p.currentDepositIndex
        ≤ (totalDeposits : ℚ) := by linarith
    exact hgoal
  · have hsum := HashMap.sumBy_put p.accounts
      (fun _ a => a.computeCurrentBorrow p.borrowIndex) user a
    grind [Pool.share_account, debts, Pool.currentBorrows]
  · exact HashMap.forall_put h.stored hlt

/-! ## Interest -/

/-- If interest is due, the debts at the index it leads to cover what the pool will say is
    borrowed. -/
def DebtsKeepUp (p : Pool) (now : Nat) : Prop :=
  let rate := currentRatePerSlot p.totalDeposits p.totalBorrows
  let elapsed := now - p.lastUpdate
  p.totalDeposits ≠ 0 → growth p.totalBorrows rate elapsed ≠ 0 →
    p.totalBorrows + growth p.totalBorrows rate elapsed
      ≤ p.accounts.sumBy fun _ a =>
          a.computeCurrentBorrow (p.borrowIndex + growth p.borrowIndex rate elapsed)

theorem Sound.bookInterest {rate elapsed interest : Nat} (h : Sound p extra)
    (htotal : p.totalDeposits ≠ 0) (hkeep : p.totalBorrows + interest ≤ p.accounts.sumBy fun _ a =>
      a.computeCurrentBorrow (p.borrowIndex + growth p.borrowIndex rate elapsed))
    (hbook : p.bookInterest rate elapsed interest = some p') : Sound p' extra := by
  unfold Pool.bookInterest at hbook
  simp only [Option.bind_eq_bind, Option.bind_eq_some_iff, checkedAdd_eq_some,
    Option.some.injEq] at hbook
  obtain ⟨_, ⟨_, rfl⟩, _, ⟨_, rfl⟩, _, ⟨_, rfl⟩, _, ⟨_, rfl⟩, _, ⟨_, rfl⟩, rfl⟩ := hbook
  have hreserve : min (u128ToU64Saturating (interest * p.reserveFactor / 100)) interest ≤ interest :=
    min_le_right _ _
  generalize min (u128ToU64Saturating (interest * p.reserveFactor / 100)) interest = reserve at *
  have hindex := p.currentDepositIndex_pos
  have hbooks := h.books
  have hborrow := h.borrowIndex_pos
  refine ⟨by simp only; omega, by simp only; omega, ?_, hkeep, h.stored, h.unset⟩
  have hgrow := @units_grow_le _ p.currentDepositIndex
    (u128ToU64Saturating (p.currentDepositIndex * (interest - reserve) / p.totalDeposits))
    p.totalDeposits (interest - reserve) (units_nonneg p.accounts depositClaim) h.deposits
    (pos_iff_ne_zero.mpr htotal) (min_le_left _ _)
  refine (congrArg (fun index : Nat => p.accounts.units depositClaim * (index : ℚ))
    (if_neg (pos_iff_ne_zero.mp ?_))).trans_le hgrow
  simp only
  omega

/-- What is booked beside the deposits. -/
theorem bookInterest_eq_some (h : p.bookInterest rate elapsed interest = some p') :
    p'.totalBorrows = p.totalBorrows + interest
      ∧ p'.borrowIndex = p.borrowIndex + growth p.borrowIndex rate elapsed
      ∧ p'.accounts = p.accounts ∧ p'.licn = p.licn ∧ p.totalDeposits ≤ p'.totalDeposits := by
  unfold Pool.bookInterest at h
  simp only [Option.bind_eq_bind, Option.bind_eq_some_iff, Option.some.injEq, ok_rules] at h
  obtain ⟨_, ⟨-, rfl⟩, _, ⟨-, rfl⟩, _, _, _, ⟨-, rfl⟩, _, _, rfl⟩ := h
  exact ⟨rfl, rfl, rfl, rfl, Nat.le_add_right _ _⟩

/-- **What an accrual does**: nothing, take note of the slot, or book the interest. -/
theorem accrueInterest_cases (p : Pool) (now : Nat) :
    let rate := currentRatePerSlot p.totalDeposits p.totalBorrows
    let interest := growth p.totalBorrows rate (now - p.lastUpdate)
    p.accrueInterest now = p ∨ p.accrueInterest now = { p with lastUpdate := now }
      ∨ p.totalDeposits ≠ 0 ∧ interest ≠ 0
        ∧ ∃ q, p.bookInterest rate (now - p.lastUpdate) interest = some q
          ∧ p.accrueInterest now = { q with lastUpdate := now } := by
  unfold Pool.accrueInterest
  split
  · exact .inl rfl
  · split
    · exact .inr (.inl rfl)
    · rename_i hsome
      simp only
      split
      · exact .inr (.inl rfl)
      · rename_i hinterest
        split
        · exact .inl rfl
        · rename_i q hbook
          exact .inr (.inr ⟨fun h0 => hsome (.inr h0), hinterest, q, hbook, rfl⟩)

theorem Sound.accrueInterest (h : Sound p extra)
    (hkeep : DebtsKeepUp p now) : Sound (p.accrueInterest now) extra := by
  rcases accrueInterest_cases p now with heq | heq | ⟨htotal, hinterest, q, hbook, heq⟩
  · rw [heq]
    exact h
  · rw [heq]
    exact { h with }
  · rw [heq]
    exact { h.bookInterest htotal (hkeep htotal hinterest) hbook with }

/-- Accrual does not touch the token. -/
theorem accrueInterest_licn (p : Pool) (now : Nat) : (p.accrueInterest now).licn = p.licn := by
  rcases accrueInterest_cases p now with heq | heq | ⟨-, -, q, hbook, heq⟩
  · rw [heq]
  · rw [heq]
  · rw [heq]
    exact (bookInterest_eq_some hbook).2.2.2.1

/-! ## Token movements -/

/-- The native value a call has brought. -/
def spare (p : Pool) (c : Context) : Nat := if p.licn = some .native then c.value else 0

variable {c : Context}

theorem Sound.credit (h : Sound p 0) : Sound (p.credit c) (spare (p.credit c) c) := by
  unfold Pool.credit
  split
  · rename_i hnative
    have hbooks := h.books
    refine ⟨h.borrowIndex_pos, ?_, h.deposits, h.debts, h.stored, fun hnone => ?_⟩
    · unfold spare
      simp only [hnative, if_true]
      omega
    · grind
  · grind [spare]

theorem transferOut_eq_ok (h : p.transferOut c amount = .ok p') :
    p.licn ≠ none ∧ amount ≤ p.held ∧ p' = { p with held := p.held - amount } := by
  grind [Pool.transferOut]

/-- What is received can be booked. -/
theorem Sound.receive (h : Sound p (spare p c)) (hreceive : p.receiveLicnIn c amount = some p') :
    p' = { p with held := p'.held } ∧ p.licn ≠ none ∧ Sound p' amount := by
  have hbooks := h.books
  have hkeep : ∀ held, p.licn ≠ none → p.totalDeposits + p.reserves + amount
      ≤ held + p.totalBorrows → Sound { p with held } amount := fun held hset hb =>
    { h with books := hb, unset := fun hnone => absurd hnone hset }
  unfold spare at hbooks
  unfold Pool.receiveLicnIn at hreceive
  split at hreceive
  · exact absurd hreceive (by simp)
  · grind
  · rename_i hlicn
    have hset : p.licn ≠ none := by rw [hlicn]; simp
    rw [if_pos hlicn] at hbooks
    split at hreceive
    · exact absurd hreceive (by simp)
    · split at hreceive
      · cases hreceive
        exact ⟨rfl, hset, hkeep p.held hset (by omega)⟩
      · obtain ⟨_, -, rfl⟩ := transferOut_eq_ok (toOption_eq_some.mp hreceive)
        exact ⟨rfl, hset, hkeep _ hset (by omega)⟩

/-! ## Entry points -/

section
variable {c : Context}

theorem spare_accrueInterest (p : Pool) (c : Context) :
    spare (p.accrueInterest c.slot) c = spare p c := by
  unfold spare
  rw [accrueInterest_licn]

/-- The search ends on a repayment whose collateral is there. -/
theorem searchRepay_fits :
    ∀ {fuel low high : Nat}, (∃ seized, liquidationCollateral low = some seized
        ∧ seized ≤ collateral) →
      ∃ seized, liquidationCollateral (searchRepay collateral fuel low high) = some seized
        ∧ seized ≤ collateral := by
  intro fuel
  induction fuel with
  | zero => exact fun hlow => hlow
  | succ fuel ih =>
    intro low _ hlow
    unfold searchRepay
    split
    · simp only
      split
      · rename_i seized hmid
        split
        · rename_i hle
          exact ih ⟨seized, hmid, hle⟩
        · exact ih hlow
      · exact ih hlow
    · exact hlow

theorem liquidationCollateral_mono (hle : n ≤ m) (hn : liquidationCollateral n = some seized)
    (hm : liquidationCollateral m = some seized') : seized ≤ seized' := by
  grind [liquidationCollateral, LIQUIDATION_BONUS_PERCENT]

/-- What a liquidator seizes is there. -/
theorem seized_le (hle : repay ≤ maxRepayForCollateral collateral)
    (h : liquidationCollateral repay = some seized) : seized ≤ collateral := by
  obtain ⟨most, hmost, hfits⟩ := @searchRepay_fits collateral 64 0 collateral
    ⟨0, rfl, Nat.zero_le _⟩
  exact le_trans (liquidationCollateral_mono hle h hmost) hfits

variable (h : Sound p (spare p c)) (hkeep : DebtsKeepUp p c.slot)
include h hkeep

theorem deposit_sound (hcall : p.deposit c depositor amount = .ok p') : Sound p' 0 := by
  unfold Pool.deposit at hcall
  simp only [ok_rules] at hcall
  obtain ⟨_, _, _, q, hreceive, _, ⟨_, rfl⟩, _, _, ⟨-, rfl⟩, rfl⟩ := hcall
  obtain ⟨hq, hset, hsound⟩ := h.receive hreceive
  have hkeep' : DebtsKeepUp q c.slot := by
    rw [hq]
    exact hkeep
  have hs := hsound.accrueInterest hkeep'
  have hlicn : (q.accrueInterest c.slot).licn ≠ none := by
    rw [accrueInterest_licn, hq]
    exact hset
  generalize q.accrueInterest c.slot = r at *
  have hindex := r.currentDepositIndex_pos
  obtain ⟨v, a, hsettle, hv, hborrow, hbix⟩ := (r.account depositor).settleUserDeposit_spec hindex
  have hbooks := hs.books
  rw [hsettle]
  refine hs.replace (x := 0) (y := amount) ?_ (by omega) ?_ ?_ hlicn (by omega)
  · rw [depositClaim_of_index hindex rfl, Claim.units_mul_checkpoint hindex]
    push_cast
    linarith
  · unfold computeCurrentBorrow effectiveBorrowIndex
    simp only [hborrow, hbix]
    omega
  · simp only [hborrow]
    exact hs.account_lt depositor

theorem withdraw_sound (hcall : p.withdraw c depositor amount = .ok p') : Sound p' 0 := by
  unfold Pool.withdraw at hcall
  simp only [ok_rules] at hcall
  obtain ⟨_, _, henough, _, _, _, ⟨htotal, rfl⟩, hout⟩ := hcall
  obtain ⟨hlicn, hheld, rfl⟩ := transferOut_eq_ok hout
  have hs := h.accrueInterest hkeep
  generalize p.accrueInterest c.slot = r at *
  have hindex := r.currentDepositIndex_pos
  obtain ⟨v, a, hsettle, hv, hborrow, hbix⟩ := (r.account depositor).settleUserDeposit_spec hindex
  have hbooks := hs.books
  rw [hsettle] at henough ⊢
  simp only at henough hheld ⊢
  refine hs.replace (x := amount) (y := 0) ?_ (by omega) ?_ ?_ hlicn (by omega)
  · rw [depositClaim_of_index hindex rfl, Claim.units_mul_checkpoint hindex,
      Nat.cast_sub (by omega)]
    linarith
  · unfold computeCurrentBorrow effectiveBorrowIndex
    simp only [hborrow, hbix]
    omega
  · simp only [hborrow]
    exact hs.account_lt depositor

theorem borrow_sound (hcall : p.borrow c borrower amount = .ok p') : Sound p' 0 := by
  unfold Pool.borrow at hcall
  simp only [ok_rules] at hcall
  obtain ⟨_, _, _, _, _, ⟨hlt, rfl⟩, _, _, _, ⟨_, rfl⟩, hout⟩ := hcall
  obtain ⟨hlicn, hheld, rfl⟩ := transferOut_eq_ok hout
  have hs := h.accrueInterest hkeep
  generalize p.accrueInterest c.slot = r at *
  obtain ⟨v, a, hsettle, hv, _, hclaim, _⟩ :=
    (r.account borrower).settleUserBorrow_spec hs.borrowIndex_pos (hs.account_lt borrower)
  have hbooks := hs.books
  rw [hsettle] at hlt ⊢
  simp only at hlt hheld ⊢
  have hnow : computeCurrentBorrow
      { a with borrow := v + amount, borrowIndex := r.borrowIndex } r.borrowIndex = v + amount :=
    computeCurrentBorrow_of_index hs.borrowIndex_pos hlt
      (if_neg (pos_iff_ne_zero.mp hs.borrowIndex_pos))
  refine hs.replace (x := 0) (y := 0) ?_ rfl (by omega) hlt hlicn (by omega)
  have hsame : depositClaim { a with borrow := v + amount, borrowIndex := r.borrowIndex }
      = (r.account borrower).depositClaim := hclaim
  rw [hsame]

theorem repay_sound (hcall : p.repay c borrower amount = .ok p') : Sound p' 0 := by
  unfold Pool.repay at hcall
  simp only [ok_rules] at hcall
  obtain ⟨_, _, hsome, q, hreceive, _, ⟨htotal, rfl⟩, rfl⟩ := hcall
  have hs := h.accrueInterest hkeep
  rw [← spare_accrueInterest p c] at hs
  generalize p.accrueInterest c.slot = r at *
  obtain ⟨v, a, hsettle, hv, hvlt, hclaim, hindex⟩ :=
    (r.account borrower).settleUserBorrow_spec hs.borrowIndex_pos (hs.account_lt borrower)
  rw [hsettle] at hsome hreceive htotal ⊢
  obtain ⟨hq, hset, hsound⟩ := hs.receive hreceive
  have hbooks := hsound.books
  have hnow : computeCurrentBorrow { a with borrow := v - min amount v } r.borrowIndex
      = v - min amount v :=
    computeCurrentBorrow_of_index hs.borrowIndex_pos (by simp only; omega) (hindex hsome)
  have hsame : depositClaim { a with borrow := v - min amount v }
      = (r.account borrower).depositClaim := hclaim
  rw [hq] at hsound hbooks htotal ⊢
  refine hsound.replace (x := 0) (y := 0) ?_ rfl ?_ (by simp only; omega) hset ?_
  · exact le_of_eq (by rw [hsame]; rfl)
  · have hold : Pool.account { r with held := q.held } borrower = r.account borrower := rfl
    grind
  · simp only at hbooks htotal ⊢
    omega

/-- A liquidation keeps the books. -/
theorem liquidate_sound {repayAmount : Nat}
    (hcall : p.liquidate c liquidator borrower repayAmount = .ok p') : Sound p' 0 := by
  unfold Pool.liquidate at hcall
  simp only [ok_rules] at hcall
  obtain ⟨_, _, hsome, _, _, _, q, hreceive, seized, hseized, _, ⟨hborrows, rfl⟩, _,
    ⟨hdeposits, rfl⟩, hout⟩ := hcall
  obtain ⟨hlicn, hheld, rfl⟩ := transferOut_eq_ok hout
  have hs := h.accrueInterest hkeep
  rw [← spare_accrueInterest p c] at hs
  generalize p.accrueInterest c.slot = r at *
  have hdix := r.currentDepositIndex_pos
  obtain ⟨d, a₁, hsettle₁, hd, hborrow, hbix⟩ := (r.account borrower).settleUserDeposit_spec hdix
  rw [hsettle₁] at hsome hreceive hseized hborrows hheld ⊢
  simp only at hsome hreceive hseized hborrows hheld ⊢
  have hlt₁ : a₁.borrow < 2 ^ 64 := hborrow ▸ hs.account_lt borrower
  obtain ⟨v, a, hsettle, hv, hvlt, -, hindex⟩ :=
    a₁.settleUserBorrow_spec hs.borrowIndex_pos hlt₁
  rw [hsettle] at hsome hreceive hseized hborrows ⊢
  have hix : a.effectiveBorrowIndex = r.borrowIndex := hindex hsome
  generalize hrepay : min (min repayAmount (v / 2 + v % 2)) (maxRepayForCollateral d) = repay at *
  have hle : seized ≤ d := seized_le (by omega) hseized
  have hleft : U64.wrappingSub d seized ≤ d - seized := wrappingSub_le hle
  generalize U64.wrappingSub d seized = left at *
  obtain ⟨hq, hset, hsound⟩ := hs.receive hreceive
  have hbooks := hsound.books
  have howed : v = (r.account borrower).computeCurrentBorrow r.borrowIndex := by
    rw [hv]
    unfold computeCurrentBorrow effectiveBorrowIndex
    rw [hborrow, hbix]
  have hless : v - repay < 2 ^ 64 := lt_of_le_of_lt (Nat.sub_le _ _) hvlt
  let a' : Account := ⟨left, r.currentDepositIndex, v - repay, a.borrowIndex⟩
  have hshape : a'.effectiveBorrowIndex = a.effectiveBorrowIndex := effectiveBorrowIndex_congr rfl
  have hnow : a'.computeCurrentBorrow r.borrowIndex = v - repay :=
    computeCurrentBorrow_of_index hs.borrowIndex_pos hless (hshape.trans hix)
  rw [hq] at hsound hbooks hborrows hdeposits hheld hlicn ⊢
  refine hsound.replace (x := seized) (y := 0) ?_ ?_ ?_ hless hset ?_
  · have hcurrent : Pool.currentDepositIndex { r with held := q.held } = r.currentDepositIndex := rfl
    have hold : Pool.account { r with held := q.held } borrower = r.account borrower := rfl
    rw [hcurrent, hold, depositClaim_of_index hdix rfl, Claim.units_mul_checkpoint hdix]
    have hleft' : (left : ℚ) ≤ ((d - seized : Nat) : ℚ) := Nat.cast_le.mpr hleft
    rw [Nat.cast_sub hle] at hleft'
    linarith
  · simp only at hdeposits ⊢
    omega
  · have hold : Pool.account { r with held := q.held } borrower = r.account borrower := rfl
    refine le_trans ?_ (Nat.add_le_add_left (le_of_eq hnow.symm) _)
    grind
  · omega

theorem flashExecute_sound
    (hcall : p.flashExecute c receiver amount dataLen = .ok p') : Sound p' 0 := by
  unfold Pool.flashExecute at hcall
  simp only [ok_rules, mapErr_eq_ok] at hcall
  obtain ⟨_, _, _, _, _, _, _, ⟨_, rfl⟩, _, q, hout, _, _, ⟨_, rfl⟩, ending, _, henough, rfl⟩ :=
    hcall
  obtain ⟨hlicn, -, rfl⟩ := transferOut_eq_ok hout
  have hs := h.accrueInterest hkeep
  have hbooks := hs.books
  exact { hs with books := by simp only; omega, unset := fun hnone => absurd hnone hlicn }

omit hkeep

theorem withdrawReserves_sound
    (hcall : p.withdrawReserves c caller amount = .ok p') : Sound p' 0 := by
  unfold Pool.withdrawReserves at hcall
  simp only [ok_rules] at hcall
  obtain ⟨_, _, _, hle, hout⟩ := hcall
  obtain ⟨hlicn, -, rfl⟩ := transferOut_eq_ok hout
  have hbooks := h.books
  exact { h with books := by simp only; omega, unset := fun hnone => absurd hnone hlicn }

theorem set_sound (hcall : p.set c caller setting = .ok p') : Sound p' 0 := by
  have h0 := h.mono (Nat.zero_le _)
  unfold Pool.set at hcall
  simp only [ok_rules] at hcall
  obtain ⟨_, _, hcall⟩ := hcall
  cases setting with
  | pause =>
    simp only at hcall
    split at hcall
    · exact absurd hcall (by simp)
    · rw [← Except.ok.inj hcall]
      exact { h0 with }
  | unpause =>
    simp only at hcall
    split at hcall
    · rw [← Except.ok.inj hcall]
      exact { h0 with }
    · exact absurd hcall (by simp)
  | depositCap cap =>
    rw [← Except.ok.inj hcall]
    exact { h0 with }
  | reserveFactor factor =>
    simp only at hcall
    split at hcall
    · exact absurd hcall (by simp)
    · rw [← Except.ok.inj hcall]
      exact { h0 with }
  | lichencoinAddress token balance =>
    simp only at hcall
    split at hcall
    · rename_i hnone
      rw [← Except.ok.inj hcall]
      -- nothing was held before the token was known
      have hbooks := h0.books
      rw [h0.unset hnone] at hbooks
      exact { h0 with books := by simp only; omega, unset := fun h => absurd h (by simp) }
    · exact absurd hcall (by simp)

end

/-! ## Whole runs -/

/-- The debts keep up with the interest that a call accrues, if it is let through; the calls of the
    admin accrue none. -/
def KeepsUp (p : Pool) (x : Context × Call) : Prop :=
  (∃ p', (p.credit x.1).dispatch x.1 x.2 = .ok p') → match x.2 with
  | .withdrawReserves _ _ => True
  | .set _ _ => True
  | _ => DebtsKeepUp p x.1.slot

/-- The debts keep up in every call of a run. -/
def KeepsUpRun : Pool → List (Context × Call) → Prop
  | _, [] => True
  | p, x :: calls => KeepsUp p x ∧ KeepsUpRun (p.perform x) calls

theorem DebtsKeepUp.credit (h : DebtsKeepUp p now) : DebtsKeepUp (p.credit c) now := by
  unfold Pool.credit
  split
  · exact h
  · exact h

/-- **One call.** -/
theorem Sound.perform (h : Sound p 0) (hkeep : KeepsUp p x) : Sound (p.perform x) 0 := by
  obtain ⟨c, call⟩ := x
  have hcredit := h.credit (c := c)
  unfold Pool.perform
  split
  · rename_i hcall
    have hkeep := hkeep ⟨_, hcall⟩
    cases call with
    | deposit depositor amount => exact deposit_sound hcredit (.credit hkeep) hcall
    | withdraw depositor amount => exact withdraw_sound hcredit (.credit hkeep) hcall
    | borrow borrower amount => exact borrow_sound hcredit (.credit hkeep) hcall
    | repay borrower amount => exact repay_sound hcredit (.credit hkeep) hcall
    | liquidate liquidator borrower repayAmount =>
      exact liquidate_sound hcredit (.credit hkeep) hcall
    | flashExecute receiver amount dataLen =>
      exact flashExecute_sound hcredit (.credit hkeep) hcall
    | withdrawReserves caller amount => exact withdrawReserves_sound hcredit hcall
    | set caller setting => exact set_sound hcredit hcall
  · exact h

theorem Sound.run : ∀ {p : Pool}, Sound p 0 → KeepsUpRun p calls → Sound (p.run calls) 0 := by
  induction calls with
  | nil => exact fun h _ => h
  | cons x calls ih =>
    intro p h hkeep
    exact ih (h.perform hkeep.1) hkeep.2

theorem sound_initializePool (admin : Pubkey) (timestamp : Nat) :
    Sound (Pool.initializePool admin timestamp) 0 := by
  have hscale : 0 < BORROW_INDEX_SCALE := by decide
  refine ⟨hscale, Nat.le_refl 0, ?_, Nat.zero_le _, ?_, fun _ => rfl⟩
  · simp [Pool.initializePool, HashMap.units]
  · simp [Pool.initializePool]

/-- **The pool can pay everybody** while the debts keep up with the interest booked on them. -/
theorem lending_solvent (admin : Pubkey) (timestamp : Nat) (calls : List (Context × Call))
    (hkeep : KeepsUpRun (Pool.initializePool admin timestamp) calls) :
    let p := (Pool.initializePool admin timestamp).run calls
    p.currentDeposits + p.reserves ≤ p.held + p.currentBorrows := by
  intro p
  have h : Sound p 0 := (sound_initializePool admin timestamp).run hkeep
  have hbooks := h.books
  have hdebts := h.debts
  have hdeposits := h.currentDeposits_le
  omega

/-- A call that the token and the oracle let through. -/
def plainContext (caller : Pubkey) (slot : Nat) : Context := ⟨caller, slot, 0, true, true, some 1⟩

/-- The admin's setting up of the token, a deposit and a debt against it. -/
def opening (supplied borrowed : Nat) : List (Context × Call) :=
  [(plainContext ⟨1⟩ 0, .set ⟨1⟩ (.lichencoinAddress .mt20 0)),
    (plainContext ⟨7⟩ 0, .deposit ⟨7⟩ supplied), (plainContext ⟨7⟩ 0, .borrow ⟨7⟩ borrowed)]

/-- Half a LICN is borrowed for a million slots: the debt grows by the interest. -/
theorem lending_solvent_small :
    let p := (Pool.initializePool ⟨1⟩ 0).run (opening 1000000000 500000000
      ++ [(plainContext ⟨7⟩ 1000000, .repay ⟨7⟩ 100000000)])
    p.currentDeposits + p.reserves ≤ p.held + p.currentBorrows := by
  refine lending_solvent ⟨1⟩ 0 _ ⟨fun _ => trivial, fun _ => ?_, fun _ => ?_, fun _ => ?_, trivial⟩
  · unfold DebtsKeepUp
    decide +kernel
  · unfold DebtsKeepUp
    decide +kernel
  · unfold DebtsKeepUp
    decide +kernel

/-- Fifty thousand LICN are borrowed for one slot: the reserves get a tenth of an interest that
    nobody owes. -/
theorem lending_insolvent :
    let p := (Pool.initializePool ⟨1⟩ 0).run (opening 100000000000000 50000000000000
      ++ [(plainContext ⟨7⟩ 1, .deposit ⟨7⟩ 1)])
    p.held = 50000000000001 ∧ p.currentBorrows = 50000000000000
      ∧ p.currentDeposits = 100000000000001 ∧ p.reserves = 2540 := by
  decide +kernel

end Lichen.ThallLend
