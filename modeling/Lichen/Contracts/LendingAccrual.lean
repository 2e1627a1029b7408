/-
  Touching the lending pool often.

  Each accrual rounds the interest and the growth of the index down and then forgets the time that has
  passed, so accruing in every slot can book nothing at all (`touching_lowers_debt`).  On the other side
  stands the interest on interest.  Touching the pool lowers neither the total nor a debt exactly where
  the fractions that the accruals drop are made up for by that and by the fraction that one accrual over
  the whole time drops as well (`touching_keeps_debt_iff`).
-/
import Lichen.Contracts.LendingSolvency

open Base
namespace Lichen.ThallLend

/-- `accrue_interest` in one slot after another. -/
def Pool.touch (p : Pool) (slots : List Nat) : Pool := slots.foldl accrueInterest p

/-- What a user owes. -/
def Pool.debt (p : Pool) (user : Pubkey) : Nat :=
  (p.account user).computeCurrentBorrow p.borrowIndex

/-- How long the pool rests before each of the accruals. -/
def gaps : Nat → List Nat → List Nat
  | _, [] => []
  | last, now :: slots => (now - last) :: gaps now slots

/-! ## Growth in whole units

Amounts at a rate for `RATE_SCALE` slots.  The interest of less than one spore on the total is not
booked, and then the index does not move either. -/

section

variable (rate : Nat)

/-- What `x` grows by in one accrual, where the borrows sum to `total`. -/
def whole (total x elapsed : Nat) : Nat :=
  if total * rate * elapsed < RATE_SCALE then 0 else x * rate * elapsed / RATE_SCALE

/-- `x` after the accruals. -/
def grown : Nat → Nat → List Nat → Nat
  | _, x, [] => x
  | total, x, e :: es => grown (total + whole rate total total e) (x + whole rate total x e) es

/-- The fractions that the accruals drop, in parts of `RATE_SCALE`. -/
def dropped : Nat → Nat → List Nat → Nat
  | _, _, [] => 0
  | total, x, e :: es => (x * rate * e - whole rate total x e * RATE_SCALE)
      + dropped (total + whole rate total total e) (x + whole rate total x e) es

/-- The interest on what `x` has grown by over `base`, in parts of `RATE_SCALE`. -/
def onInterest (base : Nat) : Nat → Nat → List Nat → Nat
  | _, _, [] => 0
  | total, x, e :: es => (x - base) * rate * e
      + onInterest base (total + whole rate total total e) (x + whole rate total x e) es

/-- The fractions dropped are made up for by the interest on interest and by what a single accrual
    drops. -/
def MadeUp (total x : Nat) (es : List Nat) : Prop :=
  dropped rate total x es ≤ onInterest rate x total x es + dropped rate total x [es.sum]

instance : Decidable (MadeUp rate total x es) := inferInstanceAs (Decidable (_ ≤ _))

theorem whole_mul_le (total x e : Nat) : whole rate total x e * RATE_SCALE ≤ x * rate * e := by
  unfold whole
  split
  · exact (Nat.zero_mul _).trans_le (Nat.zero_le _)
  · exact Nat.div_mul_le_self _ _

/-- Exactly, the accruals give simple interest and the interest on interest, less the fractions. -/
theorem grown_exact (total : Nat) (es : List Nat) (hbase : base ≤ x) :
    grown rate total x es * RATE_SCALE + dropped rate total x es
      = x * RATE_SCALE + base * rate * es.sum + onInterest rate base total x es := by
  induction es generalizing total x with
  | nil => simp only [grown, dropped, onInterest, List.sum_nil, Nat.mul_zero, Nat.add_zero]
  | cons e es ih =>
    have hrest := ih (total + whole rate total total e)
      (le_trans hbase (Nat.le_add_right x (whole rate total x e)))
    have hfraction := whole_mul_le rate total x e
    -- the interest of this accrual is that on the base and that on what has been added to it
    have hsplit : x * rate * e = base * rate * e + (x - base) * rate * e := by
      rw [← Nat.add_mul, ← Nat.add_mul, Nat.add_sub_cancel' hbase]
    have hsum : base * rate * (e :: es).sum = base * rate * e + base * rate * es.sum := by
      rw [List.sum_cons, Nat.mul_add]
    rw [Nat.add_mul] at hrest
    rw [hsum]
    show grown _ _ _ es * RATE_SCALE + (_ + dropped _ _ _ es) = _ + _ + (_ + onInterest _ _ _ _ es)
    omega

/-- Growing in one go is no better exactly where the fractions are made up for. -/
theorem grown_once_le_iff : grown rate total x [es.sum] ≤ grown rate total x es
    ↔ MadeUp rate total x es := by
  have honce := grown_exact rate total [es.sum] (Nat.le_refl x)
  have hoften := grown_exact rate total es (Nat.le_refl x)
  have hnone : onInterest rate x total x [es.sum] = 0 := by
    simp only [onInterest, Nat.sub_self, Nat.zero_mul, Nat.add_zero]
  rw [List.sum_singleton, hnone] at honce
  rw [← Nat.mul_le_mul_right_iff (by decide : 0 < RATE_SCALE)]
  unfold MadeUp
  omega

end

/-! ## One accrual -/

variable {p : Pool} {rate : Nat}

/-- The sums of an accrual fit, whichever side the interest goes to. -/
structure Pool.Fits (p : Pool) (rate elapsed : Nat) : Prop where
  borrows : p.totalBorrows + p.totalBorrows * rate * elapsed / RATE_SCALE < 2 ^ 64
  deposits : p.totalDeposits + p.totalBorrows * rate * elapsed / RATE_SCALE < 2 ^ 64
  reserves : p.reserves + p.totalBorrows * rate * elapsed / RATE_SCALE < 2 ^ 64
  borrowIndex : p.borrowIndex + p.borrowIndex * rate * elapsed / RATE_SCALE < 2 ^ 64
  depositIndex : p.currentDepositIndex
    + p.currentDepositIndex * (p.totalBorrows * rate * elapsed / RATE_SCALE) / p.totalDeposits < 2 ^ 64

theorem growth_eq (h : amount * rate * elapsed / RATE_SCALE < 2 ^ 64) :
    growth amount rate elapsed = amount * rate * elapsed / RATE_SCALE := by
  have hfits : amount * rate * elapsed / RATE_SCALE ≤ U64.MAX := Nat.le_of_lt_succ h
  have hlt : amount * rate * elapsed < 2 ^ 128 :=
    lt_trans ((Nat.div_lt_iff_lt_mul (by decide)).mp h) (by decide)
  unfold growth u128ToU64Saturating
  rw [Nat.mod_eq_of_lt hlt, min_eq_left hfits]

theorem Pool.Fits.booked (h : p.Fits rate elapsed) :
    ∃ q, p.bookInterest rate elapsed (growth p.totalBorrows rate elapsed) = some q := by
  obtain ⟨hborrows, hdeposits, hreserves, hindex, hdeposit⟩ := h
  rw [growth_eq (by omega)]
  generalize p.totalBorrows * rate * elapsed / RATE_SCALE = interest at *
  have hdelta : ∀ part ≤ interest,
      u128ToU64Saturating (p.currentDepositIndex * part / p.totalDeposits)
        ≤ p.currentDepositIndex * interest / p.totalDeposits := fun part hpart =>
    le_trans (min_le_left _ _) (Nat.div_le_div_right (Nat.mul_le_mul_left _ hpart))
  rw [← growth_eq (by omega)] at hindex
  unfold Pool.bookInterest
  simp only [Option.bind_eq_bind, Option.bind_eq_some_iff, ok_rules]
  refine ⟨_, _, ⟨hborrows, rfl⟩, _, ⟨by omega, rfl⟩, _, ⟨by omega, rfl⟩, _, ⟨hindex, rfl⟩, _, ⟨?_, rfl⟩,
    rfl⟩
  exact lt_of_le_of_lt (Nat.add_le_add_left (hdelta _ (Nat.sub_le _ _)) _) hdeposit

/-- From `p` to `q` the total and the index have grown as given, in a pool that has deposits. -/
structure Grown (rate : Nat) (es : List Nat) (p q : Pool) : Prop where
  borrows : q.totalBorrows = grown rate p.totalBorrows p.totalBorrows es
  index : q.borrowIndex = grown rate p.totalBorrows p.borrowIndex es
  accounts : q.accounts = p.accounts
  supplied : p.totalDeposits ≤ q.totalDeposits
  fits : p.borrowIndex < 2 ^ 64 → q.borrowIndex < 2 ^ 64

/-- What an accrual that fits books. -/
theorem accrueInterest_grown (hsupplied : p.totalDeposits ≠ 0) (hlater : p.lastUpdate < now)
    (hrate : currentRatePerSlot p.totalDeposits p.totalBorrows = rate)
    (hfits : p.Fits rate (now - p.lastUpdate)) :
    Grown rate [now - p.lastUpdate] p (p.accrueInterest now)
      ∧ (p.accrueInterest now).lastUpdate = now := by
  have hinterest := growth_eq (lt_of_le_of_lt (Nat.le_add_left _ _) hfits.borrows)
  have hindexGrowth := growth_eq (lt_of_le_of_lt (Nat.le_add_left _ _) hfits.borrowIndex)
  -- with less than a spore of interest the slot is noted and nothing else
  have hrest (hnone : p.totalBorrows * rate * (now - p.lastUpdate) < RATE_SCALE) :
      Grown rate [now - p.lastUpdate] p { p with lastUpdate := now } := by
    refine ⟨?_, ?_, rfl, Nat.le_refl _, id⟩ <;> simp only [grown, whole, if_pos hnone, Nat.add_zero]
  unfold Pool.accrueInterest
  rw [if_neg (not_le.mpr hlater), hrate]
  split
  · rename_i hidle
    have hzero := hidle.resolve_right hsupplied
    exact ⟨hrest (by rw [hzero, Nat.zero_mul, Nat.zero_mul]; decide), rfl⟩
  · simp only
    split
    · rename_i hnone
      rw [hinterest] at hnone
      exact ⟨hrest ((Nat.div_eq_zero_iff.mp hnone).resolve_left (by decide)), rfl⟩
    · rename_i hsome
      obtain ⟨q, hbook⟩ := hfits.booked
      obtain ⟨hborrows, hindex, haccounts, -, hdeposits⟩ := bookInterest_eq_some hbook
      have hbig : ¬ p.totalBorrows * rate * (now - p.lastUpdate) < RATE_SCALE := fun hlt =>
        hsome (hinterest.trans (Nat.div_eq_of_lt hlt))
      simp only [hbook]
      refine ⟨⟨?_, ?_, haccounts, hdeposits, fun _ => ?_⟩, trivial⟩
      · rw [hborrows, hinterest]
        simp only [grown, whole, if_neg hbig]
      · rw [hindex, hindexGrowth]
        simp only [grown, whole, if_neg hbig]
      · show q.borrowIndex < 2 ^ 64
        rw [hindex, hindexGrowth]
        exact hfits.borrowIndex

/-! ## Many accruals -/

/-- The slots rise, the rate stays and no accrual overflows. -/
def Steady (rate : Nat) : Pool → List Nat → Prop
  | _, [] => True
  | p, now :: slots => (p.lastUpdate < now
      ∧ currentRatePerSlot p.totalDeposits p.totalBorrows = rate
      ∧ p.Fits rate (now - p.lastUpdate)) ∧ Steady rate (p.accrueInterest now) slots

theorem Steady.grown (h : Steady rate p slots) (hsupplied : p.totalDeposits ≠ 0) :
    Grown rate (gaps p.lastUpdate slots) p (p.touch slots)
      ∧ p.lastUpdate + (gaps p.lastUpdate slots).sum = slots.getLastD p.lastUpdate := by
  induction slots generalizing p with
  | nil => exact ⟨⟨rfl, rfl, rfl, Nat.le_refl _, id⟩, rfl⟩
  | cons now slots ih =>
    obtain ⟨⟨hlater, hrate, hfits⟩, hrest⟩ := h
    obtain ⟨hfirst, hnow⟩ := accrueInterest_grown hsupplied hlater hrate hfits
    obtain ⟨hgrown, hsum⟩ := ih hrest (by have := hfirst.supplied; omega)
    rw [hnow] at hgrown hsum
    refine ⟨⟨?_, ?_, hgrown.accounts.trans hfirst.accounts, hfirst.supplied.trans hgrown.supplied,
      fun hlt => hgrown.fits (hfirst.fits hlt)⟩, ?_⟩
    · exact hgrown.borrows.trans (by rw [hfirst.borrows]; rfl)
    · exact hgrown.index.trans (by rw [hfirst.borrows, hfirst.index]; rfl)
    · rw [List.getLastD_cons, ← hsum]
      show p.lastUpdate + ((now - p.lastUpdate) :: gaps now slots).sum = _
      rw [List.sum_cons]
      omega

theorem Account.computeCurrentBorrow_mono (a : Account) (h : i ≤ j) :
    a.computeCurrentBorrow i ≤ a.computeCurrentBorrow j := by
  unfold computeCurrentBorrow
  split
  · exact Nat.zero_le _
  · rw [if_neg (by omega : j ≠ 0)]
    split
    · exact Nat.le_refl _
    · exact min_le_min_right _ (Nat.div_le_div_right (Nat.mul_le_mul_left _ h))

/-- A debt of one spore as of the index 1 is the index. -/
theorem Account.computeCurrentBorrow_one (h : i < 2 ^ 64) :
    Account.computeCurrentBorrow ⟨0, 0, 1, 1⟩ i = i := by
  have hmax : i ≤ U64.MAX := Nat.le_of_lt_succ h
  unfold computeCurrentBorrow effectiveBorrowIndex u128ToU64Saturating
  split
  · exact ‹i = 0›.symm
  · simp only [if_neg Nat.one_ne_zero, Nat.one_mul, Nat.div_one]
    exact min_eq_left hmax

/-- No debt is lower under one index than under another iff the index is not lower. -/
theorem debts_le_iff (hi : i < 2 ^ 64) (hj : j < 2 ^ 64) :
    (∀ a : Account, a.computeCurrentBorrow i ≤ a.computeCurrentBorrow j) ↔ i ≤ j := by
  constructor
  · intro hall
    have hone := hall ⟨0, 0, 1, 1⟩
    rwa [Account.computeCurrentBorrow_one hi, Account.computeCurrentBorrow_one hj] at hone
  · exact fun hle a => a.computeCurrentBorrow_mono hle

/-- **Accruing more often**: the total comes out no lower than after one accrual exactly where the
    fractions dropped from it are made up for, and a debt, whoever's, exactly where those dropped from
    the index are. -/
theorem touching_keeps_debt_iff (hsupplied : p.totalDeposits ≠ 0) (hslots : slots ≠ [])
    (hsteady : Steady rate p slots)
    (hfits : p.Fits rate (slots.getLastD p.lastUpdate - p.lastUpdate)) :
    let once := p.accrueInterest (slots.getLastD p.lastUpdate)
    let often := p.touch slots
    (once.totalBorrows ≤ often.totalBorrows
        ↔ MadeUp rate p.totalBorrows p.totalBorrows (gaps p.lastUpdate slots))
      ∧ ((∀ a : Account,
            a.computeCurrentBorrow once.borrowIndex ≤ a.computeCurrentBorrow often.borrowIndex)
          ↔ MadeUp rate p.totalBorrows p.borrowIndex (gaps p.lastUpdate slots))
      ∧ (MadeUp rate p.totalBorrows p.borrowIndex (gaps p.lastUpdate slots) →
          ∀ user, once.debt user ≤ often.debt user) := by
  intro once often
  obtain ⟨hoften, hsum⟩ := hsteady.grown hsupplied
  have hgap : slots.getLastD p.lastUpdate - p.lastUpdate = (gaps p.lastUpdate slots).sum := by omega
  obtain ⟨now, rest, rfl⟩ := List.exists_cons_of_ne_nil hslots
  have hlater : p.lastUpdate < (now :: rest).getLastD p.lastUpdate := by
    have hfirst := hsteady.1.1
    have hge : now - p.lastUpdate ≤ (gaps p.lastUpdate (now :: rest)).sum := Nat.le_add_right _ _
    omega
  have honce := (accrueInterest_grown hsupplied hlater hsteady.1.2.1 hfits).1
  rw [hgap] at honce
  have hindex : once.borrowIndex ≤ often.borrowIndex
      ↔ MadeUp rate p.totalBorrows p.borrowIndex (gaps p.lastUpdate (now :: rest)) := by
    rw [honce.index, hoften.index]
    exact grown_once_le_iff rate
  refine ⟨?_, ?_, fun hmade user => ?_⟩
  · rw [honce.borrows, hoften.borrows]
    exact grown_once_le_iff rate
  · have hlt : p.borrowIndex < 2 ^ 64 := lt_of_le_of_lt (Nat.le_add_right _ _) hfits.borrowIndex
    exact (debts_le_iff (honce.fits hlt) (hoften.fits hlt)).trans hindex
  · unfold Pool.debt Pool.account
    rw [honce.accounts, hoften.accounts]
    exact Account.computeCurrentBorrow_mono _ (hindex.mpr hmade)

/-- A pool with one borrower. -/
def oneLoan (supplied borrowed : Nat) : Pool :=
  { Pool.initializePool ⟨1⟩ 0 with
    totalDeposits := supplied
    totalBorrows := borrowed
    accounts := (∅ : HashMap Pubkey Account).put ⟨7⟩ ⟨supplied, 0, borrowed, 0⟩ }

/-- Three million LICN, half of it lent, touched after 250 slots and again after 500: the second accrual
    drops a fraction, which is no more than the interest on the first one's interest. -/
theorem touching_keeps_debt_twice :
    let p := oneLoan 3000000000000000 1500000000000000
    let once := p.accrueInterest 500
    let often := p.touch [250, 500]
    once.debt ⟨7⟩ ≤ often.debt ⟨7⟩ ∧ once.totalBorrows ≤ often.totalBorrows
      ∧ 0 < dropped 508 p.totalBorrows p.totalBorrows [250, 250] := by
  intro p once often
  have hsteady : Steady 508 p [250, 500] := by
    refine ⟨⟨?_, ?_, ⟨?_, ?_, ?_, ?_, ?_⟩⟩, ⟨?_, ?_, ⟨?_, ?_, ?_, ?_, ?_⟩⟩, trivial⟩
    all_goals decide +kernel
  have hfits : p.Fits 508 500 := by
    refine ⟨?_, ?_, ?_, ?_, ?_⟩
    all_goals decide +kernel
  obtain ⟨htotal, -, hdebt⟩ := touching_keeps_debt_iff (by decide) (by decide) hsteady hfits
  exact ⟨hdebt (by decide +kernel) ⟨7⟩, htotal.mpr (by decide +kernel), by decide +kernel⟩

/-- **A debt that never grows**: touched in each of two slots it stays, touched in the second only
    it grows by one spore, and so does the total. -/
theorem touching_lowers_debt :
    let p := oneLoan 3000000000 1500000000
    ((p.touch [1, 2]).debt ⟨7⟩, (p.touch [1, 2]).totalBorrows) = (1500000000, 1500000000)
      ∧ ((p.accrueInterest 2).debt ⟨7⟩, (p.accrueInterest 2).totalBorrows)
        = (1500000001, 1500000001) := by
  decide +kernel

end Lichen.ThallLend
