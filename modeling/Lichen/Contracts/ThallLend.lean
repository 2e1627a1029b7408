/-
  ThallLend, the lending pool contract (`contracts/thalllend/src/lib.rs`).

  Suppliers deposit LICN, borrowers take it out against their own deposit, and interest is booked
  twice: into the pool's totals and reserves when it accrues, and into the accounts through two
  indexes, a debt or a deposit growing by the quotient of the index now and the index it was last
  settled at.

  An entry point returns the pool, or the non-zero code the contract returns; such a code rolls the
  whole call back, so what the source restores by hand before it is not modelled, and neither is the
  reentrancy flag, which is free whenever nothing re-enters.  The LICN token is honest: it moves
  exactly the amount or fails, and it fails where the balance does not reach.  Arithmetic on `u128`
  wraps, as it does in a release build.
-/
import Lichen.Base.Machine
import Lichen.Base.MapSum
import Lichen.Core.Types

open Base
namespace Lichen.ThallLend

def COLLATERAL_FACTOR_PERCENT : Nat := 75
def LIQUIDATION_THRESHOLD_PERCENT : Nat := 85
def LIQUIDATION_BONUS_PERCENT : Nat := 5
def BASE_RATE_SCALED : Nat := 254
def RATE_SCALE : Nat := 1000000000000
def UTILIZATION_KINK_PERCENT : Nat := 80
def FLASH_LOAN_FEE_BPS : Nat := 9
def BPS_SCALE : Nat := 10000
def MAX_FLASH_CALLBACK_DATA_LEN : Nat := 128
def MAX_RATE_PER_SLOT : Nat := 25400
def BORROW_INDEX_SCALE : Nat := 1000000000
def DEPOSIT_INDEX_SCALE : Nat := 1000000000

/-! ## Arithmetic -/

/-- `u128_to_u64_saturating`. -/
def u128ToU64Saturating (value : Nat) : Nat := min value U64.MAX

def utilizationPercent (totalDeposits totalBorrows : Nat) : Nat :=
  if totalDeposits = 0 then 0 else u128ToU64Saturating (totalBorrows * 100 / totalDeposits)

def collateralLimit (amount percent : Nat) : Nat := u128ToU64Saturating (amount * percent / 100)

def liquidationCollateral (repayAmount : Nat) : Option Nat :=
  U128.tryToU64 (repayAmount + repayAmount * LIQUIDATION_BONUS_PERCENT / 100)

/-- The `while low < high` loop of `max_repay_for_collateral`; the interval halves at every turn. -/
def searchRepay (collateral : Nat) : Nat → Nat → Nat → Nat
  | 0, low, _ => low
  | fuel + 1, low, high =>
    if low < high then
      let mid := low + (high - low) / 2 + 1
      match liquidationCollateral mid with
      | some seized =>
        if seized ≤ collateral then searchRepay collateral fuel mid high
        else searchRepay collateral fuel low (mid - 1)
      | none => searchRepay collateral fuel low (mid - 1)
    else low

def maxRepayForCollateral (collateral : Nat) : Nat := searchRepay collateral 64 0 collateral

def flashLoanFee (amount : Nat) : Nat :=
  max (u128ToU64Saturating ((amount * FLASH_LOAN_FEE_BPS + (BPS_SCALE - 1)) / BPS_SCALE)) 1

def currentRatePerSlot (totalDeposits totalBorrows : Nat) : Nat :=
  let utilization := min (utilizationPercent totalDeposits totalBorrows) 100
  let ratePerSlot :=
    if utilization ≤ UTILIZATION_KINK_PERCENT then
      BASE_RATE_SCALED + utilization * BASE_RATE_SCALED * 2 / 100
    else
      BASE_RATE_SCALED + UTILIZATION_KINK_PERCENT * BASE_RATE_SCALED * 2 / 100
        + (utilization - UTILIZATION_KINK_PERCENT) * BASE_RATE_SCALED * 10 / 100
  if MAX_RATE_PER_SLOT < ratePerSlot then MAX_RATE_PER_SLOT else ratePerSlot

/-- What an amount grows by at a rate: interest for the debts, the delta for the borrow index. -/
def growth (amount ratePerSlot elapsedSlots : Nat) : Nat :=
  u128ToU64Saturating (amount * ratePerSlot * elapsedSlots % 2 ^ 128 / RATE_SCALE)

/-! ## Accounts -/

/-- The entries `dep:`, `dix:`, `bor:` and `bix:` of a user; a missing one reads zero. -/
structure Account where
  deposit : Nat
  depositIndex : Nat
  borrow : Nat
  borrowIndex : Nat
  deriving DecidableEq, Repr

namespace Account

def empty : Account := ⟨0, 0, 0, 0⟩

variable (a : Account)

/-- The index a deposit is as of. -/
def effectiveDepositIndex : Nat :=
  if a.depositIndex = 0 then DEPOSIT_INDEX_SCALE else a.depositIndex

/-- The index a debt is as of. -/
def effectiveBorrowIndex : Nat :=
  if a.borrowIndex = 0 then BORROW_INDEX_SCALE else a.borrowIndex

/-- `compute_current_borrow`. -/
def computeCurrentBorrow (globalIndex : Nat) : Nat :=
  if globalIndex = 0 then 0
  else if a.borrow = 0 then 0
  else u128ToU64Saturating (a.borrow * globalIndex / a.effectiveBorrowIndex)

/-- `compute_current_deposit`. -/
def computeCurrentDeposit (globalIndex : Nat) : Nat :=
  if a.deposit = 0 then 0
  else u128ToU64Saturating (a.deposit * globalIndex / a.effectiveDepositIndex)

/-- `settle_user_borrow`: the debt now, and the account. -/
def settleUserBorrow (globalIndex : Nat) : Nat × Account :=
  if globalIndex = 0 then (0, a)
  else if a.borrow = 0 then (0, a)
  else if globalIndex = a.effectiveBorrowIndex then (a.borrow, a)
  else
    let actualBorrow := u128ToU64Saturating (a.borrow * globalIndex / a.effectiveBorrowIndex)
    (actualBorrow, { a with borrow := actualBorrow, borrowIndex := globalIndex })

/-- `settle_user_deposit`: the deposit now, and the account. -/
def settleUserDeposit (globalIndex : Nat) : Nat × Account :=
  if a.deposit = 0 then (0, a)
  else if globalIndex = a.effectiveDepositIndex then (a.deposit, a)
  else
    let actualDeposit := u128ToU64Saturating (a.deposit * globalIndex / a.effectiveDepositIndex)
    (actualDeposit, { a with deposit := actualDeposit, depositIndex := globalIndex })

end Account

/-! ## The pool -/

/-- The token the pool lends, once it is configured. -/
inductive Token where
  | native
  | mt20
  deriving DecidableEq, Repr

/-- What the contract stores, and what it holds of the token. -/
structure Pool where
  admin : Pubkey
  totalDeposits : Nat
  totalBorrows : Nat
  reserves : Nat
  lastUpdate : Nat
  reserveFactor : Nat
  borrowIndex : Nat
  depositIndex : Nat
  depositCap : Nat
  paused : Bool
  licn : Option Token
  accounts : HashMap Pubkey Account
  held : Nat

/-- What a call finds around it: who calls in which slot with how much native value, whether the
    token pulls from the payer and pays out, and what the configured oracle answers. -/
structure Context where
  caller : Pubkey
  slot : Nat
  value : Nat
  pulls : Bool
  pays : Bool
  oraclePrice : Option Nat

namespace Pool

/-- `initialize`. -/
def initializePool (admin : Pubkey) (timestamp : Nat) : Pool where
  admin := admin
  totalDeposits := 0
  totalBorrows := 0
  reserves := 0
  lastUpdate := timestamp
  reserveFactor := 10
  borrowIndex := BORROW_INDEX_SCALE
  depositIndex := DEPOSIT_INDEX_SCALE
  depositCap := 0
  paused := false
  licn := none
  accounts := ∅
  held := 0

variable (p : Pool) (c : Context)

def account (user : Pubkey) : Account := (p.accounts.get user).getD Account.empty

def currentDepositIndex : Nat :=
  if p.depositIndex = 0 then DEPOSIT_INDEX_SCALE else p.depositIndex

/-- Native value sent with a call is credited before the contract runs. -/
def credit : Pool :=
  if p.licn = some .native then { p with held := p.held + c.value } else p

/-- `transfer_out`. -/
def transferOut (amount : Nat) : Except Nat Pool :=
  match p.licn with
  | none => .error 30
  | some _ =>
    if c.pays = true ∧ amount ≤ p.held then .ok { p with held := p.held - amount } else .error 31

/-- `receive_licn_in`: of native value, what is sent beyond the amount goes back. -/
def receiveLicnIn (amount : Nat) : Option Pool :=
  match p.licn with
  | none => none
  | some .mt20 => if c.pulls then some { p with held := p.held + amount } else none
  | some .native =>
    if c.value < amount then none
    else if c.value - amount = 0 then some p
    else (p.transferOut c (c.value - amount)).toOption

/-! ## Interest -/

/-- The writes of `accrue_interest`; none of them, if one does not fit. -/
def bookInterest (ratePerSlot elapsedSlots interest : Nat) : Option Pool := do
  let reserveAmount := min (u128ToU64Saturating (interest * p.reserveFactor / 100)) interest
  let depositorInterest := interest - reserveAmount
  let totalBorrows ← U64.checkedAdd p.totalBorrows interest
  let totalDeposits ← U64.checkedAdd p.totalDeposits depositorInterest
  let reserves ← U64.checkedAdd p.reserves reserveAmount
  let borrowIndex ← U64.checkedAdd p.borrowIndex (growth p.borrowIndex ratePerSlot elapsedSlots)
  let depositIndexDelta :=
    u128ToU64Saturating (p.currentDepositIndex * depositorInterest / p.totalDeposits)
  let depositIndex ← U64.checkedAdd p.currentDepositIndex depositIndexDelta
  some { p with totalBorrows, totalDeposits, reserves, borrowIndex, depositIndex }

/-- `accrue_interest`. -/
def accrueInterest (now : Nat) : Pool :=
  if now ≤ p.lastUpdate then p
  else if p.totalBorrows = 0 ∨ p.totalDeposits = 0 then { p with lastUpdate := now }
  else
    let ratePerSlot := currentRatePerSlot p.totalDeposits p.totalBorrows
    let elapsedSlots := now - p.lastUpdate
    let interest := growth p.totalBorrows ratePerSlot elapsedSlots
    if interest = 0 then { p with lastUpdate := now }
    else
      match p.bookInterest ratePerSlot elapsedSlots interest with
      | none => p
      | some p' => { p' with lastUpdate := now }

/-! ## Entry points -/

def deposit (p : Pool) (c : Context) (depositor : Pubkey) (amount : Nat) : Except Nat Pool := do
  failIf (amount = 0) 1
  failIf (p.paused = true) 20
  failIf (c.caller ≠ depositor) 200
  let p ← okOr (p.receiveLicnIn c amount) 30
  let p := p.accrueInterest c.slot
  let newTotal ← okOr (U64.checkedAdd p.totalDeposits amount) 5
  failIf (0 < p.depositCap ∧ p.depositCap < newTotal) 4
  let (prevDeposit, account) := (p.account depositor).settleUserDeposit p.currentDepositIndex
  let newDeposit ← okOr (U64.checkedAdd prevDeposit amount) 5
  pure { p with
    accounts := p.accounts.put depositor
      { account with deposit := newDeposit, depositIndex := p.currentDepositIndex }
    totalDeposits := newTotal }

/-- The health check of a withdrawal. -/
def checkHealth (currentBorrow newDeposit : Nat) : Except Nat Unit :=
  if 0 < currentBorrow then do
    failIf (c.oraclePrice.isNone = true) 6
    failIf (collateralLimit newDeposit COLLATERAL_FACTOR_PERCENT < currentBorrow) 3
  else .ok ()

def withdraw (depositor : Pubkey) (amount : Nat) : Except Nat Pool := do
  failIf (amount = 0) 1
  failIf (c.caller ≠ depositor) 200
  let p := p.accrueInterest c.slot
  let (currentDeposit, account) := (p.account depositor).settleUserDeposit p.currentDepositIndex
  failIf (currentDeposit < amount) 2
  failIf (U64.saturatingSub p.totalDeposits p.totalBorrows < amount) 4
  checkHealth c (account.computeCurrentBorrow p.borrowIndex) (currentDeposit - amount)
  let newTotalDeposits ← okOr (U64.checkedSub p.totalDeposits amount) 5
  let p : Pool := { p with
    accounts := p.accounts.put depositor { account with
      deposit := currentDeposit - amount
      depositIndex := p.currentDepositIndex }
    totalDeposits := newTotalDeposits }
  p.transferOut c amount

def borrow (p : Pool) (c : Context) (borrower : Pubkey) (amount : Nat) : Except Nat Pool := do
  failIf (amount = 0) 1
  failIf (p.paused = true) 20
  failIf (c.caller ≠ borrower) 200
  let p := p.accrueInterest c.slot
  let depositVal := (p.account borrower).computeCurrentDeposit p.currentDepositIndex
  let (currentBorrow, account) := (p.account borrower).settleUserBorrow p.borrowIndex
  failIf (c.oraclePrice.isNone = true) 6
  let newBorrow ← okOr (U64.checkedAdd currentBorrow amount) 5
  failIf (collateralLimit depositVal COLLATERAL_FACTOR_PERCENT < newBorrow) 2
  failIf (U64.saturatingSub p.totalDeposits p.totalBorrows < amount) 3
  let newTotalBorrows ← okOr (U64.checkedAdd p.totalBorrows amount) 5
  let p : Pool := { p with
    accounts := p.accounts.put borrower
      { account with borrow := newBorrow, borrowIndex := p.borrowIndex }
    totalBorrows := newTotalBorrows }
  p.transferOut c amount

def repay (borrower : Pubkey) (amount : Nat) : Except Nat Pool := do
  failIf (amount = 0) 1
  failIf (c.caller ≠ borrower) 200
  let p := p.accrueInterest c.slot
  let (currentBorrow, account) := (p.account borrower).settleUserBorrow p.borrowIndex
  failIf (currentBorrow = 0) 2
  let repayAmount := min amount currentBorrow
  let p ← okOr (p.receiveLicnIn c repayAmount) 30
  let newTotalBorrows ← okOr (U64.checkedSub p.totalBorrows repayAmount) 5
  pure { p with
    accounts := p.accounts.put borrower { account with borrow := currentBorrow - repayAmount }
    totalBorrows := newTotalBorrows }

def liquidate (liquidator borrower : Pubkey) (repayAmount : Nat) :
    Except Nat Pool := do
  failIf (repayAmount = 0) 1
  failIf (c.caller ≠ liquidator) 200
  let p := p.accrueInterest c.slot
  let (deposit, account) := (p.account borrower).settleUserDeposit p.currentDepositIndex
  let (currentBorrow, account) := account.settleUserBorrow p.borrowIndex
  failIf (currentBorrow = 0) 2
  failIf (c.oraclePrice.isNone = true) 6
  failIf (currentBorrow ≤ collateralLimit deposit LIQUIDATION_THRESHOLD_PERCENT) 3
  let closeFactorLimit := currentBorrow / 2 + currentBorrow % 2
  let actualRepay := min (min repayAmount closeFactorLimit) (maxRepayForCollateral deposit)
  failIf (actualRepay = 0) 7
  let p ← okOr (p.receiveLicnIn c actualRepay) 30
  let actualSeized ← okOr (liquidationCollateral actualRepay) 8
  let newTotalBorrows ← okOr (U64.checkedSub p.totalBorrows actualRepay) 5
  let newTotalDeposits ← okOr (U64.checkedSub p.totalDeposits actualSeized) 5
  let p : Pool := { p with
    accounts := p.accounts.put borrower { account with
      borrow := currentBorrow - actualRepay
      deposit := U64.wrappingSub deposit actualSeized
      depositIndex := p.currentDepositIndex }
    totalBorrows := newTotalBorrows
    totalDeposits := newTotalDeposits }
  p.transferOut c actualSeized

/-- The receiver of a flash loan: whether it is the zero address or the pool itself, whether its
    callback succeeds, and what the pool holds after it.  It does not re-enter. -/
structure Receiver where
  unusable : Bool
  succeeds : Bool
  ending : Option Nat

def flashExecute (receiver : Receiver) (amount dataLen : Nat) :
    Except Nat Pool := do
  failIf (amount = 0) 1
  failIf (MAX_FLASH_CALLBACK_DATA_LEN < dataLen) 5
  failIf (p.paused = true) 20
  failIf (p.licn = none) 30
  failIf (receiver.unusable = true) 6
  let p := p.accrueInterest c.slot
  failIf (U64.saturatingSub p.totalDeposits p.totalBorrows < amount) 3
  let fee := flashLoanFee amount
  let newReserves ← okOr (U64.checkedAdd p.reserves fee) 4
  failIf (p.held < amount) 31
  let startingBalance := p.held
  let p ← mapErr (fun _ => 32) (p.transferOut c amount)
  failIf (receiver.succeeds = false) 33
  let requiredBalance ← okOr (U64.checkedAdd startingBalance fee) 4
  let endingBalance ← okOr receiver.ending 34
  failIf (endingBalance < requiredBalance) 34
  pure { p with reserves := newReserves, held := endingBalance }

def withdrawReserves (caller : Pubkey) (amount : Nat) :
    Except Nat Pool := do
  failIf (c.caller ≠ caller) 200
  failIf (caller ≠ p.admin) 1
  failIf (amount = 0) 2
  failIf (p.reserves < amount) 3
  ({ p with reserves := p.reserves - amount } : Pool).transferOut c amount

/-- The switches of the admin: `pause`, `unpause`, `set_deposit_cap`, `set_reserve_factor` and
    `set_lichencoin_address`, which comes with what the pool holds of the token then. -/
inductive Setting where
  | pause
  | unpause
  | depositCap (cap : Nat)
  | reserveFactor (factor : Nat)
  | lichencoinAddress (token : Token) (balance : Nat)

def set (caller : Pubkey) (setting : Setting) : Except Nat Pool := do
  failIf (c.caller ≠ caller) 200
  failIf (caller ≠ p.admin) 1
  match setting with
  | .pause => if p.paused then .error 2 else .ok { p with paused := true }
  | .unpause => if p.paused then .ok { p with paused := false } else .error 2
  | .depositCap cap => .ok { p with depositCap := cap }
  | .reserveFactor factor => if 100 < factor then .error 2 else .ok { p with reserveFactor := factor }
  | .lichencoinAddress token balance =>
    if p.licn = none then .ok { p with licn := some token, held := balance } else .error 3

end Pool

/-! ## Runs -/

inductive Call where
  | deposit (depositor : Pubkey) (amount : Nat)
  | withdraw (depositor : Pubkey) (amount : Nat)
  | borrow (borrower : Pubkey) (amount : Nat)
  | repay (borrower : Pubkey) (amount : Nat)
  | liquidate (liquidator borrower : Pubkey) (repayAmount : Nat)
  | flashExecute (receiver : Pool.Receiver) (amount dataLen : Nat)
  | withdrawReserves (caller : Pubkey) (amount : Nat)
  | set (caller : Pubkey) (setting : Pool.Setting)

namespace Pool

def dispatch (p : Pool) (c : Context) : Call → Except Nat Pool
  | .deposit depositor amount => p.deposit c depositor amount
  | .withdraw depositor amount => p.withdraw c depositor amount
  | .borrow borrower amount => p.borrow c borrower amount
  | .repay borrower amount => p.repay c borrower amount
  | .liquidate liquidator borrower repayAmount => p.liquidate c liquidator borrower repayAmount
  | .flashExecute receiver amount dataLen => p.flashExecute c receiver amount dataLen
  | .withdrawReserves caller amount => p.withdrawReserves c caller amount
  | .set caller setting => p.set c caller setting

/-- One call; a non-zero return code leaves the pool as it was. -/
def perform (p : Pool) (x : Context × Call) : Pool :=
  match (p.credit x.1).dispatch x.1 x.2 with
  | .ok p' => p'
  | .error _ => p

/-- A sequence of calls. -/
def run (p : Pool) (calls : List (Context × Call)) : Pool := calls.foldl perform p

/-- What all users owe. -/
def currentBorrows (p : Pool) : Nat :=
  p.accounts.sumBy fun _ a => a.computeCurrentBorrow p.borrowIndex

/-- What all users have deposited. -/
def currentDeposits (p : Pool) : Nat :=
  p.accounts.sumBy fun _ a => a.computeCurrentDeposit p.currentDepositIndex

end Pool
end Lichen.ThallLend
