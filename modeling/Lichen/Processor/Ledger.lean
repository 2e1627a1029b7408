/-
  The accounts of a batch, and the native transfer (`core/src/state/batch_state.rs`).

  Every instruction that moves a native balance from one account to another does it through
  `transfer`, or writes accounts itself; what a transfer can change is said once, in
  `transfer_eq_ok`.
-/
import Lichen.Processor.Account

open Base
namespace Lichen.Processor

/-!
  Restrictions on accounts (`core/src/restrictions.rs`, `core/src/state/restriction_state.rs`).

  A record names a target, a mode and when it ends.  A native transfer is held against the records
  of the two accounts and of their native balance.
-/

inductive RestrictionTarget where
  | account (account : Pubkey)
  | accountAsset (account asset : Pubkey)
  | asset (asset : Pubkey)
  | contract (contract : Pubkey)
  | codeHash (hash : Hash)
  | bridgeRoute (chainId asset : String)
  | protocolModule (module : Nat)
  deriving DecidableEq, Repr

inductive RestrictionMode where
  | outgoingOnly
  | incomingOnly
  | bidirectional
  | frozenAmount (amount : Nat)
  | assetPaused
  | executeBlocked
  | stateChangingBlocked
  | quarantined
  | deployBlocked
  | routePaused
  | protocolPaused
  | terminated
  deriving DecidableEq, Repr

inductive RestrictionStatus where
  | active
  | expired
  | lifted
  | superseded
  deriving DecidableEq, Repr

/-- A `RestrictionRecord`, in the fields that decide what it blocks. -/
structure RestrictionRecord where
  id : Nat
  target : RestrictionTarget
  mode : RestrictionMode
  status : RestrictionStatus
  expiresAtSlot : Option Nat
  deriving DecidableEq, Repr

def RestrictionRecord.effectiveStatus (r : RestrictionRecord) (slot : Nat) : RestrictionStatus :=
  if r.status = .active then
    match r.expiresAtSlot with
    | some expiresAtSlot => if slot ≥ expiresAtSlot then .expired else r.status
    | none => r.status
  else r.status

def RestrictionRecord.isEffectivelyActive (r : RestrictionRecord) (slot : Nat) : Bool :=
  decide (r.effectiveStatus slot = .active)

inductive RestrictionTransferDirection where
  | outgoing
  | incoming
  deriving DecidableEq, Repr

def transferableAfterFrozenAmount (spendable frozenAmount : Nat) : Nat :=
  U64.saturatingSub spendable frozenAmount

def restrictionModeBlocksTransfer (mode : RestrictionMode)
    (direction : RestrictionTransferDirection) (amount spendable : Nat) : Bool :=
  match mode, direction with
  | .outgoingOnly, .outgoing => true
  | .incomingOnly, .incoming => true
  | .bidirectional, _ => true
  | .frozenAmount frozenAmount, .outgoing =>
      decide (amount > transferableAfterFrozenAmount spendable frozenAmount)
  | _, _ => false

/-- `NATIVE_LICN_ASSET_ID`, `LICN_NATIVE_ASSET_ID_V1` and zeros. -/
def NATIVE_LICN_ASSET_ID : Pubkey :=
  ⟨0x4c49434e5f4e41544956455f41535345545f49445f5631000000000000000000⟩

section
variable (records : List RestrictionRecord)

/-- `get_active_restrictions_for_target`: records are kept by ascending id. -/
def activeRestrictionsFor (target : RestrictionTarget)
    (slot : Nat) : List RestrictionRecord :=
  records.filter fun r => decide (r.target = target) && r.isEffectivelyActive slot

/-- `is_asset_restricted`: only the first active record of the asset is looked at. -/
def isAssetRestricted (asset : Pubkey) (slot : Nat) : Bool :=
  ((activeRestrictionsFor records (.asset asset) slot).take 1).any fun r =>
    decide (r.mode = .assetPaused)

/-- `is_account_restricted`, for a movement of `asset`. -/
def isAccountRestricted (account : Pubkey)
    (direction : RestrictionTransferDirection) (asset : Pubkey) (amount spendable slot : Nat) :
    Bool :=
  ((activeRestrictionsFor records (.account account) slot).any fun r =>
      restrictionModeBlocksTransfer r.mode direction amount spendable)
    || ((activeRestrictionsFor records (.accountAsset account asset) slot).any fun r =>
      restrictionModeBlocksTransfer r.mode direction amount spendable)
    || isAssetRestricted records asset slot

/-- `ensure_native_transfer_not_restricted`. -/
def ensureNativeTransferNotRestricted (account : Pubkey)
    (direction : RestrictionTransferDirection) (amount spendable slot : Nat) (role : String) :
    Except String Unit := do
  forEach (activeRestrictionsFor records (.account account) slot) fun r =>
    failIf (restrictionModeBlocksTransfer r.mode direction amount spendable)
      s!"Native transfer blocked by active {role} account restriction {r.id}"
  forEach (activeRestrictionsFor records (.accountAsset account NATIVE_LICN_ASSET_ID) slot) fun r =>
    failIf (restrictionModeBlocksTransfer r.mode direction amount spendable)
      s!"Native transfer blocked by active {role} account-asset restriction {r.id}"

/-- The records in force against an account's native balance. -/
def nativeRestrictions (account : Pubkey) (slot : Nat) :
    List RestrictionRecord :=
  activeRestrictionsFor records (.account account) slot
    ++ activeRestrictionsFor records (.accountAsset account NATIVE_LICN_ASSET_ID) slot

end

theorem ensureNativeTransferNotRestricted_eq_ok
    : ensureNativeTransferNotRestricted records account direction amount spendable slot role = .ok ()
      ↔ ∀ r ∈ nativeRestrictions records account slot,
          restrictionModeBlocksTransfer r.mode direction amount spendable = false := by
  grind [ensureNativeTransferNotRestricted, nativeRestrictions]

/-! ## Accounts -/

/-- The accounts and what a transfer reads besides. -/
structure Ledger where
  accounts : HashMap Pubkey Account
  restrictions : List RestrictionRecord
  lastSlot : Nat

namespace Ledger

section
variable (s : Ledger)

def getAccount (pubkey : Pubkey) : Option Account := s.accounts.get pubkey

def putAccount (pubkey : Pubkey) (account : Account) : Ledger :=
  { s with accounts := s.accounts.put pubkey account }

/-- What an account is opened as when it is paid. -/
def receiver (pubkey : Pubkey) : Account :=
  (s.getAccount pubkey).getD (Account.new 0 pubkey)

/-- A payment wakes a dormant account. -/
def wake (a : Account) : Account :=
  if a.dormant then { a with dormant := false, missedRentEpochs := 0 } else a

/-- `StateBatch::transfer`. -/
def transfer (source target : Pubkey) (spores : Nat) : Except String Ledger :=
  if source = target then .ok s
  else do
    let fromAccount ← okOr (s.getAccount source) "Sender account not found"
    ensureNativeTransferNotRestricted s.restrictions source .outgoing spores fromAccount.spendable
      s.lastSlot "sender"
    ensureNativeTransferNotRestricted s.restrictions target .incoming spores 0 s.lastSlot "recipient"
    let fromAccount ← mapErr (fun _ => "Insufficient spendable balance")
      (fromAccount.deductSpendable spores)
    let toAccount ← (s.receiver target).addSpendable spores
    .ok ((s.putAccount source fromAccount).putAccount target (wake toAccount))

/-- The spendable balance of an account, zero if there is none. -/
def spendableOf (pubkey : Pubkey) : Nat :=
  ((s.getAccount pubkey).map Account.spendable).getD 0

/-- The total balance of an account, zero if there is none. -/
def sporesOf (pubkey : Pubkey) : Nat :=
  ((s.getAccount pubkey).map Account.spores).getD 0

/-- The locked balance of an account, zero if there is none. -/
def lockedOf (pubkey : Pubkey) : Nat :=
  ((s.getAccount pubkey).map Account.locked).getD 0

/-- The spores of all accounts. -/
def sporesTotal : Nat := s.accounts.sumBy fun _ a => a.spores

theorem getAccount_putAccount (k k' : Pubkey) (a : Account) :
    (s.putAccount k a).getAccount k' = if k' = k then some a else s.getAccount k' :=
  HashMap.get_put _ _ _ _

/-- Writing an account puts its spores in place of those it had. -/
theorem sporesTotal_putAccount (k : Pubkey) (a : Account) :
    (s.putAccount k a).sporesTotal + s.sporesOf k = s.sporesTotal + a.spores :=
  HashMap.sumBy_put s.accounts (fun _ a => a.spores) k a

end

variable {s : Ledger} {k : Pubkey}

theorem sporesOf_of_get (h : s.getAccount k = some a) : s.sporesOf k = a.spores := by
  unfold sporesOf
  rw [h]
  rfl

theorem sporesOf_eq_receiver (s : Ledger) (k : Pubkey) : s.sporesOf k = (s.receiver k).spores := by
  unfold sporesOf receiver
  cases s.getAccount k with
  | some a => rfl
  | none => rfl

variable {spores : Nat}

/-- **What a transfer does.** -/
theorem transfer_eq_ok (h : s.transfer source target spores = .ok s') : source = target ∧ s' = s
      ∨ source ≠ target ∧ ∃ fromAccount, s.getAccount source = some fromAccount
        ∧ spores ≤ fromAccount.spendable ∧ spores ≤ fromAccount.spores
        ∧ (∀ r ∈ nativeRestrictions s.restrictions source s.lastSlot,
            restrictionModeBlocksTransfer r.mode .outgoing spores fromAccount.spendable = false)
        ∧ (s.receiver target).spores + spores < 2 ^ 64
        ∧ (s.receiver target).spendable + spores < 2 ^ 64
        ∧ s' = (s.putAccount source { fromAccount with
              spores := fromAccount.spores - spores
              spendable := fromAccount.spendable - spores }).putAccount target
            (wake { s.receiver target with
              spores := (s.receiver target).spores + spores
              spendable := (s.receiver target).spendable + spores }) := by
  unfold transfer at h
  by_cases hsame : source = target
  · rw [if_pos hsame, Except.ok.injEq] at h
    exact .inl ⟨hsame, h.symm⟩
  · rw [if_neg hsame] at h
    simp only [ok_rules, mapErr_eq_ok, ensureNativeTransferNotRestricted_eq_ok] at h
    simp only [Account.deductSpendable_eq_ok, Account.addSpendable_eq_ok, Except.ok.injEq] at h
    obtain ⟨fromAccount, hget, hout, -, _, ⟨hle, hle', rfl⟩, _, ⟨hlt, hlt', rfl⟩, rfl⟩ := h
    exact .inr ⟨hsame, fromAccount, hget, hle, hle', hout, hlt, hlt', rfl⟩

@[simp] theorem wake_spores (a : Account) : (wake a).spores = a.spores := by
  unfold wake
  split <;> rfl

/-- A transfer moves spores and makes none. -/
theorem transfer_sporesTotal
    (h : s.transfer source target spores = .ok s') : s'.sporesTotal = s.sporesTotal := by
  rcases transfer_eq_ok h with ⟨-, rfl⟩ | ⟨hne, a, hget, -, hle', -, -, -, rfl⟩
  · rfl
  · generalize hdebited : ({ a with
        spores := a.spores - spores
        spendable := a.spendable - spores } : Account) = debited
    have hspores : debited.spores = a.spores - spores := by rw [← hdebited]
    have hrest : (s.putAccount source debited).sporesOf target = (s.receiver target).spores := by
      rw [← sporesOf_eq_receiver]
      unfold sporesOf
      rw [getAccount_putAccount, if_neg (Ne.symm hne)]
    generalize s.receiver target = r at hrest ⊢
    generalize hcredited : (wake { r with
        spores := r.spores + spores
        spendable := r.spendable + spores } : Account) = credited
    have hspores' : credited.spores = r.spores + spores := by rw [← hcredited, wake_spores]
    have hsource := sporesTotal_putAccount s source debited
    have htarget := sporesTotal_putAccount (s.putAccount source debited) target credited
    rw [sporesOf_of_get hget] at hsource
    omega

/-! ## Single debits and credits -/

/-- An account read, charged and written back; no restriction is asked. -/
def debit (s : Ledger) (pubkey : Pubkey) (spores : Nat) (missing : String) :
    Except String Ledger := do
  let account ← okOr (s.getAccount pubkey) missing
  let account ← account.deductSpendable spores
  pure (s.putAccount pubkey account)

/-- An account read, opened if there is none, paid and written back; no restriction is asked. -/
def credit (s : Ledger) (pubkey : Pubkey) (spores : Nat) : Except String Ledger := do
  let account ← (s.receiver pubkey).addSpendable spores
  pure (s.putAccount pubkey account)

theorem debit_eq_ok : s.debit k spores missing = .ok s'
      ↔ ∃ a, s.getAccount k = some a ∧ spores ≤ a.spendable ∧ spores ≤ a.spores
        ∧ s' = s.putAccount k { a with
            spores := a.spores - spores
            spendable := a.spendable - spores } := by
  unfold debit
  simp only [ok_rules, Account.deductSpendable_eq_ok]
  grind

theorem credit_eq_ok : s.credit k spores = .ok s'
      ↔ (s.receiver k).spores + spores < 2 ^ 64 ∧ (s.receiver k).spendable + spores < 2 ^ 64
        ∧ s' = s.putAccount k { s.receiver k with
            spores := (s.receiver k).spores + spores
            spendable := (s.receiver k).spendable + spores } := by
  grind [credit, Account.addSpendable_eq_ok]

theorem debit_sporesTotal
    (h : s.debit k spores missing = .ok s') : s'.sporesTotal + spores = s.sporesTotal := by
  grind [debit_eq_ok, sporesTotal_putAccount, sporesOf_of_get]

theorem credit_sporesTotal
    (h : s.credit k spores = .ok s') : s'.sporesTotal = s.sporesTotal + spores := by
  grind [credit_eq_ok, sporesTotal_putAccount, sporesOf_eq_receiver]

/-! ## Ledgers of balanced accounts -/

/-- The parts of every account add up to its total. -/
def AllBalanced (s : Ledger) : Prop := ∀ k a, s.getAccount k = some a → a.Balanced

theorem AllBalanced.put (h : s.AllBalanced) (ha : a.Balanced) : (s.putAccount k a).AllBalanced := by
  grind [getAccount_putAccount, AllBalanced]

theorem AllBalanced.receiver (h : s.AllBalanced) (k : Pubkey) : (s.receiver k).Balanced := by
  unfold Ledger.receiver
  cases hget : s.getAccount k with
  | some a => exact h k a hget
  | none => exact Account.balanced_new 0 k

theorem AllBalanced.debit (h : s.AllBalanced)
    (hdebit : s.debit k spores missing = .ok s') : s'.AllBalanced := by
  obtain ⟨a, hget, hle, -, rfl⟩ := debit_eq_ok.mp hdebit
  have ha := h k a hget
  unfold Account.Balanced at ha
  refine h.put ?_
  show a.spores - spores = a.spendable - spores + a.staked + a.locked
  omega

theorem AllBalanced.credit (h : s.AllBalanced)
    (hcredit : s.credit k spores = .ok s') : s'.AllBalanced := by
  obtain ⟨-, -, rfl⟩ := credit_eq_ok.mp hcredit
  have ha := h.receiver k
  generalize s.receiver k = r at ha ⊢
  unfold Account.Balanced at ha
  refine h.put ?_
  show r.spores + spores = r.spendable + spores + r.staked + r.locked
  omega

end Ledger
end Lichen.Processor
