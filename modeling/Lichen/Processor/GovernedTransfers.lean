/-
  Governed wallets (`core/src/processor/governed_transfers.rs`, `core/src/multisig.rs`).

  A governed wallet is paid out by proposals.  A proposal takes its threshold, its timelock and its
  daily cap from the wallet's configuration when it is made, collects approvals, and executes as
  soon as it may: when it is proposed, when it is approved, or when somebody asks.
-/
import Lichen.Processor.Ledger
import Lichen.Staking.Epoch

open Base
open Lichen.Staking (slotToEpoch)
namespace Lichen.Processor

/-! ## Configuration -/

inductive GovernedTransferVelocityTier where
  | standard
  | elevated
  | extraordinary
  deriving DecidableEq, Repr

structure GovernedTransferVelocityPolicy where
  perTransferCapSpores : Nat
  dailyCapSpores : Nat
  elevatedThresholdSpores : Nat
  extraordinaryThresholdSpores : Nat
  elevatedAdditionalTimelockEpochs : Nat
  extraordinaryAdditionalTimelockEpochs : Nat
  deriving DecidableEq, Repr

namespace GovernedTransferVelocityPolicy

def tierForAmount (p : GovernedTransferVelocityPolicy) (amount : Nat) :
    GovernedTransferVelocityTier :=
  if p.extraordinaryThresholdSpores > 0 ∧ amount ≥ p.extraordinaryThresholdSpores then .extraordinary
  else if p.elevatedThresholdSpores > 0 ∧ amount ≥ p.elevatedThresholdSpores then .elevated
  else .standard

/-- The thresholds are bytes, and so is the number of signers where it is compared with them. -/
def requiredThreshold (baseThreshold signerCount : Nat) (tier : GovernedTransferVelocityTier) :
    Nat :=
  let maxThreshold := if signerCount < 256 then signerCount else 255
  let baseThreshold := min baseThreshold maxThreshold
  match tier with
  | .standard => baseThreshold
  | .elevated => min (min (baseThreshold + 1) 255) maxThreshold
  | .extraordinary => maxThreshold

def additionalTimelockEpochs (p : GovernedTransferVelocityPolicy) :
    GovernedTransferVelocityTier → Nat
  | .standard => 0
  | .elevated => p.elevatedAdditionalTimelockEpochs
  | .extraordinary => p.extraordinaryAdditionalTimelockEpochs

end GovernedTransferVelocityPolicy

structure GovernedWalletConfig where
  threshold : Nat
  signers : List Pubkey
  label : String
  timelockEpochs : Nat
  transferVelocityPolicy : Option GovernedTransferVelocityPolicy
  deriving DecidableEq, Repr

def GovernedWalletConfig.isAuthorized (config : GovernedWalletConfig) (signer : Pubkey) : Bool :=
  config.signers.contains signer

/-- The daily cap of a configuration; zero is none. -/
def GovernedWalletConfig.dailyCapSpores (config : GovernedWalletConfig) : Nat :=
  match config.transferVelocityPolicy with
  | some policy => policy.dailyCapSpores
  | none => 0

structure GovernedProposal where
  id : Nat
  source : Pubkey
  recipient : Pubkey
  amount : Nat
  approvals : List Pubkey
  threshold : Nat
  executeAfterEpoch : Nat
  velocityTier : GovernedTransferVelocityTier
  dailyCapSpores : Nat
  executed : Bool
  cancelled : Bool
  deriving DecidableEq, Repr

/-! ## State -/

/-- What the governed-transfer handlers read and write. -/
structure GovernedState where
  ledger : Ledger
  blockTimestamp : Option Nat
  proposalCounter : Nat
  proposals : HashMap Nat GovernedProposal
  dayVolume : HashMap (Pubkey × Nat) Nat

/-- The configurations, read from the committed state. -/
abbrev GovernedConfigs := Pubkey → Option GovernedWalletConfig

def SECONDS_PER_DAY : Nat := 86400

namespace GovernedState

section
variable (s : GovernedState)

def currentEpoch : Nat := slotToEpoch s.ledger.lastSlot

/-- `current_governed_transfer_day_bucket`. -/
def dayBucket : Nat :=
  s.blockTimestamp.getD s.ledger.lastSlot / SECONDS_PER_DAY

/-- `next_governed_proposal_id`. -/
def nextGovernedProposalId : Nat × GovernedState :=
  let next := U64.wrappingAdd s.proposalCounter 1
  (next, { s with proposalCounter := next })

def setGovernedProposal (p : GovernedProposal) : GovernedState :=
  { s with proposals := s.proposals.put p.id p }

/-- `consume_governed_transfer_daily_capacity`. -/
def consumeDailyCapacity (source : Pubkey) (amount dailyCapSpores : Nat) :
    Except String (Bool × GovernedState) :=
  if dailyCapSpores = 0 then .ok (true, s)
  else do
    let key := (source, s.dayBucket)
    let updatedVolume ← okOr (U64.checkedAdd ((s.dayVolume.get key).getD 0) amount)
      s!"Governed transfer volume overflow for {source}"
    if updatedVolume > dailyCapSpores then .ok (false, s)
    else .ok (true, { s with dayVolume := s.dayVolume.put key updatedVolume })

/-- `try_execute_governed_proposal`: whether it executed, with the proposal as it is then. -/
def tryExecute (p : GovernedProposal) :
    Except String (Bool × GovernedProposal × GovernedState) :=
  if p.cancelled = true ∨ p.executed = true ∨ p.approvals.length < p.threshold
      ∨ s.currentEpoch < p.executeAfterEpoch then .ok (false, p, s)
  else do
    let (granted, s) ← s.consumeDailyCapacity p.source p.amount p.dailyCapSpores
    if granted then do
      let ledger ← s.ledger.transfer p.source p.recipient p.amount
      .ok (true, { p with executed := true }, { s with ledger })
    else .ok (false, p, s)

end

/-! ## Instructions -/

structure GovernedTransferExecutionPolicy where
  threshold : Nat
  executeAfterEpoch : Nat
  velocityTier : GovernedTransferVelocityTier
  dailyCapSpores : Nat

/-- `governed_transfer_policy_snapshot`. -/
def policySnapshot (config : GovernedWalletConfig) (amount currentEpoch : Nat) :
    Except String GovernedTransferExecutionPolicy :=
  let executeAfterEpoch := U64.wrappingAdd currentEpoch config.timelockEpochs
  match config.transferVelocityPolicy with
  | none => .ok ⟨config.threshold, executeAfterEpoch, .standard, 0⟩
  | some policy => do
      failIf (policy.perTransferCapSpores > 0 ∧ amount > policy.perTransferCapSpores)
        (s!"Governed transfer amount {amount} exceeds per-transfer cap "
          ++ s!"{policy.perTransferCapSpores} for {config.label}")
      let tier := policy.tierForAmount amount
      .ok ⟨GovernedTransferVelocityPolicy.requiredThreshold config.threshold config.signers.length tier,
        U64.wrappingAdd executeAfterEpoch (policy.additionalTimelockEpochs tier), tier,
        policy.dailyCapSpores⟩

section
variable (configs : GovernedConfigs) (s : GovernedState)

/-- `system_propose_governed_transfer`, with the proposal it stores. -/
def proposeGovernedTransfer (proposer source recipient : Pubkey) (amount : Nat) :
    Except String (GovernedProposal × GovernedState) := do
  let config ← okOr (configs source) s!"Account {source} is not a governed wallet"
  failIf (config.isAuthorized proposer = false)
    s!"Proposer {proposer} is not an authorized signer for governed wallet {config.label}"
  let sourceAcct ← okOr (s.ledger.getAccount source) "Governed wallet account not found"
  failIf (sourceAcct.spendable < amount)
    s!"Governed wallet has insufficient spendable balance: {sourceAcct.spendable} < {amount}"
  let policy ← policySnapshot config amount s.currentEpoch
  let (id, s) := s.nextGovernedProposalId
  let (_, p, s) ← s.tryExecute
    { id, source, recipient, amount
      approvals := [proposer]
      threshold := policy.threshold
      executeAfterEpoch := policy.executeAfterEpoch
      velocityTier := policy.velocityTier
      dailyCapSpores := policy.dailyCapSpores
      executed := false
      cancelled := false }
  .ok (p, s.setGovernedProposal p)

/-- What the three control instructions begin with: a proposal that is still open, and a caller
    whom its wallet authorises. -/
def openProposal (id : Nat) (signer : Pubkey)
    (cancelledText refusedText : String) : Except String GovernedProposal := do
  let p ← okOr (s.proposals.get id) s!"Governed proposal {id} not found"
  failIf (p.executed = true) s!"Governed proposal {id} already executed"
  failIf (p.cancelled = true) s!"Governed proposal {id} {cancelledText}"
  let config ← okOr (configs p.source) "Source is no longer a governed wallet"
  failIf (config.isAuthorized signer = false)
    s!"{refusedText} is not authorized for this governed wallet"
  .ok p

/-- `system_approve_governed_transfer`. -/
def approveGovernedTransfer (approver : Pubkey)
    (id : Nat) : Except String (GovernedProposal × GovernedState) := do
  let p ← s.openProposal configs id approver "was cancelled" s!"Approver {approver}"
  failIf (p.approvals.contains approver = true)
    s!"Approver {approver} has already approved proposal {id}"
  let (_, p, s) ← s.tryExecute { p with approvals := p.approvals ++ [approver] }
  .ok (p, s.setGovernedProposal p)

/-- `governed_transfer_daily_cap_error`. -/
def dailyCapError (p : GovernedProposal) : String :=
  let currentVolume := (s.dayVolume.get (p.source, s.dayBucket)).getD 0
  s!"Governed transfer would exceed daily cap for {p.source}: {currentVolume} + {p.amount} > "
    ++ s!"{p.dailyCapSpores} on day {s.dayBucket}"

/-- `system_execute_governed_transfer`. -/
def executeGovernedTransfer (executor : Pubkey)
    (id : Nat) : Except String (GovernedProposal × GovernedState) := do
  let p ← s.openProposal configs id executor "was cancelled" s!"Executor {executor}"
  failIf (p.approvals.length < p.threshold)
    s!"Governed proposal {id} has {p.approvals.length} approvals but needs {p.threshold}"
  failIf (s.currentEpoch < p.executeAfterEpoch)
    s!"Governed proposal {id} is timelocked until epoch {p.executeAfterEpoch}"
  let (done, q, s') ← s.tryExecute p
  failIf (done = false) (s.dailyCapError p)
  .ok (q, s'.setGovernedProposal q)

/-- `system_cancel_governed_transfer`. -/
def cancelGovernedTransfer (canceller : Pubkey)
    (id : Nat) : Except String (GovernedProposal × GovernedState) := do
  let p ← s.openProposal configs id canceller "already cancelled" s!"Canceller {canceller}"
  let p := { p with cancelled := true }
  .ok (p, s.setGovernedProposal p)

/-- `u64::from_le_bytes(ix.data[1..9])`. -/
def operand (ix : Instruction) : Nat := ofLeBytes ((ix.data.drop 1).take 8)

/-- Instruction 21. -/
def systemProposeGovernedTransfer (ix : Instruction) : Except String (GovernedProposal × GovernedState) :=
  match ix.accounts with
  | proposer :: source :: recipient :: _ => do
      failIf (ix.data.length < 9) "ProposeGovernedTransfer: missing amount"
      s.proposeGovernedTransfer configs proposer source recipient (operand ix)
  | _ => .error "ProposeGovernedTransfer requires [proposer, source, recipient]"

end

/-- The shape of the control instructions: a caller and a proposal. -/
def controlInstruction (name caller : String) (ix : Instruction)
    (handler : Pubkey → Nat → Except String (GovernedProposal × GovernedState)) :
    Except String (GovernedProposal × GovernedState) :=
  match ix.accounts with
  | signer :: _ => do
      failIf (ix.data.length < 9) s!"{name}: missing proposal_id"
      handler signer (operand ix)
  | [] => .error s!"{name} requires [{caller}]"

section
variable (configs : GovernedConfigs) (s : GovernedState)

/-- Instruction 22. -/
def systemApproveGovernedTransfer (ix : Instruction) : Except String (GovernedProposal × GovernedState) :=
  controlInstruction "ApproveGovernedTransfer" "approver" ix (s.approveGovernedTransfer configs)

/-- Instruction 32. -/
def systemExecuteGovernedTransfer (ix : Instruction) : Except String (GovernedProposal × GovernedState) :=
  controlInstruction "ExecuteGovernedTransfer" "executor" ix (s.executeGovernedTransfer configs)

/-- Instruction 33. -/
def systemCancelGovernedTransfer (ix : Instruction) : Except String (GovernedProposal × GovernedState) :=
  controlInstruction "CancelGovernedTransfer" "canceller" ix (s.cancelGovernedTransfer configs)

end

/-! ## What the handlers do -/

variable {s : GovernedState}

/-- The volumes once a proposal has been paid out. -/
def charged (s : GovernedState) (p : GovernedProposal) : HashMap (Pubkey × Nat) Nat :=
  if p.dailyCapSpores = 0 then s.dayVolume
  else s.dayVolume.put (p.source, s.dayBucket)
    ((s.dayVolume.get (p.source, s.dayBucket)).getD 0 + p.amount)

/-- When a proposal may be paid out. -/
structure Due (s : GovernedState) (p : GovernedProposal) : Prop where
  notCancelled : p.cancelled = false
  notExecuted : p.executed = false
  approved : p.threshold ≤ p.approvals.length
  unlocked : p.executeAfterEpoch ≤ s.currentEpoch
  capacity : p.dailyCapSpores ≠ 0 →
    (s.dayVolume.get (p.source, s.dayBucket)).getD 0 + p.amount ≤ p.dailyCapSpores

/-- **An attempt to execute** pays a proposal that is due, or changes nothing. -/
theorem tryExecute_eq_ok (h : s.tryExecute p = .ok (done, q, s')) : done = false ∧ q = p ∧ s' = s
      ∨ done = true ∧ Due s p ∧ q = { p with executed := true } ∧ ∃ ledger,
        s.ledger.transfer p.source p.recipient p.amount = .ok ledger
          ∧ s' = { s with ledger, dayVolume := s.charged p } := by
  unfold tryExecute at h
  split at h
  · grind
  · next hopen =>
    simp only [not_or, Bool.not_eq_true, not_lt] at hopen
    obtain ⟨hcancelled, hexecuted, happroved, hepoch⟩ := hopen
    rw [bind_eq_ok] at h
    obtain ⟨⟨granted, s₁⟩, hconsume, h⟩ := h
    unfold consumeDailyCapacity at hconsume
    by_cases hcap : p.dailyCapSpores = 0
    · rw [if_pos hcap] at hconsume
      cases hconsume
      simp only [if_true, bind_eq_ok, Except.ok.injEq, Prod.mk.injEq] at h
      obtain ⟨ledger, htransfer, rfl, rfl, rfl⟩ := h
      refine .inr ⟨rfl, ⟨hcancelled, hexecuted, happroved, hepoch, fun hne => absurd hcap hne⟩, rfl,
        ledger, htransfer, ?_⟩
      unfold charged
      rw [if_pos hcap]
    · rw [if_neg hcap] at hconsume
      simp only [ok_rules] at hconsume
      obtain ⟨updated, ⟨-, rfl⟩, hconsume⟩ := hconsume
      split at hconsume
      · grind
      · next hle =>
        cases hconsume
        simp only [if_true, bind_eq_ok, Except.ok.injEq, Prod.mk.injEq] at h
        obtain ⟨ledger, htransfer, rfl, rfl, rfl⟩ := h
        refine .inr ⟨rfl, ⟨hcancelled, hexecuted, happroved, hepoch, fun _ => not_lt.mp hle⟩,
          rfl, ledger, htransfer, ?_⟩
        unfold charged
        rw [if_neg hcap]

/-- The proposal a control instruction finds. -/
theorem openProposal_eq_ok {configs id signer cancelledText refusedText}
    (h : s.openProposal configs id signer cancelledText refusedText = .ok p) :
    s.proposals.get id = some p ∧ p.executed = false ∧ p.cancelled = false
      ∧ ∃ config, configs p.source = some config ∧ config.isAuthorized signer = true := by
  unfold openProposal at h
  grind

/-- The snapshot takes the wallet's daily cap. -/
theorem dailyCap_of_policySnapshot
    (h : policySnapshot config amount epoch = .ok policy) :
    policy.dailyCapSpores = config.dailyCapSpores := by
  unfold policySnapshot at h
  unfold GovernedWalletConfig.dailyCapSpores
  grind

end GovernedState
end Lichen.Processor
