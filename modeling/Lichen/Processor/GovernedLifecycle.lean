/-
  The life of a governed proposal.

  A journal records what the instructions did: proposals made, approvals given, payouts, and
  cancellations.  Identifiers are 64-bit counters, so a proposal's life is read off the journal as
  the events of its id since it was proposed (`life`).  One instruction adds to the journal what it
  did (`govern`); over any run, a payout comes only in a life that has neither been paid out nor
  cancelled and that enough distinct authorised signers have approved, and the payouts of a wallet
  on one day stay within its cap.
-/
import Lichen.Processor.GovernedTransfers

open Base HashMap
namespace Lichen.Processor
open GovernedState List

/-! ## The journal -/

/-- A payout: what was moved, and when. -/
structure GovernedPayout where
  id : Nat
  source : Pubkey
  recipient : Pubkey
  amount : Nat
  day : Nat
  epoch : Nat
  deriving DecidableEq, Repr

inductive GovernedEvent where
  | proposed (p : GovernedProposal)
  | approved (id : Nat) (approver : Pubkey)
  | executed (x : GovernedPayout)
  | cancelled (id : Nat)
  deriving DecidableEq, Repr

namespace GovernedEvent

def id : GovernedEvent → Nat
  | proposed p => p.id
  | approved id _ => id
  | executed x => x.id
  | cancelled id => id

/-- Who approves by this event; a proposer approves. -/
def signer : GovernedEvent → Option Pubkey
  | proposed p => p.approvals.head?
  | approved _ approver => some approver
  | _ => none

def payout : GovernedEvent → Option GovernedPayout
  | executed x => some x
  | _ => none

/-- Proposing or approving. -/
def supports : GovernedEvent → Bool
  | proposed _ => true
  | approved _ _ => true
  | _ => false

end GovernedEvent

/-- The life of the proposal with an id, newest event first: its events since it was proposed. -/
def life (id : Nat) : List GovernedEvent → List GovernedEvent
  | [] => []
  | .proposed p :: older => if p.id = id then [.proposed p] else life id older
  | e :: older => if e.id = id then e :: life id older else life id older

/-- What a wallet has paid out on a day. -/
def paidOut (wallet : Pubkey) (day : Nat) (journal : List GovernedEvent) : Nat :=
  ((journal.filterMap GovernedEvent.payout).filter
    fun x => decide (x.source = wallet ∧ x.day = day)).foldr (fun x total => x.amount + total) 0

/-! ## Runs -/

/-- The payout recorded for a proposal that an instruction left executed. -/
def payoutOf (s : GovernedState) (p : GovernedProposal) : List GovernedEvent :=
  if p.executed then [.executed ⟨p.id, p.source, p.recipient, p.amount, s.dayBucket, s.currentEpoch⟩]
  else []

section
variable (configs : GovernedConfigs)

/-- One governed-transfer instruction, with what it adds to the journal, newest first. -/
def govern (s : GovernedState) (ix : Instruction) :
    Except String (List GovernedEvent × GovernedState) :=
  match ix.data with
  | 21 :: _ => do
      let (p, s') ← s.systemProposeGovernedTransfer configs ix
      .ok (payoutOf s p ++ [.proposed { p with executed := false }], s')
  | 22 :: _ => do
      let (p, s') ← s.systemApproveGovernedTransfer configs ix
      .ok (payoutOf s p ++ [.approved p.id (ix.accounts.headD default)], s')
  | 32 :: _ => do
      let (p, s') ← s.systemExecuteGovernedTransfer configs ix
      .ok (payoutOf s p, s')
  | 33 :: _ => do
      let (p, s') ← s.systemCancelGovernedTransfer configs ix
      .ok ([.cancelled p.id], s')
  | _ => .error "not a governed-transfer instruction"

/-- The instructions of one transaction. -/
def governAll :
    GovernedState × List GovernedEvent → List Instruction →
      Except String (GovernedState × List GovernedEvent) :=
  tryFold fun (s, journal) ix => do
    let (events, s') ← govern configs s ix
    .ok (s', events ++ journal)

/-- What reaches the governed wallets: transactions, and between them everything else, which may
    change accounts and restrictions and moves slot and block time on. -/
inductive GovernedInput where
  | transaction (instructions : List Instruction)
  | world (ledger : Ledger) (blockTimestamp : Option Nat)

/-- A failed transaction leaves nothing behind. -/
def GovernedInput.apply :
    GovernedState × List GovernedEvent → GovernedInput → GovernedState × List GovernedEvent
  | state, .transaction instructions =>
      match governAll configs state instructions with
      | .ok state' => state'
      | .error _ => state
  | (s, journal), .world ledger blockTimestamp => ({ s with ledger, blockTimestamp }, journal)

/-- A chain without proposals. -/
def GovernedState.fresh (ledger : Ledger) (blockTimestamp : Option Nat) : GovernedState where
  ledger := ledger
  blockTimestamp := blockTimestamp
  proposalCounter := 0
  proposals := ∅
  dayVolume := ∅

/-- A run from a chain without proposals: the state and the journal, newest event first. -/
def governedRun (ledger : Ledger) (blockTimestamp : Option Nat)
    (inputs : List GovernedInput) : GovernedState × List GovernedEvent :=
  inputs.foldl (GovernedInput.apply configs) (.fresh ledger blockTimestamp, [])

/-! ## Rightful payouts -/

/-- A payout after the given life was right: the proposal had been made with this source, recipient
    and amount and was neither paid out nor cancelled since, its timelock was over, and at least its
    threshold of distinct signers, all authorised, had approved it. -/
def Rightful (x : GovernedPayout)
    (events : List GovernedEvent) : Prop :=
  ∃ p config, events.getLast? = some (.proposed p) ∧ p.source = x.source
    ∧ p.recipient = x.recipient ∧ p.amount = x.amount ∧ (∀ e ∈ events, e.supports = true)
    ∧ configs x.source = some config ∧ (events.filterMap GovernedEvent.signer).Nodup
    ∧ (∀ a ∈ events.filterMap GovernedEvent.signer, config.isAuthorized a = true)
    ∧ p.threshold ≤ (events.filterMap GovernedEvent.signer).length ∧ p.executeAfterEpoch ≤ x.epoch

end

/-- A stored proposal and its life. -/
structure Tracked (configs : GovernedConfigs) (p : GovernedProposal) (events : List GovernedEvent) :
    Prop where
  born : ∃ p₀, events.getLast? = some (.proposed p₀) ∧ p₀.source = p.source
    ∧ p₀.recipient = p.recipient ∧ p₀.amount = p.amount ∧ p₀.threshold = p.threshold
    ∧ p₀.executeAfterEpoch = p.executeAfterEpoch
  still : p.executed = false → p.cancelled = false → ∀ e ∈ events, e.supports = true
  signers : p.executed = false → p.cancelled = false →
    (events.filterMap GovernedEvent.signer).reverse = p.approvals
  distinct : p.approvals.Nodup
  authorized : ∃ config, configs p.source = some config
    ∧ config.dailyCapSpores = p.dailyCapSpores ∧ ∀ a ∈ p.approvals, config.isAuthorized a = true

/-- **What every run keeps.** -/
structure GovernedInv (configs : GovernedConfigs) (s : GovernedState)
    (journal : List GovernedEvent) : Prop where
  tracked : ∀ id p, s.proposals.get id = some p → p.id = id ∧ Tracked configs p (life id journal)
  rightful : ∀ x older, .executed x :: older <:+ journal → Rightful configs x (life x.id older)
  volume : ∀ wallet config, configs wallet = some config → config.dailyCapSpores ≠ 0 → ∀ day,
    paidOut wallet day journal = (s.dayVolume.get (wallet, day)).getD 0
      ∧ paidOut wallet day journal ≤ config.dailyCapSpores

variable {configs : GovernedConfigs} {s s' : GovernedState} {journal : List GovernedEvent}

variable {id : Nat}

theorem life_of_ne (h : e.id ≠ id) : life id (e :: journal) = life id journal := by
  cases e with
  | proposed p => exact if_neg h
  | approved i a => exact if_neg h
  | executed x => exact if_neg h
  | cancelled i => exact if_neg h

theorem life_proposed (p : GovernedProposal) :
    life p.id (.proposed p :: journal) = [.proposed p] := if_pos rfl

theorem paidOut_of_none (h : e.payout = none) (wallet : Pubkey) (day : Nat) :
    paidOut wallet day (e :: journal) = paidOut wallet day journal := by
  unfold paidOut
  rw [filterMap_cons_none h]

theorem paidOut_executed (x : GovernedPayout) (wallet : Pubkey) (day : Nat) :
    paidOut wallet day (.executed x :: journal)
      = (if x.source = wallet ∧ x.day = day then x.amount else 0) + paidOut wallet day journal := by
  grind [GovernedEvent.payout, paidOut]

variable {x : GovernedPayout}

/-- Payouts among the events are not changed by an event that is none. -/
theorem suffix_of_payout_none (h : e.payout = none)
    (hsuffix : .executed x :: older <:+ e :: journal) :
    .executed x :: older <:+ journal := by
  rcases suffix_cons_iff.mp hsuffix with heq | hrest
  · rw [List.cons.injEq] at heq
    rw [← heq.1] at h
    exact absurd h (by simp [GovernedEvent.payout])
  · exact hrest

/-- A new event that pays nothing out. -/
theorem GovernedInv.noted (h : GovernedInv configs s journal)
    (he : e.payout = none) (hvolume : s'.dayVolume = s.dayVolume)
    (htracked : ∀ id p, s'.proposals.get id = some p →
      p.id = id ∧ Tracked configs p (life id (e :: journal))) :
    GovernedInv configs s' (e :: journal) := by
  refine ⟨htracked, fun x older hsuffix => h.rightful x older (suffix_of_payout_none he hsuffix), ?_⟩
  grind [paidOut_of_none, volume]

variable {events : List GovernedEvent}

/-- The life of a proposal that is still open, and due, makes its payout rightful. -/
theorem Tracked.rightful (h : Tracked configs p events) (hdue : Due s p) :
    Rightful configs ⟨p.id, p.source, p.recipient, p.amount, s.dayBucket, s.currentEpoch⟩ events := by
  obtain ⟨p₀, hlast, hsource, hrecipient, hamount, hthreshold, hafter⟩ := h.born
  obtain ⟨config, hconfig, -, hauth⟩ := h.authorized
  have hsigners := h.signers hdue.notExecuted hdue.notCancelled
  refine ⟨p₀, config, hlast, hsource, hrecipient, hamount,
    h.still hdue.notExecuted hdue.notCancelled, hconfig, ?_, ?_, ?_, ?_⟩
  · rw [← nodup_reverse, hsigners]
    exact h.distinct
  · grind
  · rw [← length_reverse, hsigners, hthreshold]
    exact hdue.approved
  · rw [hafter]
    exact hdue.unlocked

/-- A paid proposal stays tracked. -/
theorem Tracked.executed (h : Tracked configs p events) :
    Tracked configs { p with executed := true } (.executed x :: events) := by
  obtain ⟨p₀, hlast, hfields⟩ := h.born
  refine ⟨⟨p₀, ?_, hfields⟩, fun hfalse => absurd hfalse (by simp),
    fun hfalse => absurd hfalse (by simp), h.distinct, h.authorized⟩
  rw [List.getLast?_cons_of_ne_nil, hlast]
  rintro rfl
  simp at hlast

/-- The volume of a wallet and day once a proposal has been paid out. -/
theorem getD_charged (s : GovernedState) (hcap : p.source = wallet → p.dailyCapSpores ≠ 0) :
    ((s.charged p).get (wallet, day)).getD 0
      = (if p.source = wallet ∧ s.dayBucket = day then p.amount else 0)
        + (s.dayVolume.get (wallet, day)).getD 0 := by
  unfold charged
  grind

/-- **An attempt** on an open proposal with a journal that already has what led to it. -/
theorem GovernedInv.attempt
    (h : GovernedInv configs { s with proposals := s.proposals.remove p.id } journal)
    (hp : Tracked configs p (life p.id journal)) (hexecuted : p.executed = false)
    (hcall : s.tryExecute p = .ok (done, q, s')) :
    GovernedInv configs (s'.setGovernedProposal q) (payoutOf s q ++ journal) := by
  have hothers : ∀ id p', id ≠ p.id → s.proposals.get id = some p' →
      p'.id = id ∧ Tracked configs p' (life id journal) := fun id p' hne hget =>
    h.tracked id p' (by rw [get_remove_ne _ hne]; exact hget)
  rcases tryExecute_eq_ok hcall with ⟨-, rfl, rfl⟩ | ⟨-, hdue, rfl, ledger, -, rfl⟩
  · unfold payoutOf
    rw [hexecuted]
    refine ⟨fun id p' hget => ?_, h.rightful, h.volume⟩
    have hget' : (s'.proposals.put q.id q).get id = some p' := hget
    grind
  · have hpay : payoutOf s { p with executed := true } = [.executed ⟨p.id, p.source, p.recipient,
        p.amount, s.dayBucket, s.currentEpoch⟩] := rfl
    rw [hpay, singleton_append]
    refine ⟨fun id p' hget => ?_, fun x older hsuffix => ?_, fun wallet config hconfig hcap day => ?_⟩
    · have hget' : (s.proposals.put p.id { p with executed := true }).get id = some p' := hget
      rw [get_put] at hget'
      by_cases hid : id = p.id
      · rw [if_pos hid, Option.some.injEq] at hget'
        subst hget' hid
        refine ⟨rfl, ?_⟩
        rw [show life p.id (.executed ⟨p.id, p.source, p.recipient, p.amount, s.dayBucket,
          s.currentEpoch⟩ :: journal) = _ from if_pos rfl]
        exact hp.executed
      · rw [if_neg hid] at hget'
        rw [life_of_ne fun heq => hid heq.symm]
        exact hothers id p' hid hget'
    · rcases suffix_cons_iff.mp hsuffix with heq | hrest
      · grind [Tracked.rightful]
      · exact h.rightful x older hrest
    · obtain ⟨hvolume, hle⟩ := h.volume wallet config hconfig hcap day
      have hown : p.source = wallet → config.dailyCapSpores = p.dailyCapSpores := by
        rintro rfl
        obtain ⟨config', hconfig', hcap', -⟩ := hp.authorized
        rw [hconfig, Option.some.injEq] at hconfig'
        rw [hconfig', hcap']
      have hcharge : p.source = wallet → p.dailyCapSpores ≠ 0 := fun hw => hown hw ▸ hcap
      rw [paidOut_executed]
      refine ⟨?_, ?_⟩
      · rw [hvolume]
        exact (getD_charged s hcharge).symm
      · split
        · next hboth =>
          obtain ⟨rfl, rfl⟩ := hboth
          rw [hvolume, add_comm, hown rfl]
          exact hdue.capacity (hcharge rfl)
        · rw [zero_add]
          exact hle

/-! ## One instruction -/

section
variable (h : GovernedInv configs s journal)
include h

/-- A proposal that is put aside does not matter. -/
theorem GovernedInv.without (id : Nat) :
    GovernedInv configs { s with proposals := s.proposals.remove id } journal := by
  refine ⟨fun i p hget => ?_, h.rightful, h.volume⟩
  grind [tracked]

/-- **Proposing.** -/
theorem GovernedInv.propose
    (hcall : s.proposeGovernedTransfer configs proposer source recipient amount = .ok (p, s')) :
    GovernedInv configs s' (payoutOf s p ++ .proposed { p with executed := false } :: journal) := by
  unfold proposeGovernedTransfer at hcall
  simp only [ok_rules, Bool.not_eq_false] at hcall
  obtain ⟨config, hconfig, hauth, account, -, -, policy, hpolicy, ⟨done, q, s₁⟩, hexec, hput⟩ := hcall
  cases hput
  have hcap := dailyCap_of_policySnapshot hpolicy
  set p₀ : GovernedProposal :=
    { id := s.nextGovernedProposalId.1, source, recipient, amount
      approvals := [proposer]
      threshold := policy.threshold
      executeAfterEpoch := policy.executeAfterEpoch
      velocityTier := policy.velocityTier
      dailyCapSpores := policy.dailyCapSpores
      executed := false
      cancelled := false } with hp₀
  have hq : { q with executed := false } = p₀ := by
    rcases tryExecute_eq_ok hexec with ⟨-, rfl, -⟩ | ⟨-, -, rfl, -⟩ <;> rfl
  rw [hq]
  have htracked : Tracked configs p₀ (life p₀.id (.proposed p₀ :: journal)) := by
    rw [life_proposed]
    refine ⟨⟨p₀, rfl, rfl, rfl, rfl, rfl, rfl⟩, fun _ _ e he => ?_, fun _ _ => rfl,
      nodup_singleton proposer, config, hconfig, hcap.symm, fun a ha => ?_⟩
    · rw [mem_singleton.mp he]
      rfl
    · rw [mem_singleton.mp ha]
      exact hauth
  refine .attempt (s := s.nextGovernedProposalId.2) ?_ htracked rfl hexec
  refine (h.without p₀.id).noted rfl rfl fun id p' hget => ?_
  have hget' : (s.proposals.remove p₀.id).get id = some p' := hget
  grind [tracked, life]

/-- **Approving.** -/
theorem GovernedInv.approve (hcall : s.approveGovernedTransfer configs approver id = .ok (p, s')) :
    GovernedInv configs s' (payoutOf s p ++ .approved p.id approver :: journal) := by
  unfold approveGovernedTransfer at hcall
  simp only [ok_rules] at hcall
  obtain ⟨p₀, hopen, hnew, ⟨done, q, s₁⟩, hexec, hput⟩ := hcall
  cases hput
  obtain ⟨hget, hexecuted, -, config, hconfig, hauth⟩ := openProposal_eq_ok hopen
  obtain ⟨rfl, ht⟩ := h.tracked id p₀ hget
  have hq : q.id = p₀.id := by
    rcases tryExecute_eq_ok hexec with ⟨-, rfl, -⟩ | ⟨-, -, rfl, -⟩ <;> rfl
  rw [hq]
  have hlife : life p₀.id (.approved p₀.id approver :: journal)
      = .approved p₀.id approver :: life p₀.id journal := if_pos rfl
  have htracked : Tracked configs { p₀ with approvals := p₀.approvals ++ [approver] }
      (life p₀.id (.approved p₀.id approver :: journal)) := by
    obtain ⟨first, hlast, hfields⟩ := ht.born
    obtain ⟨config', hconfig', hcap, hall⟩ := ht.authorized
    rw [hlife]
    refine ⟨⟨first, ?_, hfields⟩, fun _ _ e he => ?_, fun _ _ => ?_, ?_, config', hconfig', hcap,
      fun a ha => ?_⟩
    · grind
    · grind [Tracked.still, GovernedEvent.supports]
    · grind [GovernedEvent.signer, Tracked.signers]
    · grind [Tracked.distinct]
    · grind
  refine .attempt ?_ htracked hexecuted hexec
  refine (h.without p₀.id).noted rfl rfl fun id p' hget => ?_
  have hget' : (s.proposals.remove p₀.id).get id = some p' := hget
  obtain ⟨hne, hold⟩ := get_remove_cases hget'
  rw [life_of_ne (e := .approved p₀.id approver) fun heq => hne heq.symm]
  exact h.tracked id p' hold

/-- **Executing.** -/
theorem GovernedInv.execute (hcall : s.executeGovernedTransfer configs executor id = .ok (p, s')) :
    GovernedInv configs s' (payoutOf s p ++ journal) := by
  unfold executeGovernedTransfer at hcall
  simp only [ok_rules] at hcall
  obtain ⟨p₀, hopen, -, -, ⟨done, q, s₁⟩, hexec, -, hput⟩ := hcall
  cases hput
  obtain ⟨hget, hexecuted, -, -⟩ := openProposal_eq_ok hopen
  obtain ⟨rfl, ht⟩ := h.tracked id p₀ hget
  exact .attempt (h.without p₀.id) ht hexecuted hexec

/-- **Cancelling.** -/
theorem GovernedInv.cancel (hcall : s.cancelGovernedTransfer configs canceller id = .ok (p, s')) :
    GovernedInv configs s' (.cancelled p.id :: journal) := by
  unfold cancelGovernedTransfer at hcall
  simp only [bind_eq_ok] at hcall
  obtain ⟨p₀, hopen, hput⟩ := hcall
  obtain ⟨rfl, rfl⟩ := Prod.mk.inj (Except.ok.inj hput)
  obtain ⟨hget, -, -, -⟩ := openProposal_eq_ok hopen
  obtain ⟨rfl, ht⟩ := h.tracked id p₀ hget
  refine h.noted rfl rfl fun id p' hget => ?_
  have hget' : (s.proposals.put p₀.id { p₀ with cancelled := true }).get id = some p' := hget
  rw [get_put] at hget'
  split at hget'
  · next hid =>
    cases hget'
    subst hid
    refine ⟨rfl, ?_⟩
    rw [show life p₀.id (.cancelled p₀.id :: journal) = _ from if_pos rfl]
    obtain ⟨first, hlast, hfields⟩ := ht.born
    refine ⟨⟨first, ?_, hfields⟩, fun _ hfalse => absurd hfalse (by simp),
      fun _ hfalse => absurd hfalse (by simp), ht.distinct, ht.authorized⟩
    grind
  · next hne =>
    rw [life_of_ne (e := .cancelled p₀.id) fun heq => hne heq.symm]
    exact h.tracked id p' hget'

end

variable {ix : Instruction}

/-- What a control instruction calls. -/
theorem controlInstruction_eq_ok (h : controlInstruction name caller ix handler = .ok r) :
    handler (ix.accounts.headD default) (operand ix) = .ok r := by
  grind [controlInstruction]

/-- The four instructions, with what each adds to the journal. -/
theorem govern_cases (h : govern configs s ix = .ok (events, s')) : ∃ p,
    (∃ proposer source recipient amount, s.proposeGovernedTransfer configs proposer source recipient
        amount = .ok (p, s') ∧ events = payoutOf s p ++ [.proposed { p with executed := false }])
      ∨ (∃ approver id, s.approveGovernedTransfer configs approver id = .ok (p, s')
          ∧ events = payoutOf s p ++ [.approved p.id approver])
      ∨ (∃ executor id, s.executeGovernedTransfer configs executor id = .ok (p, s')
          ∧ events = payoutOf s p)
      ∨ (∃ canceller id, s.cancelGovernedTransfer configs canceller id = .ok (p, s')
          ∧ events = [.cancelled p.id]) := by
  unfold govern at h
  split at h
  · grind [systemProposeGovernedTransfer]
  · rw [bind_eq_ok] at h
    obtain ⟨⟨p, s₁⟩, hcall, h⟩ := h
    cases h
    exact ⟨p, .inr (.inl ⟨_, _, controlInstruction_eq_ok hcall, rfl⟩)⟩
  · rw [bind_eq_ok] at h
    obtain ⟨⟨p, s₁⟩, hcall, h⟩ := h
    cases h
    exact ⟨p, .inr (.inr (.inl ⟨_, _, controlInstruction_eq_ok hcall, rfl⟩))⟩
  · rw [bind_eq_ok] at h
    obtain ⟨⟨p, s₁⟩, hcall, h⟩ := h
    cases h
    exact ⟨p, .inr (.inr (.inr ⟨_, _, controlInstruction_eq_ok hcall, rfl⟩))⟩
  · simp at h

/-- **One instruction.** -/
theorem GovernedInv.govern (h : GovernedInv configs s journal)
    (hgovern : Processor.govern configs s ix = .ok (events, s')) :
    GovernedInv configs s' (events ++ journal) := by
  grind [govern_cases, propose, approve, execute, cancel]

/-- The events pay nothing and the ledger stays, or they pay once and the ledger follows. -/
def Moved (s s' : GovernedState) (events : List GovernedEvent) : Prop :=
  events.filterMap GovernedEvent.payout = [] ∧ s'.ledger = s.ledger
    ∨ ∃ x, events.filterMap GovernedEvent.payout = [x] ∧ x.day = s.dayBucket
      ∧ x.epoch = s.currentEpoch
      ∧ s.ledger.transfer x.source x.recipient x.amount = .ok s'.ledger

theorem Moved.append (h : Moved s s' events)
    (hrest : rest.filterMap GovernedEvent.payout = []) : Moved s s' (events ++ rest) := by
  unfold Moved
  rw [filterMap_append, hrest, append_nil]
  exact h

/-- An attempt moves the amount of the payout it records, or nothing. -/
theorem tryExecute_moves (hexecuted : p.executed = false)
    (h : s.tryExecute p = .ok (done, q, s')) : Moved s s' (payoutOf s q) := by
  rcases tryExecute_eq_ok h with ⟨-, rfl, rfl⟩ | ⟨-, -, rfl, ledger, htransfer, rfl⟩
  · left
    unfold payoutOf
    rw [hexecuted]
    exact ⟨rfl, rfl⟩
  · exact .inr ⟨_, rfl, rfl, rfl, htransfer⟩

/-- **The journal tells every move**: an instruction changes the ledger by one transfer for the
    payout it records, and not at all if it records none. -/
theorem govern_moves (h : govern configs s ix = .ok (events, s')) : Moved s s' events := by
  obtain ⟨p, ⟨_, _, _, _, hcall, rfl⟩ | ⟨approver, _, hcall, rfl⟩ | ⟨_, _, hcall, rfl⟩
    | ⟨_, _, hcall, rfl⟩⟩ := govern_cases h
  · unfold proposeGovernedTransfer at hcall
    simp only [ok_rules] at hcall
    obtain ⟨config, -, -, account, -, -, policy, -, ⟨done, q, s₁⟩, hexec, hput⟩ := hcall
    cases hput
    have hmoves := tryExecute_moves rfl hexec
    exact .append hmoves rfl
  · unfold approveGovernedTransfer at hcall
    simp only [ok_rules] at hcall
    obtain ⟨p₀, hopen, -, ⟨done, q, s₁⟩, hexec, hput⟩ := hcall
    cases hput
    have hexecuted :
        ({ p₀ with approvals := p₀.approvals ++ [approver] } : GovernedProposal).executed = false :=
      (openProposal_eq_ok hopen).2.1
    have hmoves := tryExecute_moves hexecuted hexec
    exact .append hmoves rfl
  · unfold executeGovernedTransfer at hcall
    simp only [ok_rules] at hcall
    obtain ⟨p₀, hopen, -, -, ⟨done, q, s₁⟩, hexec, -, hput⟩ := hcall
    cases hput
    have hexecuted := (openProposal_eq_ok hopen).2.1
    have hmoves := tryExecute_moves hexecuted hexec
    exact hmoves
  · unfold cancelGovernedTransfer at hcall
    simp only [bind_eq_ok] at hcall
    obtain ⟨p₀, -, hput⟩ := hcall
    cases hput
    exact .inl ⟨rfl, rfl⟩

/-! ## Runs -/

/-- **Every run keeps the invariant.** -/
theorem governedInv_run (configs : GovernedConfigs) (ledger : Ledger) (blockTimestamp : Option Nat)
    (inputs : List GovernedInput) :
    GovernedInv configs (governedRun configs ledger blockTimestamp inputs).1
      (governedRun configs ledger blockTimestamp inputs).2 := by
  have hstep : ∀ (state : GovernedState × List GovernedEvent) (input : GovernedInput),
      GovernedInv configs state.1 state.2 →
      GovernedInv configs (input.apply configs state).1 (input.apply configs state).2 := by
    rintro ⟨s, journal⟩ input h
    cases input with
    | world ledger blockTimestamp => exact ⟨h.tracked, h.rightful, h.volume⟩
    | transaction instructions =>
      unfold GovernedInput.apply
      dsimp only
      cases hall : governAll configs (s, journal) instructions with
      | error e => exact h
      | ok state' =>
        refine tryFold_induct (P := fun state : GovernedState × List GovernedEvent =>
          GovernedInv configs state.1 state.2) h ?_ hall
        grind [GovernedInv.govern]
  have hall : ∀ (inputs : List GovernedInput) (state : GovernedState × List GovernedEvent),
      GovernedInv configs state.1 state.2 →
      GovernedInv configs (inputs.foldl (GovernedInput.apply configs) state).1
        (inputs.foldl (GovernedInput.apply configs) state).2 := by
    intro inputs
    induction inputs with
    | nil => exact fun state h => h
    | cons input inputs ih => exact fun state h => ih _ (hstep state input h)
  refine hall inputs _ ⟨fun id p hget => absurd hget (by simp [fresh]),
    fun x older hsuffix => absurd hsuffix (by simp), fun wallet config _ _ day => ⟨rfl, Nat.zero_le _⟩⟩

/-- **Governed proposals are paid out rightfully.**  In every run, a proposal's amount is moved only
    in a life without an earlier payout or cancellation, after its threshold of distinct authorised
    signers approved it and its timelock ended; no wallet exceeds its daily cap; and the payouts in
    the journal are the only transfers the instructions make. -/
theorem governed_proposals_rightful (configs : GovernedConfigs) (ledger : Ledger)
    (blockTimestamp : Option Nat) (inputs : List GovernedInput) :
    (∀ x older, .executed x :: older <:+ (governedRun configs ledger blockTimestamp inputs).2 →
        Rightful configs x (life x.id older))
      ∧ (∀ wallet config, configs wallet = some config → config.dailyCapSpores ≠ 0 → ∀ day,
        paidOut wallet day (governedRun configs ledger blockTimestamp inputs).2
          ≤ config.dailyCapSpores)
      ∧ ∀ s ix events s', govern configs s ix = .ok (events, s') →
        events.filterMap GovernedEvent.payout = [] ∧ s'.ledger = s.ledger
          ∨ ∃ x, events.filterMap GovernedEvent.payout = [x] ∧ x.day = s.dayBucket
            ∧ x.epoch = s.currentEpoch
            ∧ s.ledger.transfer x.source x.recipient x.amount = .ok s'.ledger := by
  have hinv := governedInv_run configs ledger blockTimestamp inputs
  refine ⟨hinv.rightful, fun wallet config hconfig hcap day => ?_,
    fun s ix events s' h => govern_moves h⟩
  exact (hinv.volume wallet config hconfig hcap day).2

end Lichen.Processor
