/-
  Whose native balance a contract call can take from.

  Native value leaves an account in a call in three ways: the value attached to the call, the values
  attached to cross-calls (kept as signed deltas), and queued native operations.  The first two take
  only from the caller and from contracts that run.  So does a queued `transfer`, whose source is the
  calling contract.  But `lock`, `unlock` and `deduct` name any account.

  1. `contract_takes_a_strangers_funds`: a contract locks an account that is no part of the call and
     deducts what it locked; the spores are gone and are not counted as burned.

  2. The deltas of a frame add up to zero and are zero outside the parties of the call, and queued
     transfers come from parties (`FundsInv`).  So an account outside is reached by the locks and
     unlocks that were queued for it and by what it was sent (`applyNativeAccountOps_spec`).

  3. Nobody else's balance shrinks and no spores vanish exactly when nothing is deducted, and of each
     account outside no more is unlocked than locked and no more locked than unlocked or sent to it
     (`call_takes_only_own_funds_iff`).
-/
import Lichen.Processor.ContractCall
import Lichen.Processor.HostSteps

open Base HashMap
namespace Lichen.Processor
open Ledger List Option

/-! ## The parties of a call -/

/-- The caller and the contracts that ran. -/
def Party (caller : Pubkey) (entered : List Pubkey) (address : Pubkey) : Prop :=
  address = caller ∨ address ∈ entered

theorem Party.mono (hsub : entered ⊆ entered') (h : Party caller entered address) :
    Party caller entered' address :=
  h.imp id fun hmem => hsub hmem

/-- What the operation sends comes from a party. -/
def NativeAccountOp.SentBy (party : Pubkey → Prop) : NativeAccountOp → Prop
  | .transfer source _ _ => party source
  | _ => True

theorem NativeAccountOp.SentBy.mono {op : NativeAccountOp}
    (hsub : ∀ a, party a → party' a) (h : op.SentBy party) : op.SentBy party' := by
  cases op with
  | transfer source target amount => exact hsub source h
  | _ => trivial

/-- A native call sends from the contract that makes it. -/
theorem NativeCallAsks.sentBy (h : NativeCallAsks contract functionName args op)
    (hparty : party contract) : op.SentBy party := by
  rcases h with h | ⟨-, token, collection, source, target, encoded, rfl⟩
  · unfold nativeAccountOpOf at h
    grind [NativeAccountOp.SentBy]
  · trivial

/-! ## Deltas -/

section
variable {deltas deltas' : HashMap Pubkey Int} {address : Pubkey} {delta : Int}

section
variable (h : addDelta deltas address delta = some deltas')
include h

theorem addDelta_eq_some : deltas' = deltas.put address ((deltas.get address).getD 0 + delta) := by
  obtain ⟨next, hnext, rfl⟩ := map_eq_some_iff.mp h
  rw [I64.checkedAdd_eq_some hnext]

theorem addDelta_total : deltas'.total = deltas.total + delta := by
  obtain rfl := addDelta_eq_some h
  have hput := HashMap.total_put deltas address ((deltas.get address).getD 0 + delta)
  omega

theorem addDelta_other (hzero : other = address → delta = 0) :
    (deltas'.get other).getD 0 = (deltas.get other).getD 0 := by
  obtain rfl := addDelta_eq_some h
  grind

end

/-- Adding a list of deltas. -/
theorem addDeltas_spec {entries : List (Pubkey × Int)} : ∀ {deltas deltas' : HashMap Pubkey Int},
      entries.foldlM (fun deltas e => addDelta deltas e.1 e.2) deltas = some deltas' →
      deltas'.total = deltas.total + (entries.map Prod.snd).sum
        ∧ ∀ address, (∀ e ∈ entries, e.1 = address → e.2 = 0) →
          (deltas'.get address).getD 0 = (deltas.get address).getD 0 := by
  induction entries with
  | nil =>
    simp
  | cons e entries ih =>
    intro deltas deltas' h
    rw [foldlM_cons] at h
    obtain ⟨next, hnext, -⟩ := bind_eq_some_iff.mp h
    grind [addDelta_total, addDelta_other]

/-- **The deltas after a call**: the value paid in, and the callee's deltas on top. -/
theorem committedDeltas_spec {calleeDeltas : HashMap Pubkey Int}
    (h : committedDeltas deltas target value calleeDeltas = some deltas') :
    deltas'.total = deltas.total + value + calleeDeltas.total
      ∧ ∀ address, address ≠ target → (calleeDeltas.get address).getD 0 = 0 →
        (deltas'.get address).getD 0 = (deltas.get address).getD 0 := by
  obtain ⟨paid, hpaid, hrest⟩ := bind_eq_some_iff.mp h
  obtain ⟨htotal, hother⟩ := addDeltas_spec hrest
  have hcallee : ∀ address, (calleeDeltas.get address).getD 0 = 0 →
      ∀ e ∈ calleeDeltas.toList, e.1 = address → e.2 = 0 := by
    rintro address hzero ⟨k, v⟩ hmem rfl
    rw [mem_toList.mp hmem] at hzero
    exact hzero
  by_cases hv : value > 0
  · rw [if_pos hv] at hpaid
    refine ⟨?_, fun address hne hzero => ?_⟩
    · rw [htotal, addDelta_total hpaid]
      rfl
    · rw [hother address (hcallee address hzero)]
      exact addDelta_other hpaid fun heq => absurd heq hne
  · rw [if_neg hv, Option.some.injEq] at hpaid
    subst hpaid
    obtain rfl : value = 0 := Nat.eq_zero_of_not_pos hv
    refine ⟨?_, fun address hne hzero => hother address (hcallee address hzero)⟩
    rw [htotal, Nat.cast_zero, Int.add_zero]
    rfl

/-- Escrow takes the value out of the calling contract's delta. -/
theorem escrowed_spec (ctx : ContractContext)
    (h : if value > 0 then
        ∃ a, attached = some a
          ∧ attachValue store { ctx with computeRemaining := charged } target value = some a
      else attached = none) :
    (escrowed ctx attached).total = ctx.pendingCccValueDeltas.total - value
      ∧ ∀ address, address ≠ ctx.contract → ((escrowed ctx attached).get address).getD 0
          = (ctx.pendingCccValueDeltas.get address).getD 0 := by
  by_cases hv : value > 0
  · rw [if_pos hv] at h
    obtain ⟨a, rfl, hattach⟩ := h
    unfold attachValue at hattach
    split at hattach
    · cases hattach
    · simp only [bind_eq_bind, bind_eq_some_iff, Option.pure_def, Option.some.injEq,
        Prod.exists] at hattach
      obtain ⟨updates, projected, -, next, hnext, rfl⟩ := hattach
      obtain rfl := I64.checkedAdd_eq_some hnext
      refine ⟨?_, fun address hne => ?_⟩
      · have hput := total_put ctx.pendingCccValueDeltas ctx.contract
          ((ctx.pendingCccValueDeltas.get ctx.contract).getD 0 + -(value : Int))
        show (ctx.pendingCccValueDeltas.put ctx.contract
          ((ctx.pendingCccValueDeltas.get ctx.contract).getD 0 + -(value : Int))).total = _
        omega
      · show ((ctx.pendingCccValueDeltas.put ctx.contract _).get address).getD 0 = _
        rw [get_put_ne _ _ hne]
  · rw [if_neg hv] at h
    subst h
    obtain rfl : value = 0 := Nat.eq_zero_of_not_pos hv
    exact ⟨(Int.sub_zero _).symm, fun _ _ => rfl⟩

end

/-! ## The invariant of a frame -/

/-- The pending native effects of a frame concern the parties of the call. -/
structure FundsPending (caller : Pubkey) (ctx : ContractContext) : Prop where
  here : ctx.contract ∈ ctx.entered
  balanced : ctx.pendingCccValueDeltas.total = 0
  deltas : ∀ address, ¬ Party caller ctx.entered address →
    (ctx.pendingCccValueDeltas.get address).getD 0 = 0
  ops : ∀ op ∈ ctx.pendingNativeAccountOps, op.SentBy (Party caller ctx.entered)

/-- A frame that began in `start` and is in `ctx`. -/
structure FundsInv (caller : Pubkey) (start ctx : ContractContext) : Prop where
  contract : ctx.contract = start.contract
  grows : start.entered ⊆ ctx.entered
  pending : FundsPending caller ctx

section
variable {rt : Runtime} {store : StateStore} {caller : Pubkey} {start ctx : ContractContext}

section
variable (h : FundsInv caller start ctx)
include h

/-- Steps that leave the native effects alone, and enter nothing. -/
theorem FundsInv.congr (hcontract : ctx'.contract = ctx.contract)
    (hdeltas : ctx'.pendingCccValueDeltas = ctx.pendingCccValueDeltas)
    (hops : ctx'.pendingNativeAccountOps = ctx.pendingNativeAccountOps)
    (hentered : ctx'.entered = ctx.entered) : FundsInv caller start ctx' := by
  refine ⟨hcontract.trans h.contract, hentered ▸ h.grows, ?_, ?_, ?_, ?_⟩
  · rw [hcontract, hentered]
    exact h.pending.here
  · rw [hdeltas]
    exact h.pending.balanced
  · rw [hdeltas, hentered]
    exact h.pending.deltas
  · rw [hops, hentered]
    exact h.pending.ops

/-- A queued operation. -/
theorem FundsInv.queue {op : NativeAccountOp} (hasks : NativeCallAsks ctx.contract functionName args op)
    {compute : Nat}
    (hqueue : queueNativeAccountOp store { ctx with computeRemaining := compute } op = .ok ctx') :
    FundsInv caller start ctx' := by
  obtain ⟨state, rfl⟩ := queueNativeAccountOp_eq_ok hqueue
  refine ⟨h.contract, h.grows, h.pending.here, h.pending.balanced, h.pending.deltas, ?_⟩
  intro op' hop'
  rcases mem_append.mp hop' with hold | hnew
  · exact h.pending.ops op' hold
  · obtain rfl := mem_singleton.mp hnew
    exact hasks.sentBy (.inr h.pending.here)

/-- A called frame begins with what its caller had pending. -/
theorem FundsInv.start_called (target : Pubkey) {compute value : Nat} : FundsPending caller
      (calleeContext store { ctx with computeRemaining := compute } target value attached) := by
  have hsub : ctx.entered ⊆ ctx.entered ++ [target] := subset_append_left _ _
  refine ⟨?_, rfl, fun _ _ => rfl, ?_⟩
  · show target ∈ ctx.entered ++ [target]
    exact mem_append_right _ (mem_singleton_self target)
  · exact fun op hop => (h.pending.ops op hop).mono fun a ha => ha.mono hsub

/-- **A called frame's success** keeps the caller's invariant. -/
theorem FundsInv.called {args : Bytes} {value charged spent : Nat} {contract : ContractAccount}
    {result : ContractResult} {last : ContractContext}
    (c : CalledFrame rt store exec ctx target functionName args value charged spent contract
      attached result ctx') (hlast : FundsInv caller
      (calleeContext store { ctx with computeRemaining := charged } target value attached) last)
    (hends : result.EndsIn last) : FundsInv caller start ctx' := by
  obtain ⟨-, deltas, state, hdeltas, rfl⟩ := mergeCallee_eq_some c.merged
  obtain ⟨htotal, hother⟩ := committedDeltas_spec hdeltas
  obtain ⟨hescrow, hescrowOther⟩ := escrowed_spec ctx c.attach
  have hsub : ctx.entered ⊆ result.entered := by
    rw [hends.entered]
    exact fun a ha => hlast.grows (mem_append_left _ ha)
  have htarget : target ∈ result.entered := by
    have hcontract : last.contract = target := hlast.contract
    rw [hends.entered, ← hcontract]
    exact hlast.pending.here
  refine ⟨h.contract, fun a ha => hsub (h.grows ha), ?_, ?_, ?_, ?_⟩
  · exact hsub h.pending.here
  · have hcallee : result.cccValueDeltas.total = 0 := by
      rw [hends.cccValueDeltas]
      exact hlast.pending.balanced
    show deltas.total = 0
    have hesc : (escrowed { ctx with computeRemaining := spent } attached).total
        = ctx.pendingCccValueDeltas.total - value := hescrow
    have hzero := h.pending.balanced
    omega
  · intro address hnot
    change ¬ Party caller result.entered address at hnot
    have hne : address ≠ target := fun heq => hnot (.inr (heq ▸ htarget))
    have hne' : address ≠ ctx.contract := fun heq => hnot (.inr (heq ▸ hsub h.pending.here))
    have hcallee : (result.cccValueDeltas.get address).getD 0 = 0 := by
      rw [hends.cccValueDeltas]
      exact hlast.pending.deltas address (hends.entered ▸ hnot)
    show (deltas.get address).getD 0 = 0
    rw [hother address hne hcallee]
    exact (hescrowOther address hne').trans (h.pending.deltas address fun hp => hnot (hp.mono hsub))
  · intro op hop
    rcases mem_append.mp hop with hold | hnew
    · exact (h.pending.ops op hold).mono fun a ha => ha.mono hsub
    · rw [hends.entered]
      refine hlast.pending.ops op ?_
      rw [← hends.nativeAccountOps]
      exact mem_of_mem_drop hnew

end

/-- **One host call** keeps the invariant. -/
theorem FundsInv.step (hexec : ExecKeeps (FundsPending caller) (FundsInv caller) exec)
    (h : FundsInv caller start ctx)
    (hstep : HostStep rt store exec ctx call ctx') : FundsInv caller start ctx' := by
  cases hstep with
  | idle _ compute data => exact h.congr rfl rfl rfl rfl
  | write key val compute used => exact h.congr rfl rfl rfl rfl
  | delete key compute used => exact h.congr rfl rfl rfl rfl
  | native functionName args value resultLen resultWritable op compute _ hasks hqueue =>
    exact h.queue hasks hqueue
  | call target functionName args value resultLen resultWritable charged spent contract attached
      result _ c =>
    obtain ⟨last, hlast, hends⟩ := hexec _ _ _ _ _ c.ran c.success (h.start_called target)
    exact h.called c hlast hends

/-- **Executions** keep the pending native effects to the parties of the call. -/
theorem execute_funds (rt : Runtime) (store : StateStore) (caller : Pubkey) (levels : Nat) :
    ExecKeeps (FundsPending caller) (FundsInv caller) (execute rt store levels) :=
  execute_keeps rt store _ _
    (fun _ hstart => ⟨rfl, fun _ hc => hc, hstart.here, hstart.balanced, hstart.deltas, hstart.ops⟩)
    (fun _ hexec _ _ _ _ h hstep => h.step hexec hstep)
    levels

end

/-! ## What the queued operations ask for -/

namespace NativeAccountOp

def locksOf (a : Pubkey) : NativeAccountOp → Nat
  | .lock account amount => if account = a then amount else 0
  | _ => 0

def unlocksOf (a : Pubkey) : NativeAccountOp → Nat
  | .unlock account amount => if account = a then amount else 0
  | _ => 0

def sendsTo (a : Pubkey) : NativeAccountOp → Nat
  | .transfer _ target amount => if target = a then amount else 0
  | _ => 0

def deductsOf (a : Pubkey) : NativeAccountOp → Nat
  | .deductLocked account amount => if account = a then amount else 0
  | _ => 0

def deducts : NativeAccountOp → Nat
  | .deductLocked _ amount => amount
  | _ => 0

end NativeAccountOp

open NativeAccountOp (locksOf unlocksOf sendsTo deductsOf deducts)

/-- **Own funds.** Nothing is deducted; of an account that is no party no more is unlocked than is
    locked, and no more is locked than is unlocked or sent to it. -/
structure OwnFunds (party : Pubkey → Prop) (ops : List NativeAccountOp) : Prop where
  deducts : (ops.map deducts).sum = 0
  unlocks : ∀ a, ¬ party a → (ops.map (unlocksOf a)).sum ≤ (ops.map (locksOf a)).sum
  locks : ∀ a, ¬ party a →
    (ops.map (locksOf a)).sum ≤ (ops.map (unlocksOf a)).sum + (ops.map (sendsTo a)).sum

/-! ## Applying the pending effects -/

/-- No part of the account's balance is smaller in `s'`. -/
structure Spared (address : Pubkey) (s s' : Ledger) : Prop where
  spendable : s.spendableOf address ≤ s'.spendableOf address
  locked : s.lockedOf address ≤ s'.lockedOf address
  spores : s.sporesOf address ≤ s'.sporesOf address

/-- The account holds the same in both. -/
structure Untouched (address : Pubkey) (s s' : Ledger) : Prop where
  spendable : s'.spendableOf address = s.spendableOf address
  locked : s'.lockedOf address = s.lockedOf address
  spores : s'.sporesOf address = s.sporesOf address

section
variable {address : Pubkey} {s : Ledger}

theorem Untouched.refl (address : Pubkey) (s : Ledger) : Untouched address s s := ⟨rfl, rfl, rfl⟩

theorem Untouched.trans (h : Untouched address s s') (h' : Untouched address s' s'') :
    Untouched address s s'' :=
  ⟨h'.spendable.trans h.spendable, h'.locked.trans h.locked, h'.spores.trans h.spores⟩

/-- Writing an account. -/
theorem Ledger.holds_put (s : Ledger) (k : Pubkey) (a : Account) (x : Pubkey) :
    (s.putAccount k a).spendableOf x = (if x = k then a.spendable else s.spendableOf x)
      ∧ (s.putAccount k a).lockedOf x = (if x = k then a.locked else s.lockedOf x)
      ∧ (s.putAccount k a).sporesOf x = (if x = k then a.spores else s.sporesOf x) := by
  unfold spendableOf lockedOf sporesOf
  rw [getAccount_putAccount]
  split
  · exact ⟨rfl, rfl, rfl⟩
  · exact ⟨rfl, rfl, rfl⟩

theorem Untouched.put_other (hne : address ≠ k) (s : Ledger) (a : Account) :
    Untouched address s (s.putAccount k a) := by
  obtain ⟨hspendable, hlocked, hspores⟩ := s.holds_put k a address
  rw [if_neg hne] at hspendable hlocked hspores
  exact ⟨hspendable, hlocked, hspores⟩

theorem Ledger.holds_receiver (s : Ledger) (k : Pubkey) : s.spendableOf k = (s.receiver k).spendable
    ∧ s.lockedOf k = (s.receiver k).locked ∧ s.sporesOf k = (s.receiver k).spores := by
  unfold spendableOf lockedOf sporesOf receiver
  cases s.getAccount k with
  | none => exact ⟨rfl, rfl, rfl⟩
  | some a => exact ⟨rfl, rfl, rfl⟩

theorem Ledger.receiver_of_get (h : s.getAccount k = some a) : s.receiver k = a := by
  unfold receiver
  rw [h]
  rfl

end

section
variable {party : Pubkey → Prop} {batch batch' : StateStore} {op : NativeAccountOp}
  {ops : List NativeAccountOp}

/-- **What native operations do** to the accounts that send nothing, and to the total. -/
structure Operated (party : Pubkey → Prop) (ops : List NativeAccountOp) (s s' : StateStore) :
    Prop where
  spendable : ∀ a, ¬ party a → s'.ledger.spendableOf a + (ops.map (locksOf a)).sum
    = s.ledger.spendableOf a + (ops.map (unlocksOf a)).sum + (ops.map (sendsTo a)).sum
  locked : ∀ a, ¬ party a → s'.ledger.lockedOf a + (ops.map (unlocksOf a)).sum
    + (ops.map (deductsOf a)).sum = s.ledger.lockedOf a + (ops.map (locksOf a)).sum
  spores : ∀ a, ¬ party a → s'.ledger.sporesOf a + (ops.map (deductsOf a)).sum
    = s.ledger.sporesOf a + (ops.map (sendsTo a)).sum
  total : s'.ledger.sporesTotal + (ops.map deducts).sum = s.ledger.sporesTotal
  burned : s'.totalBurned = s.totalBurned

theorem Operated.nil (party : Pubkey → Prop) (s : StateStore) : Operated party [] s s :=
  ⟨fun _ _ => rfl, fun _ _ => rfl, fun _ _ => rfl, rfl, rfl⟩

theorem Operated.cons (h : Operated party [op] batch batch')
    (h' : Operated party ops batch' batch'') : Operated party (op :: ops) batch batch'' := by
  have hsingle : ∀ f : NativeAccountOp → Nat, ([op].map f).sum = f op := fun f => Nat.add_zero _
  obtain ⟨hspendable, hlocked, hspores, htotal, hburned⟩ := h
  simp only [hsingle] at hspendable hlocked hspores htotal
  refine ⟨fun a ha => ?_, fun a ha => ?_, fun a ha => ?_, ?_, h'.burned.trans hburned⟩
  · have hnow := hspendable a ha
    have hrest := h'.spendable a ha
    simp only [map_cons, sum_cons]
    omega
  · have hnow := hlocked a ha
    have hrest := h'.locked a ha
    simp only [map_cons, sum_cons]
    omega
  · have hnow := hspores a ha
    have hrest := h'.spores a ha
    simp only [map_cons, sum_cons]
    omega
  · have hrest := h'.total
    simp only [map_cons, sum_cons]
    omega

/-- One native operation. -/
theorem Operated.single (hsent : op.SentBy party) (h : applyNativeAccountOp batch op = .ok batch') :
    Operated party [op] batch batch' := by
  unfold applyNativeAccountOp at h
  simp only [ok_rules] at h
  obtain ⟨a, hget, a', happly, h⟩ := h
  have hold := batch.ledger.holds_receiver op.account
  rw [receiver_of_get hget] at hold
  have hput := batch.ledger.holds_put op.account a'
  have htotal := sporesTotal_putAccount batch.ledger op.account a'
  have hsingle : ∀ f : NativeAccountOp → Nat, ([op].map f).sum = f op := fun f => Nat.add_zero _
  cases op
  case' lock account amount =>
    cases h
    obtain ⟨hle, hspores, hparts, -⟩ := Account.move_eq_ok
      (by decide : Account.Part.spendable ≠ .locked) happly
    have hspendable : a'.spendable = a.spendable - amount := hparts .spendable
    have hlocked : a'.locked = a.locked + amount := hparts .locked
    have hle' : amount ≤ a.spendable := hle
    refine ⟨fun x _ => ?_, fun x _ => ?_, fun x _ => ?_, ?_, rfl⟩
  case' unlock account amount =>
    cases h
    obtain ⟨hle, hspores, hparts, -⟩ := Account.move_eq_ok
      (by decide : Account.Part.locked ≠ .spendable) happly
    have hspendable : a'.spendable = a.spendable + amount := hparts .spendable
    have hlocked : a'.locked = a.locked - amount := hparts .locked
    have hle' : amount ≤ a.locked := hle
    refine ⟨fun x _ => ?_, fun x _ => ?_, fun x _ => ?_, ?_, rfl⟩
  case' deductLocked account amount =>
    cases h
    have happly' : a.deductLocked amount = .ok a' := happly
    unfold Account.deductLocked at happly'
    simp only [ok_rules] at happly'
    obtain ⟨locked, ⟨hlocked, rfl⟩, spores, ⟨hspores, rfl⟩, -, rfl⟩ := happly'
    refine ⟨fun x _ => ?_, fun x _ => ?_, fun x _ => ?_, ?_, rfl⟩
  case' transfer source target amount =>
    simp only [bind_eq_ok, mapErr_eq_ok, Except.ok.injEq] at h
    obtain ⟨r', hcredit, rfl⟩ := h
    obtain ⟨hle, hle', ha'⟩ := Account.deductSpendable_eq_ok.mp happly
    obtain ⟨-, -, hr'⟩ := Account.addSpendable_eq_ok.mp hcredit
    have hparty : party source := hsent
    have hold' := (batch.ledger.putAccount source a').holds_receiver target
    have hput' := (batch.ledger.putAccount source a').holds_put target r'
    have htotal' := sporesTotal_putAccount (batch.ledger.putAccount source a') target r'
    have hsource : a'.spores = a.spores - amount := by rw [ha']
    have htarget : r'.spendable = ((batch.ledger.putAccount source a').receiver target).spendable + amount
        ∧ r'.locked = ((batch.ledger.putAccount source a').receiver target).locked
        ∧ r'.spores = ((batch.ledger.putAccount source a').receiver target).spores + amount := by
      rw [hr']
      exact ⟨rfl, rfl, rfl⟩
    clear happly hcredit ha' hr'
    refine ⟨fun x hx => ?_, fun x hx => ?_, fun x hx => ?_, ?_, rfl⟩
  case' nftTransfer token collection source target encoded =>
    cases h
    have hdata : { a with data := encoded } = a' := Except.ok.inj happly
    refine ⟨fun x _ => ?_, fun x _ => ?_, fun x _ => ?_, ?_, rfl⟩
  -- what remains is the sums over a single operation
  all_goals
    simp only [hsingle]
    grind [locksOf, unlocksOf, sendsTo, deductsOf, deducts, NativeAccountOp.account,
      StateStore.putAccount]

/-- **All of them.** -/
theorem applyNativeAccountOps_spec (hsent : ∀ op ∈ ops, op.SentBy party)
    (h : applyNativeAccountOps batch ops = .ok batch') : Operated party ops batch batch' := by
  unfold applyNativeAccountOps at h
  induction ops generalizing batch with
  | nil =>
    rw [tryFold_nil, Except.ok.injEq] at h
    exact h ▸ .nil party batch
  | cons op ops ih =>
    obtain ⟨next, hstep, hrest⟩ := tryFold_cons_eq_ok.mp h
    exact (Operated.single (hsent op mem_cons_self) hstep).cons
      (ih (fun op hop => hsent op (mem_cons_of_mem _ hop)) hrest)

/-- One value delta: an account of a party changes by it. -/
theorem applyValueDelta_spec (h : applyValueDeltaToAccount account delta = .ok account') :
    (account'.spores : Int) = account.spores + delta := by
  grind [applyValueDeltaToAccount, Account.addSpendable_eq_ok, Account.deductSpendable_eq_ok]

/-- **The value deltas**: the total moves by their sum, and only parties are touched. -/
theorem applyValueDeltas_spec (hzero : ∀ address, ¬ party address → (deltas.get address).getD 0 = 0)
    (h : applyValueDeltas batch deltas = .ok batch') :
    (∀ address, ¬ party address → Untouched address batch.ledger batch'.ledger)
      ∧ (batch'.ledger.sporesTotal : Int) = batch.ledger.sporesTotal + deltas.total
      ∧ batch'.totalBurned = batch.totalBurned := by
  have hparty : ∀ e ∈ deltas.toList, e.2 ≠ 0 → party e.1 := by
    rintro ⟨k, v⟩ hmem hne
    by_contra hnot
    have hk := hzero k hnot
    rw [mem_toList.mp hmem] at hk
    exact hne hk
  unfold applyValueDeltas at h
  unfold HashMap.total
  revert hparty h
  generalize deltas.toList = entries
  intro h hparty
  induction entries generalizing batch with
  | nil =>
    rw [tryFold_nil, Except.ok.injEq] at h
    subst h
    exact ⟨fun address _ => .refl address _, (Int.add_zero _).symm, rfl⟩
  | cons e entries ih =>
    obtain ⟨next, hstep, hrest⟩ := tryFold_cons_eq_ok.mp h
    obtain ⟨hspared, -, hburned⟩ := ih hrest fun e' he' => hparty e' (mem_cons_of_mem e he')
    split at hstep
    · grind
    · rename_i hz
      simp only [ok_rules, Except.ok.injEq] at hstep
      obtain ⟨account, hget, account', happly, rfl⟩ := hstep
      have hpartyE := hparty e mem_cons_self hz
      refine ⟨fun address hnot => ?_, ?_, hburned⟩
      · have hne : address ≠ e.1 := fun heq => hnot (heq ▸ hpartyE)
        exact (Untouched.put_other hne _ _).trans (hspared address hnot)
      · have hput := sporesTotal_putAccount batch.ledger e.1 account'
        rw [sporesOf_of_get hget] at hput
        grind [applyValueDelta_spec, StateStore.putAccount]

/-- Storage changes leave the ledger alone. -/
theorem putStorageChanges_ledger (batch : StateStore) (contract : Pubkey)
    (changes : StorageChanges) :
    (putStorageChanges batch contract changes).ledger = batch.ledger
      ∧ (putStorageChanges batch contract changes).totalBurned = batch.totalBurned := by
  unfold putStorageChanges
  generalize changes.toList = entries
  induction entries generalizing batch with
  | nil => exact ⟨rfl, rfl⟩
  | cons e entries ih =>
    rw [foldl_cons]
    exact ih _

theorem applyCrossCallChanges_ledger (h : applyCrossCallChanges rt batch changes = .ok batch') :
    batch'.ledger = batch.ledger ∧ batch'.totalBurned = batch.totalBurned := by
  refine tryFold_induct (P := fun b => b.ledger = batch.ledger ∧ b.totalBurned = batch.totalBurned)
    ⟨rfl, rfl⟩ ?_ h
  intro b e b' _ hb hstep
  grind [putStorageChanges_ledger]

/-- **The effects of a call tree** are those of its native operations, outside the parties. -/
theorem applyContractResult_spec {rt contract result} (htotal : result.cccValueDeltas.total = 0)
    (hzero : ∀ address, ¬ party address → (result.cccValueDeltas.get address).getD 0 = 0)
    (hops : ∀ op ∈ result.nativeAccountOps, op.SentBy party)
    (h : applyContractResult rt batch contract result = .ok batch') :
    Operated party result.nativeAccountOps batch batch' := by
  unfold applyContractResult at h
  simp only [bind_eq_ok] at h
  obtain ⟨batch₁, hdeltas, batch₂, hnative, hcross⟩ := h
  obtain ⟨hsame, hsum, hburned⟩ := applyValueDeltas_spec hzero hdeltas
  obtain ⟨hspendable, hlocked, hspores, htotal', hburned'⟩ := applyNativeAccountOps_spec hops hnative
  obtain ⟨hledger, hburned₂⟩ := putStorageChanges_ledger batch₂ contract result.storageChanges
  obtain ⟨hledger', hburned₃⟩ := applyCrossCallChanges_ledger hcross
  rw [hledger] at hledger'
  have hsum' : batch₁.ledger.sporesTotal = batch.ledger.sporesTotal := by omega
  refine ⟨fun a ha => ?_, fun a ha => ?_, fun a ha => ?_, ?_, ?_⟩
  · rw [hledger', hspendable a ha, (hsame a ha).spendable]
  · rw [hledger', hlocked a ha, (hsame a ha).locked]
  · rw [hledger', hspores a ha, (hsame a ha).spores]
  · rw [hledger', htotal', hsum']
  · rw [hburned₃, hburned₂, hburned', hburned]

end

/-! ## The instruction -/

/-- What runs before the code touches the caller and the contract only. -/
theorem prepared_untouched
    (hrefresh : refreshContractLifecycleFromRestrictions rt batch contract = .ok (batch₁, account))
    (hpay : payAttachedValue batch₁ caller contract value = .ok (batch₂, state)) :
    (∀ address, address ≠ caller → address ≠ contract →
        Untouched address batch.ledger batch₂.ledger)
      ∧ batch₂.ledger.sporesTotal = batch.ledger.sporesTotal
      ∧ batch₂.totalBurned = batch.totalBurned := by
  have h₁ : (∀ address, address ≠ contract → Untouched address batch.ledger batch₁.ledger)
      ∧ batch₁.ledger.sporesTotal = batch.ledger.sporesTotal
      ∧ batch₁.totalBurned = batch.totalBurned := by
    obtain ⟨a, hget, rfl | ⟨data, rfl⟩⟩ := refreshContractLifecycle_eq_ok hrefresh
    · exact ⟨fun address _ => .refl address _, rfl, rfl⟩
    · refine ⟨fun address hne => .put_other hne _ _, ?_, rfl⟩
      have hput := sporesTotal_putAccount batch.ledger contract { a with data := data }
      rw [sporesOf_of_get hget] at hput
      exact Nat.add_right_cancel hput
  obtain ⟨hsame, htotal, hburned⟩ := h₁
  rcases payAttachedValue_eq_ok hpay with ⟨-, rfl⟩ | ⟨-, ledger, htransfer, rfl⟩
  · exact ⟨fun address _ hne => hsame address hne, htotal, hburned⟩
  · refine ⟨fun address hcaller hne => (hsame address hne).trans ?_,
      (transfer_sporesTotal htransfer).trans htotal, hburned⟩
    rcases transfer_eq_ok htransfer with ⟨-, hsame⟩ | ⟨-, a, -, -, -, -, -, -, hmoved⟩
    · rw [hsame]
      exact .refl _ _
    · rw [hmoved]
      exact (Untouched.put_other hcaller _ _).trans (.put_other hne _ _)

/-- The native operations that the code of a call queues, without those of frames that were rolled
    back. -/
def nativeCallsOf (rt : Runtime) (store batch : StateStore) (budget : Nat)
    (caller contract : Pubkey) (functionName : String) (args : Bytes) (value : Nat) :
    List NativeAccountOp :=
  let ran : Except String ContractResult := do
    let (batch, account) ← refreshContractLifecycleFromRestrictions rt batch contract
    let (batch, state) ← payAttachedValue batch caller contract value
    execute rt store MAX_CROSS_CALL_DEPTH account functionName args
      (topLevelContext store batch caller contract value budget state)
  match ran with
  | .ok result => result.nativeAccountOps
  | .error _ => []

/-- **Own funds only.** A successful call makes no part of the balance of an account smaller that is
    neither the caller's nor a contract's that ran, and destroys no spores, exactly when its native
    calls keep to the funds of the parties.  It never counts spores as burned. -/
theorem call_takes_only_own_funds_iff (rt : Runtime) (store batch batch' : StateStore)
    (budget : Nat) (caller contract : Pubkey) (functionName : String) (args : Bytes) (value : Nat)
    (info : CallMeta)
    (hcall : contractCallAsCaller rt store batch budget caller contract functionName args value
      = .ok (batch', info)) :
    batch'.totalBurned = batch.totalBurned
      ∧ (((∀ address, address ≠ caller → address ∉ info.entered →
            Spared address batch.ledger batch'.ledger)
          ∧ batch'.ledger.sporesTotal = batch.ledger.sporesTotal)
        ↔ OwnFunds (Party caller info.entered)
          (nativeCallsOf rt store batch budget caller contract functionName args value)) := by
  obtain ⟨batch₁, account, batch₂, state, result, hrefresh, hpay, hran, hsuccess, happly, hentered⟩ :=
    contractCallAsCaller_eq_ok hcall
  have hops : nativeCallsOf rt store batch budget caller contract functionName args value
      = result.nativeAccountOps := by
    unfold nativeCallsOf
    simp only [hrefresh, hpay, hran, bind_ok]
  obtain ⟨last, hlast, hends⟩ := execute_funds rt store caller _ _ _ _ _ _ hran hsuccess
    ⟨mem_cons_self, rfl, fun _ _ => rfl, fun op hop => absurd hop not_mem_nil⟩
  have hcontract : contract ∈ result.entered := by
    rw [hends.entered]
    exact hlast.grows mem_cons_self
  obtain ⟨hsame, htotal, hburned⟩ := prepared_untouched hrefresh hpay
  have hdone : Operated (Party caller result.entered) result.nativeAccountOps batch₂ batch' := by
    refine applyContractResult_spec ?_ ?_ ?_ happly
    · rw [hends.cccValueDeltas]
      exact hlast.pending.balanced
    · rw [hends.cccValueDeltas, hends.entered]
      exact hlast.pending.deltas
    · rw [hends.nativeAccountOps, hends.entered]
      exact hlast.pending.ops
  have hbefore : ∀ a, ¬ Party caller result.entered a → Untouched a batch.ledger batch₂.ledger :=
    fun a ha => hsame a (fun heq => ha (.inl heq)) fun heq => ha (.inr (heq ▸ hcontract))
  -- no account is deducted more than all are
  have hdeducts : ∀ a, (result.nativeAccountOps.map (deductsOf a)).sum
      ≤ (result.nativeAccountOps.map deducts).sum := by
    intro a
    refine List.sum_le_sum fun op _ => ?_
    cases op with
    | deductLocked account amount =>
      unfold deductsOf deducts
      grind
    | _ => exact le_refl 0
  have hall := hdone.total
  rw [hops, hentered]
  refine ⟨hdone.burned.trans hburned, ?_, ?_⟩
  · rintro ⟨hspared, hkept⟩
    have hnone : (result.nativeAccountOps.map deducts).sum = 0 := by omega
    refine ⟨hnone, fun a ha => ?_, fun a ha => ?_⟩
    · have hle := (hspared a (fun heq => ha (.inl heq)) fun hmem => ha (.inr hmem)).locked
      have hlocked := hdone.locked a ha
      have hzero := hdeducts a
      rw [(hbefore a ha).locked] at hlocked
      omega
    · have hle := (hspared a (fun heq => ha (.inl heq)) fun hmem => ha (.inr hmem)).spendable
      have hspendable := hdone.spendable a ha
      rw [(hbefore a ha).spendable] at hspendable
      omega
  · rintro ⟨hnone, hunlocks, hlocks⟩
    refine ⟨fun a hcaller hmem => ?_, by omega⟩
    have ha : ¬ Party caller result.entered a := fun hp => hp.elim hcaller hmem
    have hspendable := hdone.spendable a ha
    have hlocked := hdone.locked a ha
    have hspores := hdone.spores a ha
    have hzero := hdeducts a
    have hle := hunlocks a ha
    have hle' := hlocks a ha
    rw [(hbefore a ha).spendable] at hspendable
    rw [(hbefore a ha).locked] at hlocked
    rw [(hbefore a ha).spores] at hspores
    exact ⟨by omega, by omega, by omega⟩

/-! ## A contract that pays from its own account -/

/-- `1::pay` locks 5 spores of its own and transfers 10, of which it locks 7 for the recipient. -/
def payerScript (name : Bytes) (functionName : String) : Program :=
  nativeOf "lock" ⟨1⟩ 5 (nativeOf "transfer" ⟨3⟩ 10 (nativeOf "lock" ⟨3⟩ 7 halt))

/-- Contract `1` with 50 spores, and an account with 100. -/
def fundsStore : StateStore where
  ledger :=
    { accounts := ((∅ : HashMap Pubkey Account).put ⟨1⟩ (contractHolder 1 50)).put ⟨3⟩
        { Account.new 0 ⟨3⟩ with spores := 100, spendable := 100 }
      restrictions := []
      lastSlot := 5 }
  contractStorage := ∅
  totalSupply := 150
  totalBurned := 0

/-- The recipient has gained, the contract has paid and locked. -/
theorem call_takes_only_own_funds_payer :
    ∃ r, contractCallAsCaller (.scripted payerScript) fundsStore fundsStore 1000000 ⟨9⟩ ⟨1⟩ "pay" [] 0
        = .ok r
      ∧ r.1.ledger.sporesOf ⟨3⟩ = 110 ∧ r.1.ledger.lockedOf ⟨3⟩ = 7 ∧ r.1.ledger.lockedOf ⟨1⟩ = 5
      ∧ Spared ⟨3⟩ fundsStore.ledger r.1.ledger
      ∧ r.1.ledger.sporesTotal = fundsStore.ledger.sporesTotal := by
  have hcall := eq_ok_get_pair (x := contractCallAsCaller (.scripted payerScript) fundsStore
    fundsStore 1000000 ⟨9⟩ ⟨1⟩ "pay" [] 0) (by decide +kernel)
  obtain ⟨-, hiff⟩ := call_takes_only_own_funds_iff (.scripted payerScript) fundsStore
    fundsStore _ 1000000 ⟨9⟩ ⟨1⟩ "pay" [] 0 _ hcall
  have hops : nativeCallsOf (.scripted payerScript) fundsStore fundsStore 1000000 ⟨9⟩ ⟨1⟩ "pay" [] 0
      = [.lock ⟨1⟩ 5, .transfer ⟨1⟩ ⟨3⟩ 10, .lock ⟨3⟩ 7] := by decide +kernel
  obtain ⟨hspared, htotal⟩ := hiff.mpr (by
    rw [hops]
    refine ⟨rfl, fun a ha => Nat.zero_le _, fun a ha => ?_⟩
    have hne : (⟨1⟩ : Pubkey) ≠ a := fun heq => ha (heq ▸ .inr (by decide +kernel))
    simp only [map_cons, map_nil, sum_cons, sum_nil, locksOf, unlocksOf, sendsTo, if_neg hne]
    split
    · decide
    · decide)
  exact ⟨_, hcall, by decide +kernel, by decide +kernel, by decide +kernel,
    hspared ⟨3⟩ (by decide) (by decide +kernel), htotal⟩

/-! ## A contract that takes from another account -/

/-- `1::take` locks 40 spores of an account that has nothing to do with the call, and deducts
    them. -/
def takerScript (name : Bytes) (functionName : String) : Program :=
  nativeOf "lock" ⟨3⟩ 40 (nativeOf "deduct" ⟨3⟩ 40 halt)

/-- The account is no party and has lost 40 spores, which are not counted as burned. -/
theorem contract_takes_a_strangers_funds :
    ∃ r, contractCallAsCaller (.scripted takerScript) fundsStore fundsStore 1000000 ⟨9⟩ ⟨1⟩ "take" []
          0 = .ok r
      ∧ (⟨3⟩ : Pubkey) ∉ r.2.entered
      ∧ fundsStore.ledger.sporesOf ⟨3⟩ = 100 ∧ r.1.ledger.sporesOf ⟨3⟩ = 60
      ∧ fundsStore.ledger.spendableOf ⟨3⟩ = 100 ∧ r.1.ledger.spendableOf ⟨3⟩ = 60
      ∧ fundsStore.ledger.sporesTotal = 150 ∧ r.1.ledger.sporesTotal = 110
      ∧ r.1.totalBurned = fundsStore.totalBurned := by
  refine ⟨_, eq_ok_get (by decide +kernel), ?_⟩
  decide +kernel

end Lichen.Processor
