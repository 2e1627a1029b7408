/-
  What one transaction of a block can do.

  `BlockStep` lists the four outcomes: refused, run as an EVM transaction, run natively, or failed and
  charged.  Everything about blocks is proved from it, by cases and then by induction over the list.
  Transactions once stored stay stored, so an envelope gets at most one receipt.
-/
import Lichen.Processor.Execution

open Base
namespace Lichen.Processor
open ChainState
variable {N : Type} [Crypto]
section
variable (env : Programs N) (store : ChainState N) (slot : Nat)

/-- A native transaction that is admitted, signed and charged, with the outcome of its
    instructions. -/
structure NativeRun (cumulative : ChainState N) (t : Transaction) (charged : ChainState N)
    (outcome : Except TxResult (ChainState N × Nat)) : Prop where
  route : admission (store.recentBlockhashes MAX_TX_AGE_BLOCKS) store cumulative t = .ok .native
  signed : env.verifySignatures store t slot = .ok ()
  charge : chargeUnlessDeferred store cumulative (t.sender.getD ⟨0⟩)
    (txBudget env store.settings.feeConfig t).totalFee (computePriorityFee t)
    (shouldDeferMossstakeClaimFee env cumulative t (t.sender.getD ⟨0⟩)
      (txBudget env store.settings.feeConfig t).totalFee) = .ok charged
  run : runNative env store charged t (t.sender.getD ⟨0⟩)
    (txBudget env store.settings.feeConfig t) (computePriorityFee t)
    (shouldDeferMossstakeClaimFee env cumulative t (t.sender.getD ⟨0⟩)
      (txBudget env store.settings.feeConfig t).totalFee) = outcome

/-- **The outcomes of one transaction** over the cumulative batch. -/
inductive BlockStep (cumulative : ChainState N) (t : Transaction) : TxResult → ChainState N → Prop
  /-- The transaction leaves no trace. -/
  | refused {result : TxResult} (h : result.receiptEligible = false) :
      BlockStep cumulative t result cumulative
  | evm {result : TxResult} {batch : ChainState N}
      (hroute : admission (store.recentBlockhashes MAX_TX_AGE_BLOCKS) store cumulative t = .ok .evm)
      (hrun : processEvmTransaction env.engine store cumulative t = .ok (result, batch)) :
      BlockStep cumulative t result (batch.putTransaction t)
  | executed {charged batch : ChainState N} {totalCu : Nat}
      (h : NativeRun env store slot cumulative t charged (.ok (batch, totalCu))) :
      BlockStep cumulative t
        ⟨true, true, (txBudget env store.settings.feeConfig t).totalFee, none, totalCu⟩
        (batch.putTransaction t)
  | failed {charged batch : ChainState N} {result : TxResult}
      (h : NativeRun env store slot cumulative t charged (.error result))
      (heligible : result.receiptEligible = true)
      (hpaid : receiptBatch store cumulative t result none = .ok batch) :
      BlockStep cumulative t result (batch.putTransaction t)

variable {env store slot}

/-- **Every step of a block is one of these.** -/
theorem stepBlock_spec (cumulative : ChainState N) (t : Transaction) :
    BlockStep env store slot cumulative t (stepBlock env store slot cumulative t).1
      (stepBlock env store slot cumulative t).2 := by
  unfold stepBlock processTransactionInner
  cases hroute : admission (store.recentBlockhashes MAX_TX_AGE_BLOCKS) store cumulative t with
  | error e => exact .refused rfl
  | ok route =>
    cases route with
    | evm =>
      cases hrun : processEvmTransaction env.engine store cumulative t with
      | error e => exact .refused rfl
      | ok r =>
        obtain ⟨result, batch⟩ := r
        simp only
        by_cases heligible : result.receiptEligible = true
        · rw [if_pos heligible]
          exact .evm hroute hrun
        · rw [if_neg heligible]
          exact .refused (Bool.eq_false_iff.mpr heligible)
    | native =>
      unfold processNative
      cases hsigned : env.verifySignatures store t slot with
      | error e => exact .refused rfl
      | ok u =>
        simp only
        split
        · exact .refused rfl
        · rename_i hcharge
          split
          · rename_i result hrun
            by_cases heligible : result.receiptEligible = true
            · rw [if_pos heligible]
              cases hpaid : receiptBatch store cumulative t result none with
              | ok batch => exact .failed ⟨hroute, hsigned, hcharge, hrun⟩ heligible hpaid
              | error e => exact .refused rfl
            · rw [if_neg heligible]
              exact .refused (Bool.eq_false_iff.mpr heligible)
          · rename_i hrun
            exact .executed ⟨hroute, hsigned, hcharge, hrun⟩

end

/-! ## Stored transactions -/

theorem hasHotTransaction_putTransaction (s : ChainState N) (t : Transaction) (sig : Hash) :
    (s.putTransaction t).hasHotTransaction sig
      = (decide (sig = t.signature) || s.hasHotTransaction sig) := by
  grind [hasHotTransaction, putTransaction, HashMap.containsKey]

/-- Everything stored before is still stored. -/
def Remembers (s s' : ChainState N) : Prop :=
  ∀ sig, s.hasHotTransaction sig = true → s'.hasHotTransaction sig = true

section
omit [Crypto]

theorem Remembers.trans (h : Remembers s s') (h' : Remembers s' s'') : Remembers s s'' :=
  fun sig hsig => h' sig (h sig hsig)

theorem remembers_of_eq (h : s'.transactions = s.transactions) : Remembers s s' := by
  intro sig hsig
  unfold hasHotTransaction at hsig ⊢
  rwa [h]

end

theorem remembers_putTransaction (s : ChainState N) (t : Transaction) :
    Remembers s (s.putTransaction t) := by
  intro sig hsig
  rw [hasHotTransaction_putTransaction, hsig, Bool.or_true]

variable {store : ChainState N}

section
omit [Crypto]

theorem chargeFee_transactions
    (h : chargeFee store batch payer totalFee priorityFee = .ok batch') :
    batch'.transactions = batch.transactions := by
  unfold chargeFee at h
  simp only [ok_rules] at h
  obtain ⟨core, -, rfl⟩ := h
  rfl

theorem applyEvmChanges_transactions (store : ChainState N) (changes : List EvmStateChange)
    (batch : ChainState N) :
    (applyEvmChanges store batch changes).transactions = batch.transactions := by
  show (changes.foldl _ batch).transactions = _
  induction changes generalizing batch with
  | nil => rfl
  | cons c rest ih =>
    rw [List.foldl_cons, ih]
    unfold applyEvmStorage applyEvmAccount
    cases c.account with
    | some account => rfl
    | none => rfl

end

variable {env : Programs N} {t : Transaction}

theorem runNative_remembers
    (h : runNative env store batch t payer b priorityFee deferred = .ok (batch', totalCu)) :
    Remembers batch batch' := by
  unfold runNative at h
  simp only [ok_rules, mapErr_eq_ok, Prod.mk.injEq] at h
  obtain ⟨rented, hrent, -, p, hsteps, paid, hpaid, -, storage, -, rfl, -⟩ := h
  have hrented : rented.transactions = batch.transactions := by
    unfold collectRent at hrent
    simp only [ok_rules] at hrent
    obtain ⟨ledger, -, rfl⟩ := hrent
    rfl
  have hstepped : p.batch.transactions = rented.transactions := by
    refine tryFold_induct (P := fun p : Progress N => p.batch.transactions = rented.transactions)
      rfl ?_ hsteps
    intro p ix p' _ hp hstep
    unfold stepInstruction at hstep
    simp only [bind_eq_ok, mapErr_eq_ok, Prod.exists] at hstep
    obtain ⟨writes, wasmCu, -, hstep⟩ := hstep
    split at hstep
    · simp only [ok_rules] at hstep
      obtain ⟨-, rfl⟩ := hstep
      exact hp
    · rw [pure_eq_ok] at hstep
      rw [← hstep]
      exact hp
  have hcharged : paid.transactions = p.batch.transactions := by
    unfold chargeDeferred at hpaid
    split at hpaid
    · exact chargeFee_transactions hpaid
    · rw [← Except.ok.inj hpaid]
  have hpaid : Remembers batch paid := remembers_of_eq (by rw [hcharged, hstepped, hrented])
  exact hpaid.trans (remembers_putTransaction _ t)

variable {slot : Nat}

/-- **A step forgets nothing**, and a receipt is remembered. -/
theorem BlockStep.remembers
    (h : BlockStep env store slot cumulative t result next) : Remembers cumulative next
      ∧ (result.receiptEligible = true → next.hasHotTransaction t.signature = true) := by
  have hput : ∀ s : ChainState N, (s.putTransaction t).hasHotTransaction t.signature = true := by
    intro s
    rw [hasHotTransaction_putTransaction, decide_eq_true rfl, Bool.true_or]
  cases h with
  | refused h => exact ⟨fun sig hsig => hsig, fun heligible => absurd heligible (by rw [h]; decide)⟩
  | evm hroute hrun =>
    refine ⟨?_, fun _ => hput _⟩
    obtain ⟨ix, tx, payer, outcome, changes, charged, -, -, -, -, -, hcharge, -, -, rfl⟩ :=
      processEvmTransaction_eq_ok hrun
    have hcharged : charged.transactions = cumulative.transactions := by
      unfold chargeEvmFee at hcharge
      split at hcharge
      · rw [mapErr_eq_ok] at hcharge
        exact chargeFee_transactions hcharge
      · rw [← Except.ok.inj hcharge]
    refine .trans ?_ (remembers_putTransaction _ t)
    refine .trans (show Remembers cumulative charged from remembers_of_eq hcharged) ?_
    refine .trans ?_ (remembers_of_eq (applyEvmChanges_transactions store changes _))
    exact fun sig hsig => remembers_putTransaction _ t sig hsig
  | executed h =>
    obtain ⟨-, -, hcharge, hrun⟩ := h
    refine ⟨?_, fun _ => hput _⟩
    refine .trans ?_ (remembers_putTransaction _ t)
    refine .trans (remembers_of_eq ?_) (runNative_remembers hrun)
    unfold chargeUnlessDeferred at hcharge
    split_ifs at hcharge
    · exact chargeFee_transactions hcharge
    · rw [← Except.ok.inj hcharge]
  | failed _ _ hpaid =>
    refine ⟨?_, fun _ => hput _⟩
    refine .trans (remembers_of_eq ?_) (remembers_putTransaction _ t)
    unfold receiptBatch at hpaid
    split_ifs at hpaid
    · exact chargeFee_transactions hpaid
    · rw [← Except.ok.inj hpaid]

/-- A transaction that is stored already is not admitted. -/
theorem not_admitted_of_hot (h : admission cachedBlockhashes store batch t = .ok route) :
    batch.hasHotTransaction t.signature = false := by
  unfold admission at h
  grind

theorem BlockStep.not_eligible_of_hot
    (h : BlockStep env store slot cumulative t result next)
    (hhot : cumulative.hasHotTransaction t.signature = true) : result.receiptEligible = false := by
  cases h with
  | refused h => exact h
  | evm hroute _ => exact absurd (not_admitted_of_hot hroute) (by rw [hhot]; decide)
  | executed h => exact absurd (not_admitted_of_hot h.route) (by rw [hhot]; decide)
  | failed h _ _ => exact absurd (not_admitted_of_hot h.route) (by rw [hhot]; decide)

/-! ## The steps of a block -/

/-- **A transaction within a block** runs on the batch that those before it leave. -/
theorem runBlock_at (cumulative : ChainState N) {txs : List Transaction} (htx : txs[i]? = some t) :
    (runBlock env store slot cumulative txs).1[i]?
        = some (stepBlock env store slot (runBlock env store slot cumulative (txs.take i)).2 t).1
      ∧ (runBlock env store slot cumulative (txs.take (i + 1))).2
        = (stepBlock env store slot (runBlock env store slot cumulative (txs.take i)).2 t).2 := by
  induction txs generalizing i cumulative with
  | nil => exact nomatch htx
  | cons u rest ih =>
    cases i with
    | zero =>
      obtain rfl : u = t := Option.some.inj htx
      exact ⟨rfl, rfl⟩
    | succ i => exact ih (stepBlock env store slot cumulative u).2 htx

/-- A stored envelope gets no receipt in the rest of the block. -/
theorem not_eligible_of_hot {txs : List Transaction} :
    ∀ {cumulative : ChainState N}, cumulative.hasHotTransaction sig = true →
      ∀ p ∈ txs.zip (runBlock env store slot cumulative txs).1, p.1.signature = sig →
        p.2.receiptEligible = false := by
  induction txs with
  | nil => exact fun _ p hp => absurd hp List.not_mem_nil
  | cons t rest ih =>
    intro cumulative hhot p hp hsig
    have hstep : BlockStep env store slot cumulative t _ _ := stepBlock_spec cumulative t
    rcases List.mem_cons.mp hp with rfl | hp
    · exact hstep.not_eligible_of_hot (by rw [hsig]; exact hhot)
    · exact ih (hstep.remembers.1 sig hhot) p hp hsig

/-- The signatures that have a receipt in a block. -/
def receiptSignatures (txs : List Transaction) (results : List TxResult) : List Hash :=
  ((txs.zip results).filter fun p => p.2.receiptEligible).map fun p => p.1.signature

/-- **A block executes nothing twice.**  From any batch on, the receipts are of distinct
    transactions, none of them stored before and all of them after, and nothing stored is lost. -/
theorem block_receipts_once (env : Programs N) (store : ChainState N) (slot : Nat)
    (txs : List Transaction) (cumulative : ChainState N) :
    let (results, batch) := runBlock env store slot cumulative txs
    (receiptSignatures txs results).Nodup ∧ Remembers cumulative batch
      ∧ ∀ sig ∈ receiptSignatures txs results,
        cumulative.hasHotTransaction sig = false ∧ batch.hasHotTransaction sig = true := by
  induction txs generalizing cumulative with
  | nil => exact ⟨.nil, fun _ h => h, fun _ h => absurd h List.not_mem_nil⟩
  | cons t rest ih =>
    have hstep : BlockStep env store slot cumulative t _ _ := stepBlock_spec cumulative t
    obtain ⟨hkept, hhot⟩ := hstep.remembers
    obtain ⟨hnodup, hrest, hall⟩ := ih (stepBlock env store slot cumulative t).2
    have hfresh := fun h => hstep.not_eligible_of_hot h
    -- a receipt is stored from here on, so no later one is for the same transaction
    grind [runBlock, receiptSignatures, Remembers]

end Lichen.Processor
