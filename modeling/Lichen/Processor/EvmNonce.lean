/-
  EVM nonces within a block.

  A raw EVM transaction is signed by its sender; the native envelope around it is not.  The duplicate
  check of a block is on the hash of the envelope, and the nonce is checked by `revm` against the
  committed state, so one raw transaction in two envelopes is executed, and charged, twice
  (`evm_nonce_used_twice`).  If a block wraps every raw transaction in one envelope only, a nonce is used
  at most once (`evm_nonce_used_once`), since an envelope gets one receipt, and its fee is charged once:
  to the payer, the treasury and the burned counter.
-/
import Lichen.Processor.BlockSteps

open Base
namespace Lichen.Processor
open List
variable {N : Type}

/-- The sender and the nonce of the raw transaction that a transaction carries. -/
def carries (engine : EvmEngine) (t : Transaction) : Option (EvmAddress × Nat) :=
  match t.message.instructions with
  | ix :: _ =>
    if ix.programId = EVM_PROGRAM_ID then
      (decodeEvmTransaction engine ix.data).toOption.map fun tx => (tx.source, tx.nonce)
    else none
  | [] => none

/-- **One charge and the write-back**: the payer had the fee, the burned counter has its share of it, and
    every spendable balance is what a charge to the payer and the treasury makes of it, or what the
    virtual machine has set. -/
structure ChargedOnce (store before after : ChainState N) (payer : Pubkey) (fee : Nat)
    (updates : List (Pubkey × Nat)) : Prop where
  paid : fee ≤ before.core.ledger.spendableOf payer
  burned : after.core.totalBurned = if 0 < fee then U64.saturatingAdd before.core.totalBurned
      (store.settings.feeConfig.split fee 0).1 else before.core.totalBurned
  spendable : after.core.ledger.spendableOf
    = updates.foldl (fun spendable u => Function.update spendable u.1 u.2)
      (spendableAfterFee store.settings before.core.ledger payer fee)

/-- The raw transaction that `t` carries is run once over the committed state, and its fee is charged
    once to the native account of its sender. -/
def RunOnce (engine : EvmEngine) (store before after : ChainState N) (t : Transaction)
    (sender : EvmAddress) (result : TxResult) : Prop :=
  ∃ ix tx payer outcome, t.message.instructions = [ix]
    ∧ decodeEvmTransaction engine ix.data = .ok tx
    ∧ store.lookupEvmAddress sender = some payer
    ∧ engine.transact store.evmDb (store.evmContext (tx.chainId.getD 0)) tx = .ok outcome
    ∧ result.feePaid = evmFee tx outcome.result.toEvm
    ∧ ChargedOnce store before after payer result.feePaid (nativeUpdates store outcome.state.toList)

section
variable [Crypto] (env : Programs N) (store : ChainState N) (txs : List Transaction) (slot : Nat)

/-- The batch of the first `i` transactions. -/
def batchAt (i : Nat) : ChainState N :=
  (processTransactionsSpeculativeAtSlot env store (txs.take i) slot).2

/-- **A nonce is used once**: at most one transaction that carries it gets a receipt.  That one charges
    its fee once, to the sender's native account; the others leave the batch as it is. -/
structure NonceUsedOnce (sender : EvmAddress) (nonce : Nat) : Prop where
  one : ((txs.zip (processTransactionsSpeculativeAtSlot env store txs slot).1).filter fun p =>
    decide (carries env.engine p.1 = some (sender, nonce)) && p.2.receiptEligible).length ≤ 1
  charged : ∀ (i : Nat) (t : Transaction) (result : TxResult), txs[i]? = some t →
    carries env.engine t = some (sender, nonce) →
    (processTransactionsSpeculativeAtSlot env store txs slot).1[i]? = some result →
      if result.receiptEligible then
        RunOnce env.engine store (batchAt env store txs slot i) (batchAt env store txs slot (i + 1)) t
          sender result
      else batchAt env store txs slot (i + 1) = batchAt env store txs slot i

end

section
variable [Crypto]

/-- Transactions that carry one nonce of one sender are one and the same envelope. -/
def OneEnvelope (engine : EvmEngine) (txs : List Transaction) : Prop :=
  ∀ t ∈ txs, ∀ u ∈ txs, carries engine t ≠ none → carries engine t = carries engine u →
    t.signature = u.signature

/-! ## What one transaction charges -/

section
variable {engine : EvmEngine} {t : Transaction} {p : EvmAddress × Nat}
  (h : carries engine t = some p)
include h

omit [Crypto] in
theorem isEvmInstruction_of_carries : t.isEvmInstruction = true := by
  grind [carries, Transaction.isEvmInstruction]

/-- A transaction that carries a raw one is never run natively. -/
theorem not_native_of_carries
    (hroute : admission cachedBlockhashes store batch t = .ok .native) : False := by
  have hix := isEvmInstruction_of_carries h
  unfold admission at hroute
  grind

end

/-- **A transaction that carries a raw one** charges its fee once if it has a receipt, and does nothing
    otherwise. -/
theorem charged_of_carries {env : Programs N} {store before after : ChainState N}
    (hstep : BlockStep env store slot before t result after)
    (h : carries env.engine t = some (sender, nonce)) :
    if result.receiptEligible then RunOnce env.engine store before after t sender result
    else after = before := by
  cases hstep with
  | refused hrefused => rw [if_neg (by rw [hrefused]; decide)]
  | executed hnative => exact (not_native_of_carries h hnative.route).elim
  | failed hnative _ _ => exact (not_native_of_carries h hnative.route).elim
  | evm hroute hrun =>
    obtain ⟨ix, tx, payer, outcome, changes, charged, hix, hdecode, hpayer, htransact, hconvert,
      hcharge, heligible, hfee, rfl⟩ := processEvmTransaction_eq_ok hrun
    have hsender : tx.source = sender := by
      unfold carries at h
      rw [hix] at h
      simp only at h
      split at h
      · rw [hdecode] at h
        simp only [Except.toOption, Option.map_some, Option.some.injEq, Prod.mk.injEq] at h
        exact h.1
      · exact nomatch h
    rw [if_pos heligible]
    refine ⟨ix, tx, payer, outcome, hix, hdecode, hsender ▸ hpayer, htransact, hfee, ?_⟩
    rw [hfee]
    have htaken := chargeEvmFee_taken hcharge
    have hupdates := filterMap_nativeBalanceUpdate (convertRevmStateToDeferred_eq_ok hconvert)
    refine ⟨htaken.paid, ?_, ?_⟩
    · show (applyEvmChanges store _ changes).core.totalBurned = _
      rw [applyEvmChanges_core]
      exact htaken.burned
    · show (applyEvmChanges store _ changes).core.ledger.spendableOf = _
      rw [applyEvmChanges_core, hupdates, ← htaken.spendable]
      exact spendableOf_foldl_setSpendable _ _

/-! ## Whole blocks -/

/-- **At most one receipt.** -/
theorem carriers_eligible_le_one (env : Programs N) (store : ChainState N) (slot : Nat)
    (sender : EvmAddress) (nonce : Nat) :
    OneEnvelope env.engine txs → ∀ cumulative : ChainState N,
      ((txs.zip (runBlock env store slot cumulative txs).1).filter fun p =>
        decide (carries env.engine p.1 = some (sender, nonce)) && p.2.receiptEligible).length ≤ 1 := by
  induction txs with
  | nil => exact fun _ _ => Nat.zero_le 1
  | cons t rest ih =>
    intro hone cumulative
    have hrest : OneEnvelope env.engine rest := fun t' ht' u hu =>
      hone t' (mem_cons_of_mem t ht') u (mem_cons_of_mem t hu)
    have hstep : BlockStep env store slot cumulative t _ _ := stepBlock_spec cumulative t
    have hlater := ih hrest (stepBlock env store slot cumulative t).2
    unfold runBlock
    rw [zip_cons_cons, filter_cons]
    split
    · rename_i hfirst
      obtain ⟨hcarries, heligible⟩ := Bool.and_eq_true_iff.mp hfirst
      have hcarries : carries env.engine t = some (sender, nonce) := of_decide_eq_true hcarries
      -- the envelope is stored now, and every other carrier of the nonce is the same envelope
      have hnone : ((rest.zip (runBlock env store slot
          (stepBlock env store slot cumulative t).2 rest).1).filter fun p =>
            decide (carries env.engine p.1 = some (sender, nonce)) && p.2.receiptEligible) = [] := by
        rw [filter_eq_nil_iff]
        intro p hp hboth
        obtain ⟨hsame, heligible'⟩ := Bool.and_eq_true_iff.mp hboth
        have hsame : carries env.engine p.1 = some (sender, nonce) := of_decide_eq_true hsame
        have hhash := hone t mem_cons_self p.1 (mem_cons_of_mem t (of_mem_zip hp).1)
          (by rw [hcarries]; exact Option.some_ne_none _) (by rw [hcarries, hsame])
        have hno := not_eligible_of_hot (hstep.remembers.2 heligible) p hp hhash.symm
        rw [heligible'] at hno
        exact Bool.noConfusion hno
      rw [hnone]
      exact le_refl 1
    · exact hlater

/-- **Nonces in a block that wraps every raw transaction once** are used once. -/
theorem evm_nonce_used_once (env : Programs N) (store : ChainState N) (txs : List Transaction)
    (slot : Nat) (hone : OneEnvelope env.engine txs) (sender : EvmAddress) (nonce : Nat) :
    NonceUsedOnce env store txs slot sender nonce := by
  refine ⟨carriers_eligible_le_one env store slot sender nonce hone store, ?_⟩
  intro i t result htx hcarries hresult
  obtain ⟨hstep, hafter⟩ : (runBlock env store slot store txs).1[i]? = _ ∧ _ := runBlock_at store htx
  obtain rfl : _ = result := Option.some.inj (hstep.symm.trans hresult)
  unfold batchAt processTransactionsSpeculativeAtSlot
  rw [hafter]
  exact charged_of_carries (stepBlock_spec _ t) hcarries

end

/-- A chain that runs EVM transactions and nothing else. -/
def evmPrograms (engine : EvmEngine) : Programs Unit where
  engine
  contractInstruction _ := .error "Invalid contract instruction"
  verifySignatures _ _ _ := .error "No signatures"
  executeInstruction _ _ _ _ ix := .error "Unknown program"
  mossstakeClaimable _ _ := 0
  updatesFeeDistribution _ := false
  validatePendingFeeDistribution _ _ := .ok ()
  awardAchievements _ batch _ := .ok batch.core.contractStorage

/-- The same envelope twice: the second is refused, and the nonce is used once. -/
theorem evm_nonce_used_once_repeated :
    ((@processTransactionsSpeculativeAtSlot Unit Crypto.plain (evmPrograms fiveSpores)
        (evmStart .defaultFromConstants ⟨9⟩) [evmEnvelope [⟨1⟩], evmEnvelope [⟨1⟩]] 8).1.map
        TxResult.receiptEligible) = [true, false]
      ∧ @NonceUsedOnce Unit Crypto.plain (evmPrograms fiveSpores) (evmStart .defaultFromConstants ⟨9⟩)
          [evmEnvelope [⟨1⟩], evmEnvelope [⟨1⟩]] 8 160 0 := by
  refine ⟨by decide +kernel, ?_⟩
  let _ := Crypto.plain
  refine evm_nonce_used_once (evmPrograms fiveSpores) _ _ 8 ?_ 160 0
  intro t ht u hu _ _
  simp only [List.mem_cons, List.not_mem_nil, or_false, or_self] at ht hu
  rw [ht, hu]

/-- One raw transaction in two envelopes, which differ in an account that the EVM path never reads:
    both get receipts.  The burned counter and the treasury get their shares of 21000 spores twice,
    while the payer, whose balance is set and not moved, has paid the value and the fee once. -/
theorem evm_nonce_used_twice :
    let run := @processTransactionsSpeculativeAtSlot Unit Crypto.plain (evmPrograms fiveSpores)
      (evmStart .defaultFromConstants ⟨9⟩) [evmEnvelope [⟨1⟩], evmEnvelope [⟨1⟩, ⟨2⟩]] 8
    [evmEnvelope [⟨1⟩], evmEnvelope [⟨1⟩, ⟨2⟩]].map (carries fiveSpores)
        = [some (160, 0), some (160, 0)]
      ∧ (run.1.map fun r => (r.receiptEligible, r.feePaid)) = [(true, 21000), (true, 21000)]
      ∧ (run.2.core.totalBurned, run.2.core.ledger.spendableOf ⟨9⟩,
          run.2.core.ledger.spendableOf ⟨1⟩) = (2 * 8400, 2 * 12600, 1000000000 - 5 - 21000)
      ∧ ¬ @NonceUsedOnce Unit Crypto.plain (evmPrograms fiveSpores)
          (evmStart .defaultFromConstants ⟨9⟩) [evmEnvelope [⟨1⟩], evmEnvelope [⟨1⟩, ⟨2⟩]] 8 160 0 := by
  refine ⟨by decide +kernel, by decide +kernel, by decide +kernel, fun honce => ?_⟩
  let _ := Crypto.plain
  exact absurd honce.one (by decide +kernel)

end Lichen.Processor
