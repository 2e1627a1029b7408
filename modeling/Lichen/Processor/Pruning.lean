/-
  Which transactions pruning takes out of the mempool.

  The processor accepts a transaction that names a recent block, one whose durable nonce stores the
  hash it names, and an EVM transaction.  Pruning only looks the hash up among the recent ones, so it
  takes out nonce and EVM transactions that a block would still accept (`prune_drops_evm`);
  `prune_keeps_iff` says of which pending transactions this is not true.
-/
import Lichen.Processor.Execution
import Lichen.Processor.Mempool

open Base
namespace Lichen.Processor
section
variable {N : Type} [Crypto] {Q : TransactionHeap} {m : Mempool Q}

/-- The blockhash set of the validator loop. -/
def ChainState.window (store : ChainState N) : List Hash := store.recentBlockhashes MAX_TX_AGE_BLOCKS

/-- At the tip, `process_transaction_inner` refuses the transaction for its blockhash. -/
def BlockhashRefused (store : ChainState N) (t : Transaction) : Prop :=
  admission store.window store store t = .error "Blockhash not found or too old"

/-- The blockhash check is reached, and neither an EVM transaction nor a nonce gets past it. -/
structure NeedsRecentBlockhash (store : ChainState N) (t : Transaction) : Prop where
  structured : t.validateStructure = .ok ()
  nonzero : t.message.recentBlockhash ≠ Hash.zero
  unprocessed : store.hasHotTransaction t.signature = false
  native : t.isEvm = false
  nonceless : checkDurableNonce t store.core.ledger = false

theorem blockhashRefused_iff (hbh : t.message.recentBlockhash ∉ store.window) :
    BlockhashRefused store t ↔ NeedsRecentBlockhash store t := by
  refine ⟨fun h => ?_, fun h => ?_⟩
  · unfold BlockhashRefused admission at h
    cases hs : t.validateStructure with
    | error e =>
      rw [hs] at h
      have hhead := congrArg (fun s => s.toList.head?) (Except.error.inj h)
      simp [ToString.toString] at hhead
    | ok u =>
      rw [hs] at h
      obtain ⟨hzero, h⟩ := failIf_bind_eq_error h (by decide)
      obtain ⟨hhot, h⟩ := failIf_bind_eq_error h (by decide)
      split at h
      · obtain ⟨-, h⟩ := failIf_bind_eq_error h (by decide)
        exact nomatch h
      · next hevm =>
        have hnonce : checkDurableNonce t store.core.ledger = false := by
          by_contra hnonce
          rw [failIf, if_neg fun hbad => hnonce hbad.2] at h
          exact nomatch h
        exact ⟨hs, hzero, Bool.eq_false_of_not_eq_true hhot, Bool.eq_false_of_not_eq_true hevm,
          hnonce⟩
  · unfold BlockhashRefused admission failIf
    rw [h.structured, if_neg h.nonzero, h.unprocessed, if_neg Bool.false_ne_true, h.native,
      if_neg Bool.false_ne_true, if_pos (And.intro hbh h.nonceless)]
    rfl

omit [Crypto] in
/-- What pruning leaves of a pending transaction. -/
theorem get_pruneStaleBlockhashes (h : m.Accounted) (hptx : ptx ∈ Q.toVec m.queue)
    (valid : List Hash) : (m.pruneStaleBlockhashes valid).2.transactions.get ptx.hash
      = if ptx.transaction.message.recentBlockhash ∈ valid then some ptx.transaction else none := by
  show (m.forgetAll (m.failing _)).1.transactions.get ptx.hash = _
  rw [Mempool.forgetAll_get, h.carried ptx hptx]
  simp only [h.mem_failing hptx, decide_eq_false_iff_not, ite_not]

/-- **Pruning and the processor agree** on a pending transaction, that is, it stays unless it would be
    refused for its blockhash and goes if no rule but the window can save it, exactly if it names a
    recent block or would be refused. -/
theorem prune_keeps_iff (maxSize expirationTime : Nat) (calls : List Mempool.Call)
    (store : ChainState N)
    (hptx : ptx ∈ Q.toVec (Mempool.afterCalls Q maxSize expirationTime calls).queue) :
    let m := Mempool.afterCalls Q maxSize expirationTime calls
    let t := ptx.transaction
    let left := (m.pruneStaleBlockhashes store.window).2.transactions.get ptx.hash
    ((¬ BlockhashRefused store t → left = some t)
      ∧ (t.isEvm = false → checkDurableNonce t store.core.ledger = false →
        t.message.recentBlockhash ∉ store.window → left = none))
      ↔ t.message.recentBlockhash ∈ store.window ∨ NeedsRecentBlockhash store t := by
  intro m t left
  have hm : m.Accounted := (Mempool.accounted_new maxSize expirationTime).runs calls
  have hleft : left = if t.message.recentBlockhash ∈ store.window then some t else none :=
    get_pruneStaleBlockhashes hm hptx store.window
  by_cases hbh : t.message.recentBlockhash ∈ store.window
  · rw [if_pos hbh] at hleft
    exact iff_of_true ⟨fun _ => hleft, fun _ _ hnot => absurd hbh hnot⟩ (.inl hbh)
  · rw [if_neg hbh] at hleft
    rw [or_iff_right hbh, ← blockhashRefused_iff hbh, hleft]
    refine ⟨fun h => ?_, fun h => ⟨fun hnot => absurd h hnot, fun _ _ _ => rfl⟩⟩
    by_contra hnot
    exact nomatch h.1 hnot

end

/-- A pool with one pending transaction. -/
def onePending (t : Transaction) : Mempool (BinaryHeap.sortedVec PrioritizedTransaction.le) :=
  @Mempool.afterCalls Crypto.plain _ 10 60 [.add t 21000 0 0]

/-- **An EVM transaction is dropped** that the processor accepts. -/
theorem prune_drops_evm :
    let store := evmStart .defaultFromConstants ⟨9⟩
    let t := evmEnvelope [⟨1⟩]
    @admission Unit Crypto.plain store.window store store t = .ok .evm
      ∧ (onePending t).transactions.toList.map Prod.snd = [t]
      ∧ ((onePending t).pruneStaleBlockhashes store.window).2.transactions.toList = [] := by
  decide +kernel

/-- A transaction that names no block goes, as it should. -/
theorem prune_keeps_iff_stale :
    let t : Transaction := ⟨[], ⟨[⟨⟨3⟩, [⟨1⟩], [1]⟩], ⟨5⟩, none, none⟩, .Native⟩
    ∃ ptx ∈ (onePending t).queue.1, ((onePending t).pruneStaleBlockhashes
      (evmStart .defaultFromConstants ⟨9⟩).window).2.transactions.get ptx.hash = none := by
  intro t
  let _ := Crypto.plain
  have hone : (onePending t).queue.1.map PrioritizedTransaction.transaction = [t] := by
    decide +kernel
  obtain ⟨ptx, hptx, htx⟩ := List.mem_map.mp (hone ▸ List.mem_singleton_self t)
  have hiff := @prune_keeps_iff Unit _ (.sortedVec _) ptx 10 60 [.add t 21000 0 0]
    (evmStart .defaultFromConstants ⟨9⟩) hptx
  simp only [htx] at hiff
  refine ⟨ptx, hptx, (hiff.mpr (.inr ⟨?_, ?_, ?_, ?_, ?_⟩)).2 ?_ ?_ ?_⟩
  all_goals decide +kernel

end Lichen.Processor
