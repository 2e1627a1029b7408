/-
  The mempool (`core/src/mempool.rs`): transactions waiting for a block.

  Three structures describe the same transactions: a priority queue, a map from hash to transaction,
  and a counter for every sender.  They are changed together, but not in the same way: a transaction
  enters all three at once, while a removal takes it out of the map and the counters first and then
  rebuilds the queue, and expiry goes the other way round, from the queue to the map.

  What one removal from the map does to the counters is said once (`Counted.forget`), and what
  rebuilding the queue does is said once (`Matched.keep`); every operation is a combination of the
  two.  The queue is any heap that behaves as `BinaryHeap` documents; the clock is an argument.
-/
import Lichen.Base.BinaryHeap
import Lichen.Processor.Transactions

open Base HashMap
namespace Lichen.Processor
open List

def MAX_PENDING_PER_SENDER : Nat := 100

/-! ## Priorities -/

structure PrioritizedTransaction where
  transaction : Transaction
  fee : Nat
  effectiveCuPrice : Nat
  timestamp : Nat
  hash : Hash

namespace PrioritizedTransaction

/-- `cmp`: the higher price for a compute unit, then the higher fee, then the older transaction. -/
def cmp (a b : PrioritizedTransaction) : Ordering :=
  match compare a.effectiveCuPrice b.effectiveCuPrice with
  | .eq =>
    match compare a.fee b.fee with
    | .eq => compare b.timestamp a.timestamp
    | ord => ord
  | ord => ord

/-- `a <= b` in that order. -/
def le (a b : PrioritizedTransaction) : Prop := a.cmp b ≠ .gt

instance : DecidableRel le := fun a b => inferInstanceAs (Decidable (a.cmp b ≠ .gt))

theorem le_iff {a b : PrioritizedTransaction} : a.le b ↔ a.effectiveCuPrice < b.effectiveCuPrice
      ∨ a.effectiveCuPrice = b.effectiveCuPrice
        ∧ (a.fee < b.fee ∨ a.fee = b.fee ∧ b.timestamp ≤ a.timestamp) := by
  unfold le cmp
  rcases Nat.lt_trichotomy a.effectiveCuPrice b.effectiveCuPrice with hp | hp | hp
  · grind
  · rw [Nat.compare_eq_eq.mpr hp]
    rcases Nat.lt_trichotomy a.fee b.fee with hf | hf | hf
    · grind
    · rw [Nat.compare_eq_eq.mpr hf]
      simp only [Nat.compare_ne_gt]
      omega
    · rw [Nat.compare_eq_gt.mpr hf]
      refine ⟨fun h => absurd rfl h, fun h => ?_⟩
      omega
  · rw [Nat.compare_eq_gt.mpr hp]
    refine ⟨fun h => absurd rfl h, fun h => ?_⟩
    omega

instance : Std.Total le := ⟨fun a b => by rw [le_iff, le_iff]; omega⟩

instance : IsTrans PrioritizedTransaction le := ⟨fun a b c => by
  rw [le_iff, le_iff, le_iff]
  omega⟩

end PrioritizedTransaction

/-- `compute_effective_cu_price`: the fee for a million compute units of the budget. -/
def computeEffectiveCuPrice (fee : Nat) (t : Transaction) : Nat :=
  let budget := t.message.effectiveComputeBudget.toNat
  if budget = 0 then fee else min (fee * 1000000 / budget) U64.MAX

/-- `sender()`, of a transaction whose structure is valid. -/
def senderOf (t : Transaction) : Pubkey := t.sender.getD ⟨0⟩

/-! ## The pool -/

abbrev TransactionHeap := BinaryHeap PrioritizedTransaction PrioritizedTransaction.le

structure Mempool (Q : TransactionHeap) where
  queue : Q.Heap
  transactions : HashMap Hash Transaction
  senderCounts : HashMap Pubkey Nat
  maxSize : Nat
  expirationTime : Nat

namespace Mempool

def new (Q : TransactionHeap) (maxSize expirationTime : Nat) : Mempool Q where
  queue := Q.new
  transactions := ∅
  senderCounts := ∅
  maxSize
  expirationTime

/-- `add_transaction` at the time `now`. -/
def addTransaction [Crypto] (m : Mempool Q) (t : Transaction) (fee reputation now : Nat) :
    Except String (Mempool Q) := do
  t.validateStructure
  let hash := t.signature
  failIf (m.transactions.containsKey hash = true) "Transaction already in mempool"
  failIf (m.maxSize ≤ m.transactions.size) "Mempool full"
  let sender := senderOf t
  let senderCount := (m.senderCounts.get sender).getD 0
  failIf (MAX_PENDING_PER_SENDER ≤ senderCount)
    s!"Sender {sender} has {senderCount} pending transactions (max {MAX_PENDING_PER_SENDER})"
  pure { m with
    queue := Q.push m.queue
      { transaction := t
        fee
        effectiveCuPrice := computeEffectiveCuPrice fee t
        timestamp := now
        hash }
    transactions := m.transactions.put hash t
    senderCounts := m.senderCounts.entryAdd sender 1 }

section
variable (m : Mempool Q)

/-- `get_top_transactions`: pop them and put them back. -/
def getTopTransactions (count : Nat) : List Transaction × Mempool Q :=
  let (popped, rest) := Q.popUpTo count m.queue
  (popped.map PrioritizedTransaction.transaction, { m with queue := Q.pushAll rest popped })

/-- One transaction less for `sender`; a counter that reaches zero goes. -/
def decrement (counts : HashMap Pubkey Nat) (sender : Pubkey) : HashMap Pubkey Nat :=
  match counts.get sender with
  | none => counts
  | some count =>
    if count - 1 = 0 then counts.remove sender else counts.put sender (count - 1)

/-- A transaction taken out of the map and the counters, and whether there was one.  The queue still
    has it. -/
def forget (hash : Hash) : Mempool Q × Bool :=
  match m.transactions.get hash with
  | none => (m, false)
  | some t =>
    ({ m with
        transactions := m.transactions.remove hash
        senderCounts := decrement m.senderCounts (senderOf t) }, true)

/-- The same for a list of hashes, and whether any was there. -/
def forgetAll (m : Mempool Q) : List Hash → Mempool Q × Bool
  | [] => (m, false)
  | hash :: rest =>
    let (m, removed) := m.forget hash
    let (m, anyRemoved) := m.forgetAll rest
    (m, removed || anyRemoved)

/-- The queue drained, filtered and collected again. -/
def keepQueued (keep : PrioritizedTransaction → Bool) : Mempool Q :=
  { m with queue := Q.ofVec ((Q.toVec m.queue).filter keep) }

/-- `remove_transaction`. -/
def removeTransaction (hash : Hash) : Mempool Q :=
  let (m, removed) := m.forget hash
  if removed then m.keepQueued fun ptx => decide (ptx.hash ≠ hash) else m

/-- `remove_transactions_bulk`. -/
def removeTransactionsBulk (hashes : List Hash) : Mempool Q :=
  let (m, anyRemoved) := m.forgetAll hashes
  if anyRemoved then m.keepQueued fun ptx => decide (ptx.hash ∉ hashes) else m

/-- The hashes of the queued transactions that fail a test. -/
def failing (keep : PrioritizedTransaction → Bool) : List Hash :=
  ((Q.toVec m.queue).filter fun ptx => !keep ptx).map PrioritizedTransaction.hash

/-- The common body of expiry and pruning: the queue is parted, and what fails the test is forgotten. -/
def partition (keep : PrioritizedTransaction → Bool) : Mempool Q :=
  (m.forgetAll (m.failing keep)).1.keepQueued keep

/-- `cleanup_expired` at the time `now`. -/
def cleanupExpired (now : Nat) : Mempool Q :=
  m.partition fun ptx => decide (U64.saturatingSub now ptx.timestamp < m.expirationTime)

/-- `prune_stale_blockhashes`, with the number of transactions it evicts. -/
def pruneStaleBlockhashes (validBlockhashes : List Hash) : Nat × Mempool Q :=
  let pruned := m.partition fun ptx =>
    decide (ptx.transaction.message.recentBlockhash ∈ validBlockhashes)
  (m.transactions.size - pruned.transactions.size, pruned)

/-- `remove_transactions_matching`, with the number of transactions it removes. -/
def removeTransactionsMatching (predicate : Transaction → Bool) : Nat × Mempool Q :=
  let removeHashes := (m.transactions.toList.filter fun e => predicate e.2).map Prod.fst
  if removeHashes = [] then (0, m)
  else
    (removeHashes.length,
      (m.forgetAll removeHashes).1.keepQueued fun ptx => decide (ptx.hash ∉ removeHashes))

/-- `clear`. -/
def clear : Mempool Q :=
    { m with queue := Q.new, transactions := ∅, senderCounts := ∅ }

/-! ## What the pool accounts for -/

/-- The transactions of `sender` in the map. -/
def pending (sender : Pubkey) : Nat :=
  m.transactions.sumBy fun _ t => if senderOf t = sender then 1 else 0

/-- The hashes in the queue. -/
def queuedHashes : List Hash :=
  (Q.toVec m.queue).map PrioritizedTransaction.hash

end

/-- The counters describe the map, and the limits hold. -/
structure Counted (m : Mempool Q) : Prop where
  counts : ∀ sender, m.senderCounts.get sender
    = if m.pending sender = 0 then none else some (m.pending sender)
  limit : ∀ sender, m.pending sender ≤ MAX_PENDING_PER_SENDER
  size : m.transactions.size ≤ m.maxSize

/-- The queue holds the transactions of the map, each once. -/
structure Matched (m : Mempool Q) : Prop where
  distinct : m.queuedHashes.Nodup
  queued : ∀ hash, m.transactions.containsKey hash = true → hash ∈ m.queuedHashes
  carried : ∀ ptx ∈ Q.toVec m.queue, m.transactions.get ptx.hash = some ptx.transaction

structure Accounted (m : Mempool Q) : Prop extends Counted m, Matched m

variable {m : Mempool Q}

theorem Matched.mem_queuedHashes (h : m.Matched) (hash : Hash) :
    hash ∈ m.queuedHashes ↔ m.transactions.containsKey hash = true := by
  grind [queued, HashMap.containsKey, carried, queuedHashes]

theorem counted_new (maxSize expirationTime : Nat) : (new Q maxSize expirationTime).Counted where
  counts _ := rfl
  limit _ := Nat.zero_le _
  size := Nat.zero_le _

theorem matched_of_empty (hq : Q.toVec m.queue = []) (ht : m.transactions = ∅) : m.Matched := by
  have hnone : m.queuedHashes = [] := by
    unfold queuedHashes
    rw [hq]
    rfl
  refine ⟨by rw [hnone]; exact nodup_nil, ?_, ?_⟩
  · grind [HashMap.containsKey]
  · grind

/-! ## Removals from the map -/

variable {hash : Hash}

theorem forget_of_none (h : m.transactions.get hash = none) : m.forget hash = (m, false) := by
  unfold forget
  rw [h]

variable {t : Transaction}

theorem forget_of_some (h : m.transactions.get hash = some t) : m.forget hash = ({ m with
      transactions := m.transactions.remove hash
      senderCounts := decrement m.senderCounts (senderOf t) }, true) := by
  unfold forget
  rw [h]

theorem forget_get (m : Mempool Q) (hash k : Hash) :
    (m.forget hash).1.transactions.get k = if k = hash then none else m.transactions.get k := by
  cases h : m.transactions.get hash with
  | none =>
    rw [forget_of_none h]
    split
    · next hk => rw [hk, h]
    · rfl
  | some t =>
    rw [forget_of_some h]
    exact HashMap.get_remove _ _ _

theorem forget_frame (m : Mempool Q) (hash : Hash) :
    (m.forget hash).1.queue = m.queue ∧ (m.forget hash).1.maxSize = m.maxSize := by
  unfold forget
  split <;> exact ⟨rfl, rfl⟩

/-- Nothing was there to be removed. -/
theorem get_none_of_forget (h : (m.forget hash).2 = false) : m.transactions.get hash = none := by
  cases hget : m.transactions.get hash with
  | none => rfl
  | some t =>
    rw [forget_of_some hget] at h
    exact Bool.noConfusion h

variable {m' : Mempool Q}

/-- The sender of a removed transaction has one less, the others have as many. -/
theorem pending_remove (hget : m.transactions.get hash = some t)
    (hremove : m'.transactions = m.transactions.remove hash) (sender : Pubkey) :
    m'.pending sender + (if senderOf t = sender then 1 else 0) = m.pending sender := by
  have hsum := HashMap.sumBy_remove m.transactions
    (fun _ t => if senderOf t = sender then 1 else 0) hash
  rw [HashMap.share_of_get hget] at hsum
  unfold pending
  rw [hremove]
  omega

theorem decrement_get (h : counts.get sender = some n) (k : Pubkey) :
    (decrement counts sender).get k
      = if k = sender then (if n - 1 = 0 then none else some (n - 1)) else counts.get k := by
  grind [decrement]

theorem size_remove_le (txs : HashMap Hash Transaction) (hash : Hash) :
    (txs.remove hash).size ≤ txs.size := by
  have hsum := HashMap.sumBy_remove txs (fun _ _ => 1) hash
  rw [HashMap.size_eq_sumBy, HashMap.size_eq_sumBy]
  omega

/-- **One removal** keeps the counters right. -/
theorem Counted.forget (h : m.Counted) (hash : Hash) : (m.forget hash).1.Counted := by
  cases hget : m.transactions.get hash with
  | none =>
    rw [forget_of_none hget]
    exact h
  | some t =>
    rw [forget_of_some hget]
    generalize hm' : ({ m with
      transactions := m.transactions.remove hash
      senderCounts := decrement m.senderCounts (senderOf t) } : Mempool Q) = m'
    have htx : m'.transactions = m.transactions.remove hash := by rw [← hm']
    have hcounts : m'.senderCounts = decrement m.senderCounts (senderOf t) := by rw [← hm']
    have hpending := pending_remove hget htx
    have hown : m'.pending (senderOf t) + 1 = m.pending (senderOf t) := by
      have hone := hpending (senderOf t)
      rwa [if_pos rfl] at hone
    have hold : m.senderCounts.get (senderOf t) = some (m.pending (senderOf t)) := by
      rw [h.counts, if_neg (by omega)]
    refine ⟨fun sender => ?_, fun sender => ?_, ?_⟩
    · rw [hcounts, decrement_get hold]
      grind [counts]
    · exact (Nat.le.intro (hpending sender)).trans (h.limit sender)
    · have hle := size_remove_le m.transactions hash
      grind [size]

theorem Counted.forgetAll (h : m.Counted) (hashes : List Hash) :
    (m.forgetAll hashes).1.Counted := by
  induction hashes generalizing m with
  | nil => exact h
  | cons hash rest ih => exact ih (h.forget hash)

theorem forgetAll_frame (m : Mempool Q) (hashes : List Hash) :
    (m.forgetAll hashes).1.queue = m.queue ∧ (m.forgetAll hashes).1.maxSize = m.maxSize := by
  induction hashes generalizing m with
  | nil => exact ⟨rfl, rfl⟩
  | cons hash rest ih =>
    grind [forget_frame, forgetAll]

theorem forgetAll_get (m : Mempool Q) (hashes : List Hash) (k : Hash) :
    (m.forgetAll hashes).1.transactions.get k
      = if k ∈ hashes then none else m.transactions.get k := by
  induction hashes generalizing m with
  | nil => rfl
  | cons hash rest ih =>
    grind [forgetAll, forget_get]

/-- If nothing was removed, nothing changed. -/
theorem forgetAll_of_false (h : (m.forgetAll hashes).2 = false) : (m.forgetAll hashes).1 = m := by
  induction hashes generalizing m with
  | nil => rfl
  | cons hash rest ih =>
    grind [forgetAll, forget_of_none, get_none_of_forget]

/-! ## Rebuilding the queue -/

variable {dropped : List Hash}

/-- **Rebuilding the queue** matches it to the map again, if what it keeps is what the map keeps. -/
theorem Matched.keep (h : m.Matched) {keep} (hqueue : m'.queue = m.queue)
    (hget : ∀ k, m'.transactions.get k = if k ∈ dropped then none else m.transactions.get k)
    (hkeep : ∀ ptx ∈ Q.toVec m.queue, keep ptx = true ↔ ptx.hash ∉ dropped) :
    (m'.keepQueued keep).Matched := by
  have hperm : (Q.toVec (m'.keepQueued keep).queue).Perm ((Q.toVec m.queue).filter keep) := by
    unfold keepQueued
    rw [hqueue]
    exact Q.toVec_ofVec _
  have hmem : ∀ ptx, ptx ∈ Q.toVec (m'.keepQueued keep).queue
      ↔ ptx ∈ Q.toVec m.queue ∧ ptx.hash ∉ dropped := by
    intro ptx
    rw [hperm.mem_iff, mem_filter]
    exact and_congr_right (hkeep ptx)
  refine ⟨?_, ?_, ?_⟩
  · have hhashes := (hperm.map PrioritizedTransaction.hash).nodup_iff
    exact hhashes.mpr (h.distinct.sublist (filter_sublist.map _))
  · intro hash hcontains
    have hsome : (m'.transactions.get hash).isSome = true := hcontains
    rw [hget] at hsome
    split at hsome
    · exact absurd hsome (by decide)
    · next hnot =>
      obtain ⟨ptx, hptx, rfl⟩ := mem_map.mp (h.queued hash hsome)
      exact mem_map.mpr ⟨ptx, (hmem ptx).mpr ⟨hptx, hnot⟩, rfl⟩
  · intro ptx hptx
    obtain ⟨hold, hnot⟩ := (hmem ptx).mp hptx
    show m'.transactions.get ptx.hash = _
    rw [hget, if_neg hnot]
    exact h.carried ptx hold

theorem Counted.keepQueued (h : m.Counted) (keep : PrioritizedTransaction → Bool) :
    (m.keepQueued keep).Counted :=
  ⟨h.counts, h.limit, h.size⟩

/-! ## The operations -/

theorem accounted_new (maxSize expirationTime : Nat) : (new Q maxSize expirationTime).Accounted :=
  { counted_new maxSize expirationTime, matched_of_empty Q.toVec_new rfl with }

variable {fee reputation now : Nat}

theorem addTransaction_eq_ok [Crypto] (h : m.addTransaction t fee reputation now = .ok m') :
    m.transactions.get t.signature = none ∧ m.transactions.size < m.maxSize
      ∧ (m.senderCounts.get (senderOf t)).getD 0 < MAX_PENDING_PER_SENDER
      ∧ m' = { m with
          queue := Q.push m.queue ⟨t, fee, computeEffectiveCuPrice fee t, now, t.signature⟩
          transactions := m.transactions.put t.signature t
          senderCounts := m.senderCounts.entryAdd (senderOf t) 1 } := by
  unfold addTransaction at h
  simp only [ok_rules, not_le] at h
  simp_all [HashMap.containsKey]

/-- The sender of a new transaction has one more, the others have as many. -/
theorem pending_put (hget : m.transactions.get hash = none)
    (hput : m'.transactions = m.transactions.put hash t) (sender : Pubkey) :
    m'.pending sender = (if senderOf t = sender then 1 else 0) + m.pending sender := by
  unfold pending
  rw [hput]
  exact sumBy_put_of_none _ t hget

theorem Counted.getD_counts (h : m.Counted) (sender : Pubkey) :
    (m.senderCounts.get sender).getD 0 = m.pending sender := by
  rw [h.counts]
  split
  · next hz => rw [hz]; rfl
  · rfl

section
variable [Crypto] (hadd : m.addTransaction t fee reputation now = .ok m')
include hadd

theorem Counted.addTransaction (h : m.Counted) : m'.Counted := by
  obtain ⟨hnew, hsize, hcount, hm'⟩ := addTransaction_eq_ok hadd
  have htx : m'.transactions = m.transactions.put t.signature t := by rw [hm']
  have hpending := pending_put hnew htx
  rw [h.getD_counts] at hcount
  refine ⟨fun sender => ?_, fun sender => ?_, ?_⟩
  · have hcounts : m'.senderCounts = m.senderCounts.entryAdd (senderOf t) 1 := by rw [hm']
    rw [hcounts, hpending]
    unfold HashMap.entryAdd
    grind [counts]
  · grind [limit]
  · have hgrow : m'.transactions.size = 1 + m.transactions.size := by
      rw [htx, size_eq_sumBy, size_eq_sumBy]
      exact sumBy_put_of_none _ t hnew
    have hmax : m'.maxSize = m.maxSize := by rw [hm']
    omega

theorem Matched.addTransaction (h : m.Matched) : m'.Matched := by
  obtain ⟨hnew, -, -, hm'⟩ := addTransaction_eq_ok hadd
  generalize hentry : (⟨t, fee, computeEffectiveCuPrice fee t, now, t.signature⟩ :
    PrioritizedTransaction) = entry at hm'
  have hhash : entry.hash = t.signature := by rw [← hentry]
  have hperm : (Q.toVec m'.queue).Perm (entry :: Q.toVec m.queue) := by
    rw [hm']
    exact Q.toVec_push m.queue entry
  have hhashes : m'.queuedHashes.Perm (t.signature :: m.queuedHashes) := by
    have hmap := hperm.map PrioritizedTransaction.hash
    rwa [map_cons, hhash] at hmap
  have habsent : t.signature ∉ m.queuedHashes := by
    rw [h.mem_queuedHashes]
    unfold HashMap.containsKey
    rw [hnew]
    decide
  refine ⟨?_, ?_, ?_⟩
  · grind [distinct]
  · grind [queued, HashMap.containsKey]
  · grind [carried]

theorem Accounted.addTransaction (h : m.Accounted) : m'.Accounted :=
  { h.toCounted.addTransaction hadd, h.toMatched.addTransaction hadd with }

end

/-- Forgetting hashes and rebuilding the queue without them. -/
theorem Accounted.drop (h : m.Accounted)
    (hkeep : ∀ ptx ∈ Q.toVec m.queue, keep ptx = true ↔ ptx.hash ∉ dropped) :
    ((m.forgetAll dropped).1.keepQueued keep).Accounted :=
  { (h.toCounted.forgetAll dropped).keepQueued keep,
    h.toMatched.keep (forgetAll_frame m dropped).1 (forgetAll_get m dropped) hkeep with }

theorem Accounted.removeTransactionsBulk (h : m.Accounted) (hashes : List Hash) :
    (m.removeTransactionsBulk hashes).Accounted := by
  grind [Mempool.removeTransactionsBulk, drop, forgetAll_of_false]

/-- Removing one transaction is removing a list of one. -/
theorem removeTransaction_eq (m : Mempool Q) (hash : Hash) :
    m.removeTransaction hash = m.removeTransactionsBulk [hash] := by
  simp [Mempool.removeTransaction, Mempool.removeTransactionsBulk, Mempool.forgetAll]

/-- A queued transaction fails the test if its hash is among those that do. -/
theorem Matched.mem_failing (h : m.Matched) {keep} (hptx : ptx ∈ Q.toVec m.queue) :
    ptx.hash ∈ m.failing keep ↔ keep ptx = false := by
  refine ⟨fun hmem => ?_, fun hfails => ?_⟩
  · -- the entry that failed the test has the same hash, so it is the same entry
    obtain ⟨other, hother, hhash⟩ := mem_map.mp hmem
    obtain ⟨hotherQueued, hfails⟩ := mem_filter.mp hother
    have hsame : other = ptx := inj_on_of_nodup_map h.distinct hotherQueued hptx hhash
    simpa [hsame] using hfails
  · refine mem_map_of_mem (mem_filter.mpr ⟨hptx, ?_⟩)
    rw [hfails]
    rfl

theorem Accounted.partition (h : m.Accounted)
    (keep : PrioritizedTransaction → Bool) : (m.partition keep).Accounted := by
  refine h.drop fun ptx hptx => ?_
  rw [h.mem_failing hptx, Bool.not_eq_false]

theorem Accounted.removeTransactionsMatching (h : m.Accounted)
    (predicate : Transaction → Bool) : (m.removeTransactionsMatching predicate).2.Accounted := by
  unfold Mempool.removeTransactionsMatching
  simp only
  split
  · exact h
  · exact h.drop fun ptx _ => decide_eq_true_iff

theorem Accounted.clear : m.clear.Accounted :=
  { matched_of_empty (m := m.clear) Q.toVec_new rfl with
    counts := fun _ => rfl
    limit := fun _ => Nat.zero_le _
    size := Nat.zero_le _ }

/-! ## Looking at the top -/

/-- Two pools with the same entries in queue, map and counters. -/
structure Same (m m' : Mempool Q) : Prop where
  queue : (Q.toVec m'.queue).Perm (Q.toVec m.queue)
  transactions : m'.transactions = m.transactions
  senderCounts : m'.senderCounts = m.senderCounts
  maxSize : m'.maxSize = m.maxSize
  expirationTime : m'.expirationTime = m.expirationTime

theorem same_getTopTransactions (m : Mempool Q) (count : Nat) :
    m.Same (m.getTopTransactions count).2 where
  queue := Q.toVec_pushAll_popUpTo count m.queue
  transactions := rfl
  senderCounts := rfl
  maxSize := rfl
  expirationTime := rfl

theorem Accounted.same (h : m.Accounted) (hs : m.Same m') : m'.Accounted := by
  have hhashes : m'.queuedHashes.Perm m.queuedHashes := hs.queue.map _
  have hpending : ∀ sender, m'.pending sender = m.pending sender := by
    intro sender
    unfold pending
    rw [hs.transactions]
  exact {
    counts := fun sender => by rw [hs.senderCounts, hpending]; exact h.counts sender
    limit := fun sender => by rw [hpending]; exact h.limit sender
    size := by rw [hs.transactions, hs.maxSize]; exact h.size
    distinct := hhashes.nodup_iff.mpr h.distinct
    queued := fun hash hc => by
      rw [hs.transactions] at hc
      exact hhashes.mem_iff.mpr (h.queued hash hc)
    carried := fun ptx hptx => by
      rw [hs.transactions]
      exact h.carried ptx (hs.queue.mem_iff.mp hptx) }

/-- **The top** is as many pending transactions as asked for, or all, by falling priority, and no
    transaction that was left out outranks one that is in it. -/
theorem getTopTransactions_spec (m : Mempool Q) (count : Nat) :
    ∃ top rest, (Q.toVec m.queue).Perm (top ++ rest)
      ∧ (m.getTopTransactions count).1 = top.map PrioritizedTransaction.transaction
      ∧ top.length = min count (Q.toVec m.queue).length
      ∧ top.Pairwise (fun a b => b.le a) ∧ ∀ a ∈ top, ∀ b ∈ rest, b.le a :=
  ⟨_, _, Q.toVec_popUpTo count m.queue, rfl, Q.length_popUpTo count m.queue,
    Q.popUpTo_sorted count m.queue⟩

/-! ## Runs -/

/-- A call on the pool, with the time on the clock where it is read. -/
inductive Call where
  | add (t : Transaction) (fee reputation now : Nat)
  | remove (hash : Hash)
  | removeBulk (hashes : List Hash)
  | cleanupExpired (now : Nat)
  | removeMatching (predicate : Transaction → Bool)
  | pruneStale (validBlockhashes : List Hash)
  | getTop (count : Nat)
  | clear

/-- The pool after a call; one that is refused changes nothing. -/
def run [Crypto] (m : Mempool Q) : Call → Mempool Q
  | .add t fee reputation now =>
    match m.addTransaction t fee reputation now with
    | .ok m' => m'
    | .error _ => m
  | .remove hash => m.removeTransaction hash
  | .removeBulk hashes => m.removeTransactionsBulk hashes
  | .cleanupExpired now => m.cleanupExpired now
  | .removeMatching predicate => (m.removeTransactionsMatching predicate).2
  | .pruneStale validBlockhashes => (m.pruneStaleBlockhashes validBlockhashes).2
  | .getTop count => (m.getTopTransactions count).2
  | .clear => m.clear

/-- The step: every call keeps the accounting. -/
theorem Accounted.run [Crypto] (h : m.Accounted) (call : Call) : (m.run call).Accounted := by
  cases call with
  | add t fee reputation now =>
    grind [Mempool.run, addTransaction]
  | remove hash =>
    show (m.removeTransaction hash).Accounted
    rw [removeTransaction_eq]
    exact h.removeTransactionsBulk [hash]
  | removeBulk hashes => exact h.removeTransactionsBulk hashes
  | cleanupExpired now => exact h.partition _
  | removeMatching predicate => exact h.removeTransactionsMatching predicate
  | pruneStale validBlockhashes => exact h.partition _
  | getTop count => exact h.same (same_getTopTransactions m count)
  | clear => exact Accounted.clear

theorem run_maxSize [Crypto] (m : Mempool Q) (call : Call) : (m.run call).maxSize = m.maxSize := by
  cases call with
  | add t fee reputation now =>
    unfold Mempool.run
    simp only
    split
    · next hadd =>
      obtain ⟨-, -, -, hm'⟩ := addTransaction_eq_ok hadd
      rw [hm']
    · rfl
  | remove hash =>
    show (m.removeTransaction hash).maxSize = _
    unfold Mempool.removeTransaction
    simp only
    split
    · exact (forget_frame m hash).2
    · exact (forget_frame m hash).2
  | removeBulk hashes =>
    show (m.removeTransactionsBulk hashes).maxSize = _
    unfold Mempool.removeTransactionsBulk
    simp only
    split
    · exact (forgetAll_frame m hashes).2
    · exact (forgetAll_frame m hashes).2
  | cleanupExpired now => exact (forgetAll_frame m _).2
  | removeMatching predicate =>
    show (m.removeTransactionsMatching predicate).2.maxSize = _
    unfold Mempool.removeTransactionsMatching
    simp only
    split
    · rfl
    · exact (forgetAll_frame m _).2
  | pruneStale validBlockhashes => exact (forgetAll_frame m _).2
  | getTop count => rfl
  | clear => rfl

theorem runs_maxSize [Crypto] (m : Mempool Q) (calls : List Call) :
    (calls.foldl Mempool.run m).maxSize = m.maxSize := by
  induction calls generalizing m with
  | nil => rfl
  | cons call rest ih => exact (ih _).trans (run_maxSize m call)

theorem Accounted.runs [Crypto] (h : m.Accounted) (calls : List Call) :
    (calls.foldl Mempool.run m).Accounted := by
  induction calls generalizing m with
  | nil => exact h
  | cons call rest ih => exact ih (h.run call)

/-- A new pool after a list of calls. -/
def afterCalls [Crypto] (Q : TransactionHeap) (maxSize expirationTime : Nat) (calls : List Call) :
    Mempool Q :=
  calls.foldl Mempool.run (new Q maxSize expirationTime)

/-- **Mempool accounting.**  After any calls on a new pool of any capacity, the queue holds exactly
    the hashes of the map, each once; every sender's counter is the number of its transactions, absent
    when it is zero, and no sender is over its limit; the pool is not over its capacity.  Asking for
    the top transactions leaves all of this as it is. -/
theorem mempool_accounting [Crypto] (Q : TransactionHeap) (maxSize expirationTime : Nat)
    (calls : List Call) :
    let m := afterCalls Q maxSize expirationTime calls
    (m.queuedHashes.Nodup
      ∧ (∀ hash, hash ∈ m.queuedHashes ↔ m.transactions.containsKey hash = true)
      ∧ (∀ sender, m.senderCounts.get sender
          = if m.pending sender = 0 then none else some (m.pending sender))
      ∧ (∀ sender, m.pending sender ≤ MAX_PENDING_PER_SENDER)
      ∧ m.transactions.size ≤ maxSize)
      ∧ ∀ count, m.Same (m.getTopTransactions count).2 := by
  intro m
  have hacc : m.Accounted := (accounted_new maxSize expirationTime).runs calls
  have hmax : m.maxSize = maxSize := runs_maxSize _ calls
  exact ⟨⟨hacc.distinct, hacc.mem_queuedHashes, hacc.counts, hacc.limit, hmax ▸ hacc.size⟩,
    same_getTopTransactions m⟩

end Mempool
end Lichen.Processor
