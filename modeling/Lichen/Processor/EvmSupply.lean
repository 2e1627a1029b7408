/-
  What an EVM transaction does to the native supply.

  The supply is counted in wei: the spores of all accounts and the burned counter, and what the EVM
  addresses without a native account hold.  `revm` itself destroys the base fee and nothing else.  The
  code around it adds up differently for one reason: the balances it writes back are absolute.  They
  were computed from the committed state and overwrite what the accounts have in the batch by then,
  which is less by the fee just charged (and by whatever the block took from them before, or by what
  another address of the same account was left with).  The supply grows by what `revm` was `told` the
  touched accounts hold over what the write-back has `found` there, less the base fee and the sub-spore
  remainders that are dropped (`evm_supply_change`).

  So it does not grow where the block has paid the payer the fee before, and grows with every
  transaction that has a price where the block has paid nothing into the accounts
  (`evm_supply_not_larger_if_covered`).
-/
import Lichen.Processor.Evm

open Base
namespace Lichen.Processor
open List

/-! ## Conversion -/

theorem forall₂_of_no_conversionError (h : (l.map f).filterMap conversionError? = []) :
    List.Forall₂ (fun e c => f e = .ok c) l ((l.map f).filterMap Except.toOption) := by
  induction l with
  | nil => exact .nil
  | cons e rest ih =>
    rw [map_cons] at h ⊢
    cases he : f e with
    | error err => rw [he, filterMap_cons] at h; exact absurd h (cons_ne_nil _ _)
    | ok c =>
      rw [he, filterMap_cons] at h
      exact .cons he (ih h)

variable {store : ChainState N} {changes : List EvmStateChange}

/-- The changes are the entries of the returned state, converted one by one. -/
theorem convertRevmStateToDeferred_eq_ok
    (h : convertRevmStateToDeferred store state = .ok changes) :
    List.Forall₂ (fun e c => deferChange store e = .ok c) state.toList changes := by
  grind [convertRevmStateToDeferred, forall₂_of_no_conversionError]

variable {c : EvmStateChange}

/-- **What an entry is converted to.** -/
theorem deferChange_eq_ok (h : deferChange store e = .ok c) : c.evmAddress = e.1
      ∧ c.account = (if e.2.isEmpty then none
          else some ⟨e.2.info.nonce, e.2.info.balance, e.2.info.code⟩)
      ∧ c.nativeBalanceUpdate = (if e.2.isEmpty then none
          else (store.lookupEvmAddress e.1).map fun p => (p, e.2.info.balance / WEI_PER_SPORE)) := by
  grind [deferChange]

theorem balance_of_isEmpty {a : RevmAccount} (h : a.isEmpty = true) : a.info.balance = 0 := by
  exact (of_decide_eq_true h).1

/-! ## EVM accounts -/

/-- What an EVM address without a native account holds. -/
def ownWei (addresses : HashMap EvmAddress Pubkey) (address : EvmAddress) (account : EvmAccount) :
    Nat :=
  if (addresses.get address).isSome then 0 else account.balance

/-- The account of a change, written into the EVM accounts. -/
def writeEvmAccount (accounts : HashMap EvmAddress EvmAccount) (c : EvmStateChange) :
    HashMap EvmAddress EvmAccount :=
  match c.account with
  | some account => accounts.put c.evmAddress account
  | none => accounts.remove c.evmAddress

theorem applyEvmChange_evmAccounts (store batch : ChainState N) (c : EvmStateChange) :
    (applyEvmStorage (applyEvmAccount store batch c) c).evmAccounts
      = writeEvmAccount batch.evmAccounts c := by
  unfold applyEvmStorage applyEvmAccount writeEvmAccount
  cases c.account with
  | some account => rfl
  | none => rfl

theorem applyEvmChange_core (store batch : ChainState N) (c : EvmStateChange) :
    (applyEvmStorage (applyEvmAccount store batch c) c).core = batch.core := by
  unfold applyEvmStorage applyEvmAccount
  cases c.account with
  | some account => rfl
  | none => rfl

theorem foldl_applyEvmChange (store : ChainState N) (changes : List EvmStateChange) :
    ∀ batch : ChainState N,
      (changes.foldl (fun b c => applyEvmStorage (applyEvmAccount store b c) c) batch).core
          = batch.core
      ∧ (changes.foldl (fun b c => applyEvmStorage (applyEvmAccount store b c) c) batch).evmAccounts
          = changes.foldl writeEvmAccount batch.evmAccounts := by
  induction changes with
  | nil => exact fun batch => ⟨rfl, rfl⟩
  | cons c rest ih =>
    grind [applyEvmChange_core, applyEvmChange_evmAccounts]

section
variable (store batch : ChainState N) (changes : List EvmStateChange)

theorem applyEvmChanges_evmAccounts : (applyEvmChanges store batch changes).evmAccounts
      = changes.foldl writeEvmAccount batch.evmAccounts :=
  (foldl_applyEvmChange store changes batch).2

theorem applyEvmChanges_core : (applyEvmChanges store batch changes).core = { batch.core with
          ledger := (changes.filterMap EvmStateChange.nativeBalanceUpdate).foldl setSpendable
            batch.core.ledger } := by
  unfold applyEvmChanges
  simp only [(foldl_applyEvmChange store changes batch).1]

end

/-- An address keeps its EVM account while others are written. -/
theorem get_writeEvmAccount_ne
    (h : a ≠ c.evmAddress) : (writeEvmAccount accounts c).get a = accounts.get a := by
  unfold writeEvmAccount
  grind

/-- Writing one converted entry puts what the entry holds in place of what the address held. -/
theorem sumBy_writeEvmAccount (h : deferChange store e = .ok c)
    (addresses : HashMap EvmAddress Pubkey) (accounts : HashMap EvmAddress EvmAccount) :
    (writeEvmAccount accounts c).sumBy (ownWei addresses) + accounts.share (ownWei addresses) e.1
      = accounts.sumBy (ownWei addresses)
        + (if (addresses.get e.1).isSome then 0 else e.2.info.balance) := by
  obtain ⟨haddress, haccount, -⟩ := deferChange_eq_ok h
  unfold writeEvmAccount
  grind [HashMap.sumBy_remove, ownWei, balance_of_isEmpty, HashMap.sumBy_put]

/-- **The EVM accounts after all writes.** -/
theorem sumBy_writeEvmAccounts (addresses : HashMap EvmAddress Pubkey)
    (h : List.Forall₂ (fun e c => deferChange store e = .ok c) entries changes)
    (hdistinct : (entries.map Prod.fst).Nodup) :
    ∀ accounts : HashMap EvmAddress EvmAccount,
      (changes.foldl writeEvmAccount accounts).sumBy (ownWei addresses)
          + (entries.map fun e => accounts.share (ownWei addresses) e.1).sum
        = accounts.sumBy (ownWei addresses)
          + (entries.map fun e => if (addresses.get e.1).isSome then 0 else e.2.info.balance).sum := by
  induction h with
  | nil => exact fun accounts => rfl
  | @cons e c entries changes hc hrest ih =>
    intro accounts
    rw [map_cons, nodup_cons] at hdistinct
    obtain ⟨hfresh, hdistinct⟩ := hdistinct
    have hfirst := sumBy_writeEvmAccount hc addresses accounts
    -- the later addresses still hold what they held at the start
    have hshares : (entries.map fun e => (writeEvmAccount accounts c).share (ownWei addresses) e.1)
        = entries.map fun e => accounts.share (ownWei addresses) e.1 := by
      apply map_congr_left
      intro e' he'
      have hne : e'.1 ≠ c.evmAddress := by
        rw [(deferChange_eq_ok hc).1]
        exact fun heq => hfresh (heq ▸ mem_map_of_mem he')
      unfold HashMap.share
      rw [get_writeEvmAccount_ne hne]
    grind

/-! ## Native balances -/

/-- What an account holds besides its spendable part. -/
def heldOf (ledger : Ledger) (p : Pubkey) : Nat :=
  (ledger.receiver p).staked + (ledger.receiver p).locked

section
variable (ledger : Ledger)

theorem receiver_putAccount (p p' : Pubkey) (a : Account) :
    (ledger.putAccount p a).receiver p' = if p' = p then a else ledger.receiver p' := by
  unfold Ledger.receiver
  rw [Ledger.getAccount_putAccount]
  split
  · rfl
  · rfl

theorem spendableOf_eq_receiver (p : Pubkey) :
    ledger.spendableOf p = (ledger.receiver p).spendable := by
  unfold Ledger.spendableOf Ledger.receiver
  cases ledger.getAccount p with
  | some a => rfl
  | none => rfl

theorem spendableOf_setSpendable (u : Pubkey × Nat) :
    (setSpendable ledger u).spendableOf = Function.update ledger.spendableOf u.1 u.2 := by
  funext p
  rw [spendableOf_eq_receiver]
  unfold setSpendable
  rw [receiver_putAccount, Function.update_apply]
  split
  · rfl
  · rw [spendableOf_eq_receiver]

theorem heldOf_setSpendable (u : Pubkey × Nat) (p : Pubkey) :
    heldOf (setSpendable ledger u) p = heldOf ledger p := by
  unfold heldOf setSpendable
  rw [receiver_putAccount]
  split
  · rename_i heq
    rw [heq]
    rfl
  · rfl

end

theorem withSpendable_of_lt (h : spendable + a.staked + a.locked < 2 ^ 64) :
    (withSpendable a spendable).spores = spendable + a.staked + a.locked := by
  show U64.saturatingAdd (U64.saturatingAdd spendable a.staked) a.locked = _
  rw [U64.saturatingAdd_of_lt (show spendable + a.staked < 2 ^ 64 by omega),
    U64.saturatingAdd_of_lt h]

/-- Setting a spendable balance changes the total by the difference. -/
theorem setSpendable_spec (hbal : ledger.AllBalanced) (hfits : u.2 + heldOf ledger u.1 < 2 ^ 64) :
    (setSpendable ledger u).AllBalanced
      ∧ (setSpendable ledger u).sporesTotal + ledger.spendableOf u.1
        = ledger.sporesTotal + u.2 := by
  have hr := hbal.receiver u.1
  have hput := Ledger.sporesTotal_putAccount ledger u.1 (withSpendable (ledger.receiver u.1) u.2)
  rw [Ledger.sporesOf_eq_receiver] at hput
  rw [spendableOf_eq_receiver]
  unfold heldOf at hfits
  unfold setSpendable
  unfold Account.Balanced at hr
  have hspores := withSpendable_of_lt
    (show u.2 + (ledger.receiver u.1).staked + (ledger.receiver u.1).locked < 2 ^ 64 by omega)
  exact ⟨hbal.put hspores, by omega⟩

/-- What a sequence of updates overwrites: the spendable balance each finds. -/
def overwritten : (Pubkey → Nat) → List (Pubkey × Nat) → Nat
  | _, [] => 0
  | spendable, u :: rest => spendable u.1 + overwritten (Function.update spendable u.1 u.2) rest

/-- The spendable balances after all updates. -/
theorem spendableOf_foldl_setSpendable (updates : List (Pubkey × Nat)) (ledger : Ledger) :
    (updates.foldl setSpendable ledger).spendableOf
      = updates.foldl (fun spendable u => Function.update spendable u.1 u.2) ledger.spendableOf := by
  induction updates generalizing ledger with
  | nil => rfl
  | cons u rest ih => rw [List.foldl_cons, ih, spendableOf_setSpendable, List.foldl_cons]

/-- **The native balances after all updates.** -/
theorem foldl_setSpendable (updates : List (Pubkey × Nat)) :
    ∀ ledger : Ledger, ledger.AllBalanced → (∀ u ∈ updates, u.2 + heldOf ledger u.1 < 2 ^ 64) →
      (updates.foldl setSpendable ledger).AllBalanced
        ∧ (updates.foldl setSpendable ledger).sporesTotal + overwritten ledger.spendableOf updates
          = ledger.sporesTotal + (updates.map Prod.snd).sum := by
  induction updates with
  | nil => exact fun ledger hbal hfits => ⟨hbal, rfl⟩
  | cons u rest ih =>
    grind [setSpendable_spec, heldOf_setSpendable, spendableOf_setSpendable, overwritten]

/-! ## The fee -/

variable {s : Ledger}

theorem debit_spendableOf (h : s.debit k spores missing = .ok s') (p : Pubkey) :
    s'.spendableOf p = s.spendableOf p - (if p = k then spores else 0)
      ∧ heldOf s' p = heldOf s p := by
  grind [Ledger.debit_eq_ok, Ledger.receiver, heldOf, spendableOf_eq_receiver, receiver_putAccount]

theorem debit_le (h : s.debit k spores missing = .ok s') : spores ≤ s.spendableOf k := by
  grind [Ledger.debit_eq_ok, Ledger.spendableOf]

theorem credit_spendableOf (h : s.credit k spores = .ok s') (p : Pubkey) :
    s'.spendableOf p = s.spendableOf p + (if p = k then spores else 0)
      ∧ heldOf s' p = heldOf s p := by
  obtain ⟨-, -, rfl⟩ := Ledger.credit_eq_ok.mp h
  grind [heldOf, spendableOf_eq_receiver, receiver_putAccount]

theorem creditTreasury_spendableOf
    (h : creditTreasury treasury missing s amount = .ok s') (p : Pubkey) :
    s'.spendableOf p = s.spendableOf p + (if treasury = some p then amount else 0)
      ∧ heldOf s' p = heldOf s p := by
  grind [creditTreasury, credit_spendableOf]

/-- The spendable balance of an account once the fee is charged: the payer has paid it, and the
    treasury has its share. -/
def spendableAfterFee (settings : Settings) (ledger : Ledger) (payer : Pubkey) (fee : Nat)
    (p : Pubkey) : Nat :=
  ledger.spendableOf p - (if p = payer then fee else 0)
    + (if settings.treasury = some p then (settings.feeConfig.split fee 0).2 else 0)

/-- **A fee taken once**: the payer had it, the burned counter and the treasury have their shares, and
    nothing else has changed. -/
structure FeeTaken (store batch : ChainState N) (payer : Pubkey) (fee : Nat)
    (charged : ChainState N) : Prop where
  paid : fee ≤ batch.core.ledger.spendableOf payer
  burned : charged.core.totalBurned = if 0 < fee then U64.saturatingAdd batch.core.totalBurned
      (store.settings.feeConfig.split fee 0).1 else batch.core.totalBurned
  spendable : charged.core.ledger.spendableOf
    = spendableAfterFee store.settings batch.core.ledger payer fee
  held : ∀ p, heldOf charged.core.ledger p = heldOf batch.core.ledger p
  accounts : charged.evmAccounts = batch.evmAccounts

variable {batch charged : ChainState N}

theorem chargeEvmFee_taken (h : chargeEvmFee store batch payer fee = .ok charged) :
    FeeTaken store batch payer fee charged := by
  unfold chargeEvmFee at h
  split at h
  · rename_i hpos
    rw [mapErr_eq_ok] at h
    unfold ChainState.chargeFee at h
    simp only [ok_rules] at h
    obtain ⟨core, hcharge, rfl⟩ := h
    obtain ⟨paid, credited, hd, hc, rfl⟩ := chargeFeeWithPriorityInBatch_eq_ok hcharge
    refine ⟨debit_le hd, (if_pos hpos).symm, funext fun p => ?_, fun p => ?_, rfl⟩
    · show credited.spendableOf p = _
      rw [(creditTreasury_spendableOf hc p).1, (debit_spendableOf hd p).1]
      rfl
    · show heldOf credited p = _
      rw [(creditTreasury_spendableOf hc p).2, (debit_spendableOf hd p).2]
  · rename_i hpos
    rw [Except.ok.injEq] at h
    subst h
    refine ⟨by omega, (if_neg hpos).symm, funext fun p => ?_, fun p => rfl, rfl⟩
    grind [FeeConfig.split, U64.saturatingSub, spendableAfterFee]

/-- Where the fee is divided without loss, taking it keeps the sum of the spores. -/
theorem chargeEvmFee_total (hconfig : store.settings.feeConfig.validateDistribution = .ok ())
    (hbal : batch.core.ledger.AllBalanced) (hfee : fee < 2 ^ 64)
    (hburn : batch.core.totalBurned + fee < 2 ^ 64)
    (h : chargeEvmFee store batch payer fee = .ok charged) :
    charged.core.ledger.AllBalanced
      ∧ charged.core.ledger.sporesTotal + charged.core.totalBurned
        = batch.core.ledger.sporesTotal + batch.core.totalBurned := by
  unfold chargeEvmFee at h
  split at h
  · rw [mapErr_eq_ok] at h
    unfold ChainState.chargeFee at h
    simp only [ok_rules] at h
    obtain ⟨core, hcharge, rfl⟩ := h
    exact ⟨chargeFeeWithPriorityInBatch_allBalanced hcharge hbal,
      chargeFeeWithPriorityInBatch_total hcharge hconfig hfee (Nat.zero_le _) hburn⟩
  · rw [Except.ok.injEq] at h
    subst h
    exact ⟨hbal, rfl⟩

/-! ## The supply -/

/-- The native supply in wei: all accounts, what is burned, and the EVM accounts of addresses that
    have no native account. -/
def supplyWei (addresses : HashMap EvmAddress Pubkey) (s : ChainState N) : Nat :=
  WEI_PER_SPORE * (s.core.ledger.sporesTotal + s.core.totalBurned)
    + s.evmAccounts.sumBy (ownWei addresses)

section
variable (store : ChainState N)

/-- The balance of a touched address, as the database gives it to `revm`. -/
def toldWei (address : EvmAddress) : Nat :=
  ((store.loadAccount address).map AccountInfo.balance).getD 0

/-- What `revm` was told the touched addresses hold. -/
def told (entries : List (EvmAddress × RevmAccount)) : Nat :=
  (entries.map fun e => toldWei store e.1).sum

/-- The native balances a returned state sets, in its order. -/
def nativeUpdates (entries : List (EvmAddress × RevmAccount)) :
    List (Pubkey × Nat) :=
  entries.filterMap fun e =>
    if e.2.isEmpty then none
    else (store.lookupEvmAddress e.1).map fun p => (p, e.2.info.balance / WEI_PER_SPORE)

/-- What the write-back replaces: the spendable balances that the native updates overwrite, and the
    EVM accounts of the addresses without a native account. -/
def found (store batch : ChainState N) (payer : Pubkey) (fee : Nat)
    (entries : List (EvmAddress × RevmAccount)) : Nat :=
  WEI_PER_SPORE * overwritten (spendableAfterFee store.settings batch.core.ledger payer fee)
      (nativeUpdates store entries)
    + (entries.map fun e => batch.evmAccounts.share (ownWei store.evmAddresses) e.1).sum

/-- The sub-spore remainders that native accounts lose. -/
def dust (entries : List (EvmAddress × RevmAccount)) : Nat :=
  (entries.map fun e =>
    if (store.lookupEvmAddress e.1).isSome then e.2.info.balance % WEI_PER_SPORE else 0).sum

end

/-- **The balance rules of Ethereum.**  Over the touched accounts, value and priority fees move between
    them and the base fee of the gas used is destroyed.  The sender is one of them and has used a nonce.
    Gas is used within the limit, and more of it than accounts are touched.  Whoever pays has a nonce or
    code, so an account that comes out empty had nothing. -/
structure ObeysBalanceRules (store : ChainState N) (context : EvmContext) (tx : EvmTx)
    (outcome : RevmOutcome) : Prop where
  sum : (outcome.state.toList.map fun e => e.2.info.balance).sum
      + context.basefee * outcome.result.toEvm.gasUsed
    = told store outcome.state.toList
  sender : ∃ e ∈ outcome.state.toList, e.1 = tx.source ∧ e.2.isEmpty = false
  limit : outcome.result.toEvm.gasUsed ≤ tx.gasLimit
  gas : outcome.state.toList.length < outcome.result.toEvm.gasUsed
  empty : ∀ e ∈ outcome.state.toList, e.2.isEmpty = true → toldWei store e.1 = 0

instance : Decidable (ObeysBalanceRules store context tx outcome) :=
  decidable_of_iff (_ ∧ _ ∧ _ ∧ _ ∧ _)
    ⟨fun ⟨sum, sender, limit, gas, empty⟩ => ⟨sum, sender, limit, gas, empty⟩,
      fun ⟨sum, sender, limit, gas, empty⟩ => ⟨sum, sender, limit, gas, empty⟩⟩

/-- The balances returned, divided between the two kinds of addresses. -/
theorem sum_balance (store : ChainState N) (entries : List (EvmAddress × RevmAccount)) :
    (entries.map fun e => e.2.info.balance).sum = (entries.map fun e =>
            if (store.evmAddresses.get e.1).isSome then 0 else e.2.info.balance).sum
          + WEI_PER_SPORE * ((nativeUpdates store entries).map Prod.snd).sum
          + dust store entries := by
  induction entries with
  | nil => rfl
  | cons e rest ih =>
    simp only [map_cons, sum_cons]
    rw [ih]
    unfold dust nativeUpdates ChainState.lookupEvmAddress
    cases hmap : store.evmAddresses.get e.1 with
    | none =>
      grind
    | some p =>
      grind [WEI_PER_SPORE, balance_of_isEmpty]

theorem filterMap_nativeBalanceUpdate
    (h : List.Forall₂ (fun e c => deferChange store e = .ok c) entries changes) :
    changes.filterMap EvmStateChange.nativeBalanceUpdate = nativeUpdates store entries := by
  induction h with
  | nil => rfl
  | cons hc hrest ih =>
    unfold nativeUpdates at ih ⊢
    rw [filterMap_cons, filterMap_cons, (deferChange_eq_ok hc).2.2, ih]

theorem nodup_entries (m : HashMap EvmAddress RevmAccount) : (m.toList.map Prod.fst).Nodup := by
  rw [HashMap.toList_map_fst]
  exact m.keys_nodup

/-- **What the write-back does to the supply.** -/
theorem evm_supply_change (htaken : FeeTaken store batch payer fee charged)
    (hbal : charged.core.ledger.AllBalanced)
    (htotal : charged.core.ledger.sporesTotal + charged.core.totalBurned
      = batch.core.ledger.sporesTotal + batch.core.totalBurned)
    (hrules : ObeysBalanceRules store context tx outcome)
    (hconvert : convertRevmStateToDeferred store outcome.state = .ok changes)
    (hfits : ∀ u ∈ nativeUpdates store outcome.state.toList,
      u.2 + heldOf batch.core.ledger u.1 < 2 ^ 64) :
    supplyWei store.evmAddresses (applyEvmChanges store charged changes)
        + (found store batch payer fee outcome.state.toList
          + context.basefee * outcome.result.toEvm.gasUsed + dust store outcome.state.toList)
      = supplyWei store.evmAddresses batch + told store outcome.state.toList := by
  have hentries := convertRevmStateToDeferred_eq_ok hconvert
  have hupdates := filterMap_nativeBalanceUpdate hentries
  have hevm := sumBy_writeEvmAccounts store.evmAddresses hentries (nodup_entries outcome.state)
    batch.evmAccounts
  have hnative := (foldl_setSpendable (nativeUpdates store outcome.state.toList)
    charged.core.ledger hbal (by
      intro u hu
      rw [htaken.held]
      exact hfits u hu)).2
  have hsum := sum_balance store outcome.state.toList
  have hrules := hrules.sum
  unfold supplyWei found
  rw [applyEvmChanges_evmAccounts, applyEvmChanges_core, hupdates, htaken.accounts]
  rw [htaken.spendable] at hnative
  generalize (nativeUpdates store outcome.state.toList).foldl setSpendable charged.core.ledger
    = after at hnative ⊢
  show WEI_PER_SPORE * (after.sporesTotal + charged.core.totalBurned) + _ + _ = _
  simp only [mul_add]
  have hscaled : WEI_PER_SPORE * after.sporesTotal
      + WEI_PER_SPORE * overwritten (spendableAfterFee store.settings batch.core.ledger payer fee)
          (nativeUpdates store outcome.state.toList)
      = WEI_PER_SPORE * charged.core.ledger.sporesTotal
        + WEI_PER_SPORE * ((nativeUpdates store outcome.state.toList).map Prod.snd).sum := by
    rw [← mul_add, hnative, mul_add]
  have hscaled' : WEI_PER_SPORE * charged.core.ledger.sporesTotal
      + WEI_PER_SPORE * charged.core.totalBurned
      = WEI_PER_SPORE * batch.core.ledger.sporesTotal + WEI_PER_SPORE * batch.core.totalBurned := by
    rw [← mul_add, htotal, mul_add]
  omega

/-- **What processing an EVM transaction does**, step by step. -/
theorem processEvmTransaction_eq_ok [Crypto]
    (h : processEvmTransaction engine store batch t = .ok (result, batch')) :
    ∃ ix tx payer outcome changes charged, t.message.instructions = [ix]
      ∧ decodeEvmTransaction engine ix.data = .ok tx
      ∧ store.lookupEvmAddress tx.source = some payer
      ∧ engine.transact store.evmDb (store.evmContext (tx.chainId.getD 0)) tx = .ok outcome
      ∧ convertRevmStateToDeferred store outcome.state = .ok changes
      ∧ chargeEvmFee store batch payer (evmFee tx outcome.result.toEvm) = .ok charged
      ∧ result.receiptEligible = true
      ∧ result.feePaid = evmFee tx outcome.result.toEvm
      ∧ batch' = applyEvmChanges store (ChainState.putTransaction { charged with
            evmReceipts := charged.evmReceipts.put tx.hash
              ⟨outcome.result.toEvm.success, outcome.result.toEvm.gasUsed,
                outcome.result.toEvm.createdAddress⟩ } t) changes := by
  unfold processEvmTransaction at h
  split at h
  · unfold executeEvmTransaction at h
    grind
  · exact nomatch h

/-! ## Told and found, account by account -/

/-- No two EVM addresses are registered for one native account. -/
def OneAddressEach (store : ChainState N) : Prop :=
  ∀ a b p, store.lookupEvmAddress a = some p → store.lookupEvmAddress b = some p → a = b

theorem overwritten_of_nodup (h : (updates.map Prod.fst).Nodup) (spendable : Pubkey → Nat) :
    overwritten spendable updates = (updates.map fun u => spendable u.1).sum := by
  induction updates generalizing spendable with
  | nil => rfl
  | cons u rest ih =>
    rw [map_cons, nodup_cons] at h
    unfold overwritten
    rw [ih h.2, map_cons, sum_cons]
    congr 2
    apply map_congr_left
    intro v hv
    have hne : v.1 ≠ u.1 := fun heq => h.1 (heq ▸ mem_map_of_mem hv)
    exact Function.update_of_ne hne _ _

theorem registered_of_update {e : EvmAddress × RevmAccount}
    (h : (if e.2.isEmpty then none
      else (store.lookupEvmAddress e.1).map fun p => (p, e.2.info.balance / WEI_PER_SPORE)) = some u) :
    store.lookupEvmAddress e.1 = some u.1 := by
  split at h
  · exact nomatch h
  · obtain ⟨p, hp, rfl⟩ := Option.map_eq_some_iff.mp h
    exact hp

theorem nodup_nativeUpdates (hone : OneAddressEach store) (h : (entries.map Prod.fst).Nodup) :
    ((nativeUpdates store entries).map Prod.fst).Nodup := by
  induction entries with
  | nil => exact .nil
  | cons e rest ih =>
    rw [map_cons, nodup_cons] at h
    have hrest := ih h.2
    unfold nativeUpdates at hrest ⊢
    rw [filterMap_cons]
    split
    · exact hrest
    · rename_i u hu
      rw [map_cons, nodup_cons]
      refine ⟨fun hmem => ?_, hrest⟩
      obtain ⟨v, hv, heq⟩ := mem_map.mp hmem
      obtain ⟨e', he', hv⟩ := mem_filterMap.mp hv
      -- an address for the same account further on would be this one
      have hsame : e'.1 = e.1 := hone e'.1 e.1 u.1 (heq ▸ registered_of_update hv)
        (registered_of_update hu)
      exact h.1 (hsame ▸ mem_map_of_mem he')

/-- What the write-back replaces at one address. -/
def foundAt (store batch : ChainState N) (payer : Pubkey) (fee : Nat)
    (e : EvmAddress × RevmAccount) : Nat :=
  match store.lookupEvmAddress e.1 with
  | some p =>
    if e.2.isEmpty then 0
    else WEI_PER_SPORE * spendableAfterFee store.settings batch.core.ledger payer fee p
  | none => batch.evmAccounts.share (ownWei store.evmAddresses) e.1

theorem share_of_registered (h : store.lookupEvmAddress a = some p)
    (accounts : HashMap EvmAddress EvmAccount) :
    accounts.share (ownWei store.evmAddresses) a = 0 := by
  have hown : ownWei store.evmAddresses a = fun _ => 0 := by
    funext account
    exact if_pos (Option.isSome_iff_exists.mpr ⟨p, h⟩)
  unfold HashMap.share
  rw [hown]
  cases accounts.get a with
  | some account => rfl
  | none => rfl

theorem found_eq (hone : OneAddressEach store) (h : (entries.map Prod.fst).Nodup) :
    found store batch payer fee entries = (entries.map (foundAt store batch payer fee)).sum := by
  unfold found
  rw [overwritten_of_nodup (nodup_nativeUpdates hone h)]
  clear h
  induction entries with
  | nil => rfl
  | cons e rest ih =>
    rw [map_cons, sum_cons, map_cons, sum_cons, ← ih]
    unfold nativeUpdates foundAt
    rw [filterMap_cons]
    cases hmap : store.lookupEvmAddress e.1 with
    | none => grind
    | some p => grind [share_of_registered]

theorem toldWei_of_registered (h : store.lookupEvmAddress a = some p) :
    toldWei store a = WEI_PER_SPORE * store.core.ledger.spendableOf p := by
  grind [toldWei, ChainState.loadAccount, ChainState.getNativeBalance, sporesToU256]

theorem toldWei_of_unregistered (h : store.lookupEvmAddress a = none) :
    toldWei store a = store.evmAccounts.share (ownWei store.evmAddresses) a := by
  have hown : ownWei store.evmAddresses a = EvmAccount.balance := by
    funext account
    unfold ChainState.lookupEvmAddress at h
    unfold ownWei
    rw [h]
    rfl
  unfold toldWei ChainState.loadAccount ChainState.getNativeBalance HashMap.share
  rw [h, hown]
  cases store.evmAccounts.get a with
  | some account => rfl
  | none => rfl

/-- A price of a spore or more makes the fee at least the gas. -/
theorem le_evmFee (hprice : WEI_PER_SPORE ≤ tx.gasPrice) (hgas : result.gasUsed ≤ U64.MAX) :
    result.gasUsed ≤ evmFee tx result := by
  refine le_min ?_ hgas
  rw [Nat.le_div_iff_mul_le (by decide), Nat.mul_comm]
  exact Nat.mul_le_mul_right _ hprice

theorem dust_le (store : ChainState N) (entries : List (EvmAddress × RevmAccount)) :
    dust store entries ≤ (WEI_PER_SPORE - 1) * entries.length := by
  induction entries with
  | nil => exact Nat.zero_le _
  | cons e rest ih =>
    have hlt : e.2.info.balance % WEI_PER_SPORE ≤ WEI_PER_SPORE - 1 :=
      Nat.le_pred_of_lt (Nat.mod_lt _ (by decide))
    unfold dust at ih ⊢
    rw [map_cons, sum_cons, length_cons, Nat.mul_add, Nat.add_comm]
    refine Nat.add_le_add ih ?_
    split
    · omega
    · exact Nat.zero_le _

/-! ## Where the supply grows -/

/-- What leaves the payer for good when a fee is charged: all of it, or what is burned where the payer
    is the treasury. -/
def feeLeaving (settings : Settings) (payer : Pubkey) (fee : Nat) : Nat :=
  if settings.treasury = some payer then (settings.feeConfig.split fee 0).1 else fee

/-- The block has not taken from the accounts that `revm` reads, and has paid the payer the fee before,
    whatever gas the transaction uses. -/
structure FeeCovered (store batch : ChainState N) (tx : EvmTx) (payer : Pubkey) : Prop where
  fee : ∀ gas ≤ tx.gasLimit, store.core.ledger.spendableOf payer
      + feeLeaving store.settings payer (u256ToSpores (tx.gasPrice * gas))
    ≤ batch.core.ledger.spendableOf payer
  native : ∀ a p, store.lookupEvmAddress a = some p →
    store.core.ledger.spendableOf p ≤ batch.core.ledger.spendableOf p
  evm : ∀ a, store.lookupEvmAddress a = none →
    store.evmAccounts.share (ownWei store.evmAddresses) a
      ≤ batch.evmAccounts.share (ownWei store.evmAddresses) a

/-- The block has paid nothing into the accounts that `revm` reads, and the treasury is none of them. -/
structure NothingPaidIn (store batch : ChainState N) : Prop where
  native : ∀ a p, store.lookupEvmAddress a = some p →
    batch.core.ledger.spendableOf p ≤ store.core.ledger.spendableOf p
  evm : ∀ a, store.lookupEvmAddress a = none →
    batch.evmAccounts.share (ownWei store.evmAddresses) a
      ≤ store.evmAccounts.share (ownWei store.evmAddresses) a
  treasury : ∀ a p, store.lookupEvmAddress a = some p → store.settings.treasury ≠ some p

/-- The write-back finds at least what `revm` was told. -/
theorem FeeCovered.told_le (h : FeeCovered store batch tx payer)
    (hconfig : store.settings.feeConfig.validateDistribution = .ok ())
    (hgas : gas ≤ tx.gasLimit) (hfee : u256ToSpores (tx.gasPrice * gas) < 2 ^ 64)
    (hpaid : u256ToSpores (tx.gasPrice * gas) ≤ batch.core.ledger.spendableOf payer)
    (hempty : e.2.isEmpty = true → toldWei store e.1 = 0) :
    toldWei store e.1 ≤ foundAt store batch payer (u256ToSpores (tx.gasPrice * gas)) e := by
  have hpayer := h.fee gas hgas
  have hsplit := FeeConfig.split_add hconfig hfee (Nat.zero_le _)
  generalize u256ToSpores (tx.gasPrice * gas) = fee at *
  unfold foundAt
  cases hmap : store.lookupEvmAddress e.1 with
  | none =>
    rw [toldWei_of_unregistered hmap]
    exact h.evm e.1 hmap
  | some p =>
    have hnative := h.native e.1 p hmap
    show _ ≤ ite _ _ _
    split
    · rename_i hnone
      exact (hempty hnone).le
    · rw [toldWei_of_registered hmap]
      refine Nat.mul_le_mul_left _ ?_
      unfold feeLeaving at hpayer
      unfold spendableAfterFee
      grind

/-- The write-back misses the fee at the payer's address. -/
theorem NothingPaidIn.found_le (h : NothingPaidIn store batch)
    (hpaid : fee ≤ batch.core.ledger.spendableOf payer) :
    foundAt store batch payer fee e
        + (if store.lookupEvmAddress e.1 = some payer ∧ e.2.isEmpty = false then WEI_PER_SPORE * fee
          else 0)
      ≤ toldWei store e.1 := by
  unfold foundAt
  cases hmap : store.lookupEvmAddress e.1 with
  | none =>
    rw [toldWei_of_unregistered hmap, if_neg (fun hsome => nomatch hsome.1)]
    exact h.evm e.1 hmap
  | some p =>
    have hnative := h.native e.1 p hmap
    have htreasury := h.treasury e.1 p hmap
    rw [toldWei_of_registered hmap]
    unfold spendableAfterFee
    cases hempty : e.2.isEmpty with
    | true =>
      simp only [if_true, Bool.true_eq_false, and_false, if_false]
      exact Nat.zero_le _
    | false =>
      simp only [if_neg htreasury, Nat.add_zero, Bool.false_eq_true, if_false, and_true,
        Option.some.injEq]
      by_cases hp : p = payer
      · rw [if_pos hp, if_pos hp, ← Nat.mul_add]
        rw [← hp] at hpaid
        exact Nat.mul_le_mul_left _ (by omega)
      · rw [if_neg hp, if_neg hp]
        exact Nat.mul_le_mul_left _ hnative

theorem NothingPaidIn.found_add_le (h : NothingPaidIn store batch)
    (hpaid : fee ≤ batch.core.ledger.spendableOf payer)
    (hsender : ∃ e ∈ entries, store.lookupEvmAddress e.1 = some payer ∧ e.2.isEmpty = false) :
    (entries.map (foundAt store batch payer fee)).sum + WEI_PER_SPORE * fee
      ≤ told store entries := by
  obtain ⟨e, he, hpayer⟩ := hsender
  have hone : WEI_PER_SPORE * fee ≤ (entries.map fun e => if store.lookupEvmAddress e.1 = some payer
      ∧ e.2.isEmpty = false then WEI_PER_SPORE * fee else 0).sum :=
    List.le_sum_of_mem (mem_map.mpr ⟨e, he, if_pos hpayer⟩)
  refine le_trans (Nat.add_le_add_left hone _) ?_
  rw [← sum_map_add]
  exact sum_le_sum fun e _ => h.found_le hpaid

/-- **The supply after an EVM transaction.**  It is no larger than before where the fee is covered; it is
    larger where the block has paid nothing in and gas costs a spore or more. -/
theorem evm_supply_not_larger_if_covered [Crypto] {engine : EvmEngine}
    {store batch batch' : ChainState N} {t : Transaction} {ix : Instruction} {tx : EvmTx}
    {payer : Pubkey} {outcome : RevmOutcome} {result : TxResult}
    (hix : t.message.instructions = [ix])
    (hdecode : decodeEvmTransaction engine ix.data = .ok tx)
    (hpayer : store.lookupEvmAddress tx.source = some payer)
    (hrun : engine.transact store.evmDb (store.evmContext (tx.chainId.getD 0)) tx = .ok outcome)
    (hrules : ObeysBalanceRules store (store.evmContext (tx.chainId.getD 0)) tx outcome)
    (hconfig : store.settings.feeConfig.validateDistribution = .ok ())
    (hone : OneAddressEach store) (hbal : batch.core.ledger.AllBalanced)
    (hlimit : tx.gasLimit < 2 ^ 64)
    (hburn : batch.core.totalBurned + evmFee tx outcome.result.toEvm < 2 ^ 64)
    (hfits : ∀ u ∈ nativeUpdates store outcome.state.toList,
      u.2 + heldOf batch.core.ledger u.1 < 2 ^ 64)
    (h : processEvmTransaction engine store batch t = .ok (result, batch')) :
    (FeeCovered store batch tx payer →
        supplyWei store.evmAddresses batch' ≤ supplyWei store.evmAddresses batch)
      ∧ (NothingPaidIn store batch → WEI_PER_SPORE ≤ tx.gasPrice →
        supplyWei store.evmAddresses batch < supplyWei store.evmAddresses batch') := by
  obtain ⟨ix', tx', payer', outcome', changes, charged, hix', hdecode', hpayer', hrun', hconvert,
    hcharge, -, -, rfl⟩ := processEvmTransaction_eq_ok h
  obtain rfl : ix' = ix := by
    rw [hix, List.cons.injEq] at hix'
    exact hix'.1.symm
  obtain rfl : tx' = tx := by
    rw [hdecode, Except.ok.injEq] at hdecode'
    exact hdecode'.symm
  obtain rfl : payer' = payer := by
    rw [hpayer, Option.some.injEq] at hpayer'
    exact hpayer'.symm
  obtain rfl : outcome' = outcome := by
    rw [hrun, Except.ok.injEq] at hrun'
    exact hrun'.symm
  have hfee : evmFee tx' outcome'.result.toEvm < 2 ^ 64 := by omega
  have htaken := chargeEvmFee_taken hcharge
  obtain ⟨hbal', htotal⟩ := chargeEvmFee_total hconfig hbal hfee hburn hcharge
  -- the receipt and the stored transaction carry no value
  have hstored : FeeTaken store batch payer' (evmFee tx' outcome'.result.toEvm)
      (ChainState.putTransaction { charged with
        evmReceipts := charged.evmReceipts.put tx'.hash
          ⟨outcome'.result.toEvm.success, outcome'.result.toEvm.gasUsed,
            outcome'.result.toEvm.createdAddress⟩ } t) :=
    { htaken with }
  have hchange := evm_supply_change hstored hbal' htotal hrules hconvert hfits
  rw [found_eq hone (nodup_entries outcome'.state)] at hchange
  refine ⟨fun hcovered => ?_, fun hnothing hprice => ?_⟩
  · have htold : told store outcome'.state.toList ≤ (outcome'.state.toList.map
        (foundAt store batch payer' (evmFee tx' outcome'.result.toEvm))).sum :=
      sum_le_sum fun e he =>
        hcovered.told_le hconfig hrules.limit hfee htaken.paid (hrules.empty e he)
    omega
  · have hsender : ∃ e ∈ outcome'.state.toList,
        store.lookupEvmAddress e.1 = some payer' ∧ e.2.isEmpty = false := by
      obtain ⟨e, he, hsource, hsome⟩ := hrules.sender
      exact ⟨e, he, by rw [hsource]; exact hpayer, hsome⟩
    have hmissing := hnothing.found_add_le htaken.paid hsender
    have hdust := dust_le store outcome'.state.toList
    have hgas := hrules.gas
    have hcost := le_evmFee hprice
      (show outcome'.result.toEvm.gasUsed ≤ U64.MAX from
        Nat.le_of_lt_succ (lt_of_le_of_lt hrules.limit hlimit))
    have hbase : (store.evmContext (tx'.chainId.getD 0)).basefee = 1 := rfl
    rw [hbase, Nat.one_mul] at hchange
    unfold WEI_PER_SPORE at hmissing hdust
    omega

/-! ## A plain transfer -/

/-- An engine that reads every payload as one legacy transfer, and executes it as Ethereum does when
    no code is involved: 21000 gas, the price above the base fee to the beneficiary, which is the zero
    address. -/
def transferEngine (source : EvmAddress) (call : EvmCall) (gasPrice : Nat) : EvmEngine where
  decode _ := .ok (.legacy call gasPrice)
  recoverSigner _ := some source
  txHash raw := ⟨BitVec.ofNat 256 raw.length⟩
  transact db context tx := do
    let info (address : EvmAddress) := (db.basic address).getD ⟨0, 0, []⟩
    let target := tx.target.getD 0
    failIf ((info tx.source).nonce ≠ tx.nonce) "nonce mismatch"
    failIf ((info tx.source).balance < tx.value + tx.gasLimit * tx.gasPrice) "lack of funds"
    pure ⟨.success 21000 none,
      ((∅ : HashMap EvmAddress RevmAccount).put 0 ⟨{ info 0 with
          balance := (info 0).balance + 21000 * (tx.gasPrice - context.basefee) }, []⟩).put target
        ⟨{ info target with balance := (info target).balance + tx.value }, []⟩ |>.put tx.source
        ⟨{ info tx.source with
          balance := (info tx.source).balance - tx.value - 21000 * tx.gasPrice
          nonce := (info tx.source).nonce + 1 }, []⟩⟩

/-- An account whose whole balance is spendable. -/
def spendableAccount (spores : Nat) : Account :=
    { Account.new 0 ⟨0⟩ with spores, spendable := spores }

/-- A state with one rich account, registered for one EVM address. -/
def evmStart (feeConfig : FeeConfig) (treasury : Pubkey) : ChainState Unit where
  core :=
    { ledger := (⟨∅, [], 7⟩ : Ledger).putAccount ⟨1⟩ (spendableAccount 1000000000)
      contractStorage := ∅
      totalSupply := 1000000000
      totalBurned := 0 }
  native := ()
  settings := ⟨feeConfig, some treasury, 0⟩
  blocks := ∅
  transactions := ∅
  evmAddresses := (∅ : HashMap EvmAddress Pubkey).put 160 ⟨1⟩
  evmAccounts := ∅
  evmStorage := ∅
  evmReceipts := ∅

theorem allBalanced_evmStart (feeConfig : FeeConfig) (treasury : Pubkey) :
    (evmStart feeConfig treasury).core.ledger.AllBalanced := by
  refine .put (fun k a h => ?_) (by decide)
  exact nomatch h

/-- Five spores from address 160 to address 176, at one spore for a unit of gas. -/
def fiveSpores : EvmEngine :=
  transferEngine 160 ⟨some 176, 0, 21000, 5000000000, [], some 8001⟩ 1000000000

/-- What `fiveSpores` reads. -/
def fiveSporesTx : EvmTx :=
  EvmCall.toTx ⟨some 176, 0, 21000, 5000000000, [], some 8001⟩ [1] ⟨1⟩ 160 1000000000 none none

/-- A raw transaction in its native envelope. -/
def evmEnvelope (accounts : List Pubkey) : Transaction where
  signatures := []
  message := ⟨[⟨EVM_PROGRAM_ID, accounts, [1]⟩], EVM_SENTINEL_BLOCKHASH, none, none⟩
  txType := .Evm

/-- A transfer under the default fees, from a balanced state and by the rules of Ethereum, makes
    20999999979000 wei. -/
theorem evm_transfer_mints_its_fee :
    FeeConfig.defaultFromConstants.validateDistribution = .ok ()
      ∧ (evmStart .defaultFromConstants ⟨9⟩).core.ledger.AllBalanced
      ∧ ∃ outcome result after,
        fiveSpores.transact (evmStart .defaultFromConstants ⟨9⟩).evmDb
            ((evmStart .defaultFromConstants ⟨9⟩).evmContext 8001)
            fiveSporesTx = .ok outcome
        ∧ ObeysBalanceRules (evmStart .defaultFromConstants ⟨9⟩)
            ((evmStart .defaultFromConstants ⟨9⟩).evmContext 8001) fiveSporesTx outcome
        ∧ @processEvmTransaction Unit Crypto.plain fiveSpores (evmStart .defaultFromConstants ⟨9⟩)
            (evmStart .defaultFromConstants ⟨9⟩) (evmEnvelope [⟨1⟩]) = .ok (result, after)
        ∧ result.receiptEligible = true
        ∧ supplyWei (evmStart .defaultFromConstants ⟨9⟩).evmAddresses after
          = supplyWei (evmStart .defaultFromConstants ⟨9⟩).evmAddresses
              (evmStart .defaultFromConstants ⟨9⟩) + 20999999979000 := by
  refine ⟨FeeConfig.validateDistribution_defaultFromConstants, allBalanced_evmStart _ _, ?_⟩
  refine ⟨_, _, _, eq_ok_get (by decide +kernel), by decide +kernel,
    @eq_ok_get_pair _ _ _ _ (by decide +kernel), ?_⟩
  decide +kernel

/-- The state of `evmStart` with a second account, and with what the two accounts have given. -/
def twoAccounts (first second : Nat) : ChainState Unit :=
  let start := evmStart .defaultFromConstants ⟨9⟩
  { start with core := { start.core with
      ledger := (start.core.ledger.putAccount ⟨2⟩ (spendableAccount second)).putAccount ⟨1⟩
        (spendableAccount first) } }

theorem lookupEvmAddress_twoAccounts
    (h : (twoAccounts first second).lookupEvmAddress a = some p) : a = 160 ∧ p = ⟨1⟩ := by
  change ((∅ : HashMap EvmAddress Pubkey).put 160 ⟨1⟩).get a = some p at h
  grind

/-- Before the same transfer, account 2 has paid account 1 the 21000 spores of its fee.  The fee is
    covered, and the supply does not grow. -/
theorem evm_supply_of_covered_transfer :
    (((twoAccounts 1000000000 50000).core.ledger.transfer ⟨2⟩ ⟨1⟩ 21000).toOption.map
        fun ledger => (ledger.getAccount ⟨1⟩, ledger.getAccount ⟨2⟩))
        = some (some (spendableAccount 1000021000), some (spendableAccount 29000))
      ∧ ∃ result after,
        @processEvmTransaction Unit Crypto.plain fiveSpores (twoAccounts 1000000000 50000)
            (twoAccounts 1000021000 29000) (evmEnvelope [⟨1⟩]) = .ok (result, after)
        ∧ supplyWei (twoAccounts 1000000000 50000).evmAddresses after
          ≤ supplyWei (twoAccounts 1000000000 50000).evmAddresses (twoAccounts 1000021000 29000) := by
  have hix : (evmEnvelope [⟨1⟩]).message.instructions = [⟨EVM_PROGRAM_ID, [⟨1⟩], [1]⟩] := rfl
  have hdecode : decodeEvmTransaction fiveSpores [1] = .ok fiveSporesTx := rfl
  have hpayer : (twoAccounts 1000000000 50000).lookupEvmAddress fiveSporesTx.source = some ⟨1⟩ := by
    decide +kernel
  have hone : OneAddressEach (twoAccounts 1000000000 50000) := fun a b p ha hb =>
    (lookupEvmAddress_twoAccounts ha).1.trans (lookupEvmAddress_twoAccounts hb).1.symm
  have hbal : (twoAccounts 1000021000 29000).core.ledger.AllBalanced :=
    .put (.put (allBalanced_evmStart _ _) (by decide)) (by decide)
  have hcovered : FeeCovered (twoAccounts 1000000000 50000) (twoAccounts 1000021000 29000)
      fiveSporesTx ⟨1⟩ := by
    refine ⟨fun gas hgas => ?_, fun a p h => ?_, fun a _ => Nat.le_refl _⟩
    · have hstart : (twoAccounts 1000000000 50000).core.ledger.spendableOf ⟨1⟩ = 1000000000 := by
        decide +kernel
      have hbatch : (twoAccounts 1000021000 29000).core.ledger.spendableOf ⟨1⟩ = 1000021000 := by
        decide +kernel
      have hfee : u256ToSpores (1000000000 * gas) ≤ gas :=
        le_trans (min_le_left _ _) (Nat.mul_div_cancel_left gas (by decide)).le
      change gas ≤ 21000 at hgas
      rw [hstart, hbatch]
      show _ + u256ToSpores (1000000000 * gas) ≤ _
      omega
    · rw [(lookupEvmAddress_twoAccounts h).2]
      decide +kernel
  let _ := Crypto.plain
  refine ⟨by decide +kernel, _, _, eq_ok_get_pair (by decide +kernel), ?_⟩
  exact (evm_supply_not_larger_if_covered hix hdecode hpayer (eq_ok_get (by decide +kernel))
    (by decide +kernel) rfl hone hbal (by decide) (by decide +kernel) (by decide +kernel)
    (eq_ok_get_pair (by decide +kernel))).1 hcovered

end Lichen.Processor
