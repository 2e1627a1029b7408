/-
  Transaction fees (`core/src/processor.rs`, `processor/fees.rs`).

  A fee is divided by the configured percentages into a part that is burned and a part that goes to
  the treasury.  Under a configuration that `validateDistribution` accepts the two add up to the fee,
  so charging one moves spores between the payer, the treasury and the burned counter and makes none
  (`chargeFeeWithPriorityInBatch_total`); the payer may be the treasury.
-/
import Lichen.Processor.Contracts
import Lichen.Staking.Epoch

open Base U64
namespace Lichen.Processor

def BASE_FEE : Nat := 1000000
def CONTRACT_DEPLOY_FEE : Nat := 25000000000
def CONTRACT_UPGRADE_FEE : Nat := 10000000000
def NFT_MINT_FEE : Nat := 500000000
def NFT_COLLECTION_FEE : Nat := 1000000000000

structure FeeConfig where
  baseFee : Nat
  contractDeployFee : Nat
  contractUpgradeFee : Nat
  nftMintFee : Nat
  nftCollectionFee : Nat
  feeBurnPercent : Nat
  feeProducerPercent : Nat
  feeVotersPercent : Nat
  feeTreasuryPercent : Nat
  feeCommunityPercent : Nat
  feeExemptContracts : List Pubkey
  deriving Repr

namespace FeeConfig

def defaultFromConstants : FeeConfig where
  baseFee := BASE_FEE
  contractDeployFee := CONTRACT_DEPLOY_FEE
  contractUpgradeFee := CONTRACT_UPGRADE_FEE
  nftMintFee := NFT_MINT_FEE
  nftCollectionFee := NFT_COLLECTION_FEE
  feeBurnPercent := 40
  feeProducerPercent := 30
  feeVotersPercent := 10
  feeTreasuryPercent := 10
  feeCommunityPercent := 10
  feeExemptContracts := []

/-- The percentages under the names the errors use. -/
def percentages (c : FeeConfig) : List (String × Nat) :=
  [("burn", c.feeBurnPercent), ("producer", c.feeProducerPercent), ("voters", c.feeVotersPercent),
    ("treasury", c.feeTreasuryPercent), ("community", c.feeCommunityPercent)]

def validateDistribution (c : FeeConfig) : Except String Unit := do
  forEach c.percentages fun e =>
    failIf (100 < e.2) s!"FeeConfig: {e.1} percentage must be 0..=100"
  let total := U64.saturatingAdd (U64.saturatingAdd (U64.saturatingAdd (U64.saturatingAdd
    c.feeBurnPercent c.feeProducerPercent) c.feeVotersPercent) c.feeTreasuryPercent)
    c.feeCommunityPercent
  failIf (total ≠ 100) s!"FeeConfig: fee percentages must sum to 100, got {total}"

theorem validateDistribution_defaultFromConstants :
    defaultFromConstants.validateDistribution = .ok () := rfl

theorem sum_of_validateDistribution {c : FeeConfig} (h : c.validateDistribution = .ok ()) :
    c.feeBurnPercent + c.feeProducerPercent + c.feeVotersPercent + c.feeTreasuryPercent
      + c.feeCommunityPercent = 100 := by
  unfold validateDistribution at h
  grind [U64.saturatingAdd, U64.MAX]

/-- The share of a fee that a percentage gives. -/
def portion (base percent : Nat) : Nat := U128.toU64 (base * percent / 100)

/-- How a fee of which `priorityFee` is the priority part is divided: what is burned, and what is
    left for the treasury. -/
def split (c : FeeConfig) (totalFee priorityFee : Nat) : Nat × Nat :=
  let basePortion := U64.saturatingSub totalFee priorityFee
  let baseBurn := portion basePortion c.feeBurnPercent
  let baseProducer := portion basePortion c.feeProducerPercent
  let baseVoters := portion basePortion c.feeVotersPercent
  let baseCommunity := portion basePortion c.feeCommunityPercent
  let baseAllocated := U64.saturatingAdd (U64.saturatingAdd (U64.saturatingAdd
    baseBurn baseProducer) baseVoters) baseCommunity
  let baseTreasury := U64.saturatingSub basePortion baseAllocated
  let priorityBurn := priorityFee / 2
  let priorityProducer := U64.saturatingSub priorityFee priorityBurn
  let burnAmount := U64.saturatingAdd baseBurn priorityBurn
  let totalToTreasury := U64.saturatingAdd (U64.saturatingAdd (U64.saturatingAdd
    (U64.saturatingAdd baseTreasury baseProducer) baseVoters) baseCommunity) priorityProducer
  (burnAmount, min totalToTreasury (U64.saturatingSub totalFee burnAmount))

theorem portion_of_le (hb : base < 2 ^ 64) (hp : percent ≤ 100) :
    portion base percent = base * percent / 100 := by
  apply U128.toU64_of_lt
  calc base * percent / 100 ≤ base * 100 / 100 := Nat.div_le_div_right (Nat.mul_le_mul_left _ hp)
    _ = base := Nat.mul_div_cancel _ (by decide)
    _ < 2 ^ 64 := hb

/-- Rounding down loses nothing that the other shares could claim. -/
theorem portions_le (base : Nat) (h : p + q + r + t ≤ 100) :
    base * p / 100 + base * q / 100 + base * r / 100 + base * t / 100 ≤ base := by
  have hsum : base * p + base * q + base * r + base * t ≤ base * 100 := by
    calc base * p + base * q + base * r + base * t = base * (p + q + r + t) := by
          rw [mul_add, mul_add, mul_add]
      _ ≤ base * 100 := Nat.mul_le_mul_left _ h
  omega

/-- **A valid configuration divides the whole fee.** -/
theorem split_add {c : FeeConfig} (h : c.validateDistribution = .ok ())
    (hlt : totalFee < 2 ^ 64) (hle : priorityFee ≤ totalFee) :
    (c.split totalFee priorityFee).1 + (c.split totalFee priorityFee).2 = totalFee := by
  have hsum := sum_of_validateDistribution h
  have hbase : totalFee - priorityFee < 2 ^ 64 := by omega
  have hshares := portions_le (totalFee - priorityFee)
    (show c.feeBurnPercent + c.feeProducerPercent + c.feeVotersPercent + c.feeCommunityPercent ≤ 100
      by omega)
  simp only [split, U64.saturatingSub, portion_of_le hbase (show c.feeBurnPercent ≤ 100 by omega),
    portion_of_le hbase (show c.feeProducerPercent ≤ 100 by omega),
    portion_of_le hbase (show c.feeVotersPercent ≤ 100 by omega),
    portion_of_le hbase (show c.feeCommunityPercent ≤ 100 by omega)]
  generalize (totalFee - priorityFee) * c.feeBurnPercent / 100 = burn at hshares ⊢
  generalize (totalFee - priorityFee) * c.feeProducerPercent / 100 = producer at hshares ⊢
  generalize (totalFee - priorityFee) * c.feeVotersPercent / 100 = voters at hshares ⊢
  generalize (totalFee - priorityFee) * c.feeCommunityPercent / 100 = community at hshares ⊢
  -- no sum saturates, since all of them are parts of the fee
  rw [saturatingAdd_of_lt (show burn + producer < 2 ^ 64 by omega),
    saturatingAdd_of_lt (show burn + producer + voters < 2 ^ 64 by omega),
    saturatingAdd_of_lt (show burn + producer + voters + community < 2 ^ 64 by omega)]
  generalize htreasury : totalFee - priorityFee - (burn + producer + voters + community) = treasury
  rw [saturatingAdd_of_lt (show burn + priorityFee / 2 < 2 ^ 64 by omega),
    saturatingAdd_of_lt (show treasury + producer < 2 ^ 64 by omega),
    saturatingAdd_of_lt (show treasury + producer + voters < 2 ^ 64 by omega),
    saturatingAdd_of_lt (show treasury + producer + voters + community < 2 ^ 64 by omega),
    saturatingAdd_of_lt (show treasury + producer + voters + community
      + (priorityFee - priorityFee / 2) < 2 ^ 64 by omega)]
  omega

end FeeConfig

/-! ## Charging -/

/-- `b_add_burned`. -/
def StateStore.addBurned (s : StateStore) (amount : Nat) : StateStore :=
  { s with totalBurned := U64.saturatingAdd s.totalBurned amount }

/-- The treasury is credited only if there is something to credit. -/
def creditTreasury (treasury : Option Pubkey) (missing : String) (s : Ledger) (amount : Nat) :
    Except String Ledger :=
  if 0 < amount then do
    let pubkey ← okOr treasury missing
    s.credit pubkey amount
  else .ok s

/-- `charge_fee_with_priority_in_batch`. -/
def chargeFeeWithPriorityInBatch (config : FeeConfig) (treasury : Option Pubkey) (s : StateStore)
    (payer : Pubkey) (totalFee priorityFee : Nat) : Except String StateStore := do
  let charged ← s.ledger.debit payer totalFee "Payer account not found"
  let credited ← creditTreasury treasury "Treasury pubkey not set" charged
    (config.split totalFee priorityFee).2
  pure ({ s with ledger := credited }.addBurned (config.split totalFee priorityFee).1)

theorem creditTreasury_sporesTotal (h : creditTreasury treasury missing s amount = .ok s') :
    s'.sporesTotal = s.sporesTotal + amount := by
  grind [creditTreasury, Ledger.credit_sporesTotal]

theorem creditTreasury_allBalanced
    (hs : s.AllBalanced) (h : creditTreasury treasury missing s amount = .ok s') :
    s'.AllBalanced := by
  unfold creditTreasury at h
  split at h
  · simp only [ok_rules] at h
    obtain ⟨pubkey, -, h⟩ := h
    exact hs.credit h
  · rw [Except.ok.injEq] at h
    rwa [← h]

section
variable {treasury : Option Pubkey} {s s' : StateStore} {payer : Pubkey}
  {totalFee priorityFee : Nat}

section
variable (h : chargeFeeWithPriorityInBatch config treasury s payer totalFee priorityFee = .ok s')
include h

theorem chargeFeeWithPriorityInBatch_eq_ok : ∃ charged credited,
      s.ledger.debit payer totalFee "Payer account not found" = .ok charged
      ∧ creditTreasury treasury "Treasury pubkey not set" charged
          (config.split totalFee priorityFee).2 = .ok credited
      ∧ s' = { s with ledger := credited }.addBurned (config.split totalFee priorityFee).1 := by
  grind [chargeFeeWithPriorityInBatch]

/-- **Charging a fee** moves spores to the treasury and to the burned counter and makes none. -/
theorem chargeFeeWithPriorityInBatch_total (hconfig : config.validateDistribution = .ok ())
    (hlt : totalFee < 2 ^ 64) (hle : priorityFee ≤ totalFee)
    (hburn : s.totalBurned + totalFee < 2 ^ 64) :
    s'.ledger.sporesTotal + s'.totalBurned = s.ledger.sporesTotal + s.totalBurned := by
  obtain ⟨charged, credited, hd, hc, rfl⟩ := chargeFeeWithPriorityInBatch_eq_ok h
  have hdebit := Ledger.debit_sporesTotal hd
  have hcredit := creditTreasury_sporesTotal hc
  have hsplit := FeeConfig.split_add hconfig hlt hle
  show credited.sporesTotal + U64.saturatingAdd s.totalBurned _ = _
  rw [saturatingAdd_of_lt (by omega)]
  omega

theorem chargeFeeWithPriorityInBatch_allBalanced (hs : s.ledger.AllBalanced) :
    s'.ledger.AllBalanced := by
  obtain ⟨charged, credited, hd, hc, rfl⟩ := chargeFeeWithPriorityInBatch_eq_ok h
  exact creditTreasury_allBalanced (hs.debit hd) hc

end
end

/-!
  Rent (`core/src/processor/rent_collection.rs`).

  Every account a transaction names is visited once.  An account with more than the free two kilobytes
  of data pays for the epochs since it was last visited, out of its spendable balance and no more than
  that; what is collected goes to the treasury in one credit at the end.
-/

def SLOTS_PER_MONTH : Nat := 216000 * 30
def RENT_FREE_BYTES : Nat := 2048
def DORMANCY_THRESHOLD_EPOCHS : Nat := 2

/-- `div_ceil` by a kilobyte. -/
def kilobytes (bytes : Nat) : Nat := (bytes + 1023) / 1024

/-- `compute_graduated_rent`: up to 8 KB at the rate, up to 98 KB at twice the rate, the rest at four
    times. -/
def computeGraduatedRent (dataLen ratePerKbPerEpoch : Nat) : Nat :=
  if dataLen ≤ RENT_FREE_BYTES then 0
  else
    let billable := dataLen - RENT_FREE_BYTES
    let tier1Cap := 8 * 1024
    let tier2Cap := 98 * 1024
    let tier1Kb := kilobytes (min billable tier1Cap)
    let tier2Kb := kilobytes (min (U64.saturatingSub billable tier1Cap) (tier2Cap - tier1Cap))
    let tier3Kb := kilobytes (U64.saturatingSub billable tier2Cap)
    U64.saturatingAdd (U64.saturatingAdd
      (U64.saturatingMul tier1Kb ratePerKbPerEpoch)
      (U64.saturatingMul tier2Kb (U64.saturatingMul ratePerKbPerEpoch 2)))
      (U64.saturatingMul tier3Kb (U64.saturatingMul ratePerKbPerEpoch 4))

/-- An account that could not pay all of its rent has missed epochs, and goes dormant after two. -/
def missEpochs (a : Account) (epochsElapsed : Nat) : Account :=
  let missed := U64.saturatingAdd a.missedRentEpochs epochsElapsed
  { a with
    missedRentEpochs := missed
    dormant := a.dormant || decide (DORMANCY_THRESHOLD_EPOCHS ≤ missed) }

/-- The rent of one account: the account that has paid, and how much. -/
def payRent (a : Account) (rentDue epochsElapsed : Nat) : Except String (Account × Nat) :=
  if 0 < rentDue then do
    let actualRent := min rentDue a.spendable
    let paid ← mapErr (fun e => s!"Rent deduction failed: {e}") (a.deductSpendable actualRent)
    pure (if actualRent < rentDue then missEpochs paid epochsElapsed
      else { paid with missedRentEpochs := 0 }, actualRent)
  else .ok (a, 0)

/-- What a visit makes of an account: nothing, or the account to write back and the rent it paid.  The
    source has one more exemption, for accounts without balance and data, which are below the free two
    kilobytes already. -/
def rentOf (currentSlot ratePerEpoch : Nat) (a : Account) : Except String
    (Option (Account × Nat)) :=
  if a.rentEpoch = 0 then .ok (some ({ a with rentEpoch := currentSlot }, 0))
  else if Staking.slotToEpoch currentSlot ≤ Staking.slotToEpoch a.rentEpoch then .ok none
  else if a.data.length ≤ RENT_FREE_BYTES then
    .ok (some ({ a with rentEpoch := currentSlot, missedRentEpochs := 0 }, 0))
  else do
    let epochsElapsed := Staking.slotToEpoch currentSlot - Staking.slotToEpoch a.rentEpoch
    let rentDue := U64.saturatingMul epochsElapsed (computeGraduatedRent a.data.length ratePerEpoch)
    let (paid, rent) ← payRent a rentDue epochsElapsed
    pure (some ({ paid with rentEpoch := currentSlot }, rent))

/-- The visit of one account, with the rent collected so far. -/
def visitForRent (currentSlot ratePerEpoch : Nat) (acc : Ledger × Nat) (pubkey : Pubkey) :
    Except String (Ledger × Nat) :=
  match acc.1.getAccount pubkey with
  | none => .ok acc
  | some a => do
    match ← rentOf currentSlot ratePerEpoch a with
    | none => pure acc
    | some (a, rent) => pure (acc.1.putAccount pubkey a, U64.saturatingAdd acc.2 rent)

/-- `apply_rent` over the accounts a transaction names.  The source visits a hash set of them; a visit
    touches one account and a running sum, so the order does not show. -/
def applyRent (treasury : Option Pubkey) (rentRate : Nat) (ledger : Ledger)
    (accounts : List Pubkey) : Except String Ledger :=
  if ledger.lastSlot = 0 then .ok ledger
  else do
    let ratePerEpoch := U64.saturatingMul rentRate Staking.SLOTS_PER_EPOCH / SLOTS_PER_MONTH
    let (ledger, collected) ← tryFold (visitForRent ledger.lastSlot ratePerEpoch) (ledger, 0)
      accounts.dedup
    creditTreasury treasury "Treasury pubkey not set for rent credit" ledger collected

end Lichen.Processor
