/-
  The canonical commit certificate (`CanonicalCommitCertificate` in `core/src/consensus.rs`): what a
  block carries as its first transaction to prove that its parent was committed.

  `fromCommittedBlock` packs the signatures an engine collected together with the complete list of
  canonical powers, which the parent header commits to by hash; `verifyParent` is what every node
  checks.  The powers here are not the ones the engine counted with, which is why their agreement
  is a theorem (or not) of its own.

  Power sums are `u128` in the source, with saturating operations that no list fitting in memory
  reaches; they are natural numbers here.
-/
import Lichen.Core.Stake

open Base HashMap
namespace Lichen
open CanonicalValidatorPower List

def CANONICAL_COMMIT_ENVELOPE_VERSION : UInt8 := 2

def CANONICAL_COMMIT_ENVELOPE_OPCODE : UInt8 := 41

/-- `processor::SYSTEM_PROGRAM_ID`. -/
def SYSTEM_PROGRAM_ID : Pubkey := ⟨0⟩

structure CanonicalCommitCertificate where
  version : UInt8
  height : UInt64
  round : UInt32
  blockHash : Hash
  validatorsHash : Hash
  validatorPowers : List CanonicalValidatorPower
  parentPostStateRoot : Hash
  childMetadataHash : Hash
  signatures : List CommitSignature

/-- `bincode` on what a block carries: transactions, to hash them, and certificates. -/
structure BlockCodec where
  serializeTransaction : Transaction → List UInt8
  deserializeCertificate : List UInt8 → Except String CanonicalCommitCertificate

/-- `b"LICHEN_BLOCK_METADATA_V1"`. -/
def BLOCK_METADATA_TAG : List UInt8 :=
  [76, 73, 67, 72, 69, 78, 95, 66, 76, 79, 67, 75, 95, 77, 69, 84, 65, 68, 65, 84, 65, 95, 86, 49]

/-- A sequence in fixed-width bincode: its length, then its items. -/
def bincodeSeq {α : Type} (item : α → List UInt8) (l : List α) : List UInt8 :=
  leBytes 8 l.length ++ l.flatMap item

/-- The hashed bytes of `canonical_block_metadata_hash`.  Serializing into a vector does not fail. -/
def canonicalBlockMetadataBytes (txFeesPaid : List UInt64) (oraclePrices : List (String × UInt64)) :
    List UInt8 :=
  BLOCK_METADATA_TAG ++ (bincodeSeq (fun fee => leBytes 8 fee.toNat) txFeesPaid
    ++ bincodeSeq (fun p => bincodeSeq (fun b => [b]) p.1.toUTF8.toList ++ leBytes 8 p.2.toNat)
      oraclePrices)

def canonicalBlockMetadataHash [Crypto] (txFeesPaid : List UInt64)
    (oraclePrices : List (String × UInt64)) : Hash :=
  Crypto.hash (canonicalBlockMetadataBytes txFeesPaid oraclePrices)

/-- The `windows(2)` scan: every key is below the next. -/
def strictlyOrdered (keys : List Pubkey) : Bool :=
  (keys.zip keys.tail).all fun p => decide (p.1.val < p.2.val)

namespace CommitSignature

/-- The order of `sort_by_key(|signature| signature.validator)`. -/
def keyLe (a b : CommitSignature) : Prop := a.validator.val ≤ b.validator.val

instance : DecidableRel keyLe :=
  fun a b => inferInstanceAs (Decidable (a.validator.val ≤ b.validator.val))

end CommitSignature

/-- The canonical powers that reach the minimum, by validator. -/
def eligiblePowers (powers : List CanonicalValidatorPower) (minValidatorStake : UInt64) :
    HashMap Pubkey UInt64 :=
  (powers.filter fun p => decide (minValidatorStake ≤ p.power)).foldl
    (fun m p => m.put p.validator p.power) ∅

namespace CanonicalCommitCertificate

variable [Crypto]

section
variable (c : CanonicalCommitCertificate)

def validateCanonicalShape : Except String Unit :=
  if c.version ≠ CANONICAL_COMMIT_ENVELOPE_VERSION then
    .error ("unsupported canonical commit certificate version " ++ toString c.version)
  else if c.height = 0 then .error "canonical commit certificate cannot target genesis"
  else if c.signatures.isEmpty then .error "canonical commit certificate has no signatures"
  else if c.childMetadataHash = Hash.zero then
    .error "canonical commit certificate has no child metadata commitment"
  else if c.parentPostStateRoot = Hash.zero then
    .error "canonical commit certificate has no parent post-state root"
  else if c.validatorPowers.isEmpty then
    .error "canonical commit certificate has no validator powers"
  else if !strictlyOrdered (c.validatorPowers.map CanonicalValidatorPower.validator) then
    .error "canonical validator powers must be strictly ordered by validator"
  else if canonicalValidatorPowersHash c.validatorPowers ≠ c.validatorsHash then
    .error "canonical validator powers do not match the parent validators hash"
  else if !strictlyOrdered (c.signatures.map CommitSignature.validator) then
    .error "canonical commit signatures must be strictly ordered by validator"
  else .ok ()

/-- The certificate `from_committed_block` checks and returns. -/
def ofBlock (block : Block) (validatorPowers : List CanonicalValidatorPower)
    (parentPostStateRoot : Hash) : CanonicalCommitCertificate where
  version := CANONICAL_COMMIT_ENVELOPE_VERSION
  height := block.header.slot
  round := block.commitRound
  blockHash := block.hash
  validatorsHash := block.header.validatorsHash
  validatorPowers := validatorPowers
  parentPostStateRoot := parentPostStateRoot
  childMetadataHash := canonicalBlockMetadataHash [] []
  signatures := block.commitSignatures.insertionSort CommitSignature.keyLe

def fromCommittedBlock (block : Block) (validatorPowers : List CanonicalValidatorPower)
    (parentPostStateRoot : Hash) : Except String CanonicalCommitCertificate :=
  if block.header.slot = 0 then .error "genesis has no commit certificate"
  else if block.commitSignatures.isEmpty then
    .error ("block " ++ toString block.header.slot ++ " has no local commit certificate")
  else
    let certificate := ofBlock block validatorPowers parentPostStateRoot
    match certificate.validateCanonicalShape with
    | .error e => .error e
    | .ok () => .ok certificate

/-- The precommit a signature of the certificate stands for. -/
def precommitOf (s : CommitSignature) : Precommit :=
  ⟨c.height, c.round, some c.blockHash, s.validator, s.signature, s.timestamp⟩

/-- The loop of `verify_parent`: the power of the eligible signers whose signature verifies. -/
def committedPower (chainId : ChainId)
    (eligible : HashMap Pubkey UInt64) : Nat :=
  c.signatures.foldl (fun acc s =>
    match eligible.get s.validator with
    | none => acc
    | some power =>
      if (c.precommitOf s).verifySignatureWithChainId chainId then acc + power.toNat else acc) 0

def verifyParent (parent : Block) (chainId : ChainId)
    (minValidatorStake : UInt64) : Except String Unit :=
  match c.validateCanonicalShape with
  | .error e => .error e
  | .ok () =>
    if c.height ≠ parent.header.slot ∨ c.blockHash ≠ parent.hash
        ∨ c.validatorsHash ≠ parent.header.validatorsHash then
      .error "canonical commit certificate does not match parent block"
    else
      let eligible := eligiblePowers c.validatorPowers minValidatorStake
      let totalPower := totalIn eligible
      if totalPower = 0 then
        .error "canonical commit certificate has no eligible validator power"
      else
        let committed := c.committedPower chainId eligible
        if totalPower * 2 ≤ committed * 3 then .ok ()
        else .error ("Insufficient canonical commit power: " ++ toString committed ++ " / "
          ++ toString totalPower ++ " (need 2/3+)")

def verifyChildMetadata (txFeesPaid : List UInt64)
    (oraclePrices : List (String × UInt64)) : Except String Unit :=
  let expected := canonicalBlockMetadataHash txFeesPaid oraclePrices
  if c.childMetadataHash ≠ expected then
    .error ("canonical child metadata mismatch: certificate=" ++ c.childMetadataHash.toHex
      ++ " block=" ++ expected.toHex)
  else .ok ()

end

/-- `from_transaction`: the certificate a consensus transaction carries. -/
def fromTransaction (codec : BlockCodec) (transaction : Transaction) :
    Except String (Option CanonicalCommitCertificate) :=
  if !transaction.isConsensus then .ok none
  else match transaction.signatures, transaction.message.instructions,
      transaction.message.computeBudget, transaction.message.computeUnitPrice with
    | [], [instruction], none, none =>
      if instruction.programId ≠ SYSTEM_PROGRAM_ID ∨ instruction.accounts ≠ [SYSTEM_PROGRAM_ID]
          ∨ instruction.data.head? ≠ some CANONICAL_COMMIT_ENVELOPE_OPCODE then
        .error "invalid canonical commit instruction shape"
      else match codec.deserializeCertificate instruction.data.tail with
        | .error e => .error e
        | .ok certificate =>
          match certificate.validateCanonicalShape with
          | .error e => .error e
          | .ok () =>
            if transaction.message.recentBlockhash ≠ certificate.blockHash then
              .error "canonical commit transaction blockhash does not match its certificate"
            else .ok (some certificate)
    | _, _, _, _ => .error "invalid canonical commit transaction shape"

end CanonicalCommitCertificate

/-! ## Order -/

theorem strictlyOrdered_of_pairwise {keys}
    (h : keys.Pairwise fun a b => a.val < b.val) : strictlyOrdered keys = true := by
  induction keys with
  | nil => rfl
  | cons a keys ih =>
    cases keys with
    | nil => rfl
    | cons b keys =>
      obtain ⟨hfirst, hrest⟩ := pairwise_cons.mp h
      have hlt : decide (a.val < b.val) = true := decide_eq_true (hfirst b mem_cons_self)
      show (decide (a.val < b.val) && strictlyOrdered (b :: keys)) = true
      rw [hlt, ih hrest]
      rfl

/-- Sorting by key puts distinct keys in strict order. -/
theorem pairwise_lt_insertionSort {α : Type} {r} [DecidableRel r] (key : α → Pubkey)
    (hr : ∀ a b, r a b ↔ (key a).val ≤ (key b).val) {l : List α} (hl : (l.map key).Nodup) :
    ((l.insertionSort r).map key).Pairwise fun a b => a.val < b.val := by
  have htotal : Std.Total r := by
    constructor
    intro a b
    rw [hr, hr, BitVec.le_def, BitVec.le_def]
    omega
  have htrans : IsTrans α r := by
    constructor
    intro a b c hab hbc
    rw [hr, BitVec.le_def] at hab hbc ⊢
    omega
  have hsorted := pairwise_insertionSort r l
  have hnodup : ((l.insertionSort r).map key).Nodup :=
    ((l.perm_insertionSort r).map key).nodup_iff.mpr hl
  rw [List.Nodup, pairwise_map] at hnodup
  rw [pairwise_map]
  refine (hsorted.and hnodup).imp ?_
  rintro a b ⟨hle, hne⟩
  rw [hr, BitVec.le_def] at hle
  have hval : (key a).val.toNat ≠ (key b).val.toNat := by
    intro heq
    apply hne
    cases ha : key a
    cases hb : key b
    rw [ha, hb] at heq
    rw [Pubkey.mk.injEq]
    exact BitVec.eq_of_toNat_eq heq
  rw [BitVec.lt_def]
  omega

theorem pairwise_sortedValidators (vs : ValidatorSet) :
    (vs.sortedValidators.map ValidatorInfo.pubkey).Pairwise fun a b => a.val < b.val :=
  pairwise_lt_insertionSort ValidatorInfo.pubkey (fun _ _ => Iff.rfl) vs.nodup

/-- The canonical powers are listed in strict order. -/
theorem pairwise_canonicalValidatorPowers (vs : ValidatorSet) (pool : StakePool) :
    ((canonicalValidatorPowers vs pool).map validator).Pairwise fun a b => a.val < b.val := by
  refine (pairwise_sortedValidators vs).sublist ?_
  unfold canonicalValidatorPowers
  split
  · rw [map_filterMap]
    generalize vs.sortedValidators = l
    induction l with
    | nil => exact List.Sublist.refl _
    | cons v l ih =>
      rw [filter_cons, map_cons]
      split
      · rw [filterMap_cons]
        split
        · exact ih.cons _
        · simp_all
      · exact ih.cons _
  · rw [map_map]
    exact List.Sublist.refl _

/-! ## Eligible powers -/

theorem get_eligiblePowers_of_mem (hnd : (powers.map validator).Nodup)
    (hp : p ∈ powers) (minStake : UInt64) :
    (eligiblePowers powers minStake).get p.validator
      = if minStake ≤ p.power then some p.power else none := by
  have hsub : ((powers.filter fun p => decide (minStake ≤ p.power)).map
      validator).Nodup := hnd.sublist (filter_sublist.map _)
  obtain ⟨hin, hout⟩ := get_foldl_put_entries validator
    power (powers.filter fun p => decide (minStake ≤ p.power)) ∅ hsub
  unfold eligiblePowers
  split
  · grind
  · rename_i hlt
    rw [hout _ ?_]
    · exact get_empty _
    · -- the only entry for this validator is below the minimum
      intro hmem
      obtain ⟨q, hq, hkey⟩ := mem_map.mp hmem
      obtain ⟨hq, hle⟩ := mem_filter.mp hq
      obtain rfl := inj_on_of_nodup_map hnd hq hp hkey
      exact hlt (of_decide_eq_true hle)

theorem get_eligiblePowers_of_not_mem (hnd : (powers.map validator).Nodup)
    (hk : k ∉ powers.map validator) (minStake : UInt64) :
    (eligiblePowers powers minStake).get k = none := by
  have hout := (get_foldl_put_entries validator
    power (powers.filter fun p => decide (minStake ≤ p.power)) ∅
    (hnd.sublist (filter_sublist.map _))).2
  grind [eligiblePowers]

theorem nodup_canonicalValidatorPowers (vs : ValidatorSet) (pool : StakePool) :
    ((canonicalValidatorPowers vs pool).map validator).Nodup := by
  refine (pairwise_canonicalValidatorPowers vs pool).imp ?_
  rintro a b hlt rfl
  rw [BitVec.lt_def] at hlt
  omega

/-- What the canonical list has for an active validator: its frozen power, or without Staking V2
    its live stake. -/
theorem mem_canonicalValidatorPowers
    (hactive : ∀ v ∈ vs.validators, v.pendingActivation = false) (p : CanonicalValidatorPower) :
    p ∈ canonicalValidatorPowers vs pool ↔ ∃ v ∈ vs.validators, p.validator = v.pubkey
      ∧ (if pool.stakingV2State.isSome then pool.stakingV2ConsensusPower v.pubkey
        else some (((pool.getStake v.pubkey).map StakeInfo.totalStake).getD 0)) = some p.power := by
  have hmem : ∀ v, v ∈ vs.sortedValidators ↔ v ∈ vs.validators :=
    fun v => (vs.validators.perm_insertionSort ValidatorSet.keyLe).mem_iff
  unfold canonicalValidatorPowers
  split
  · rw [mem_filterMap]
    constructor
    · rintro ⟨v, hv, hp⟩
      obtain ⟨power, hpower, rfl⟩ := Option.map_eq_some_iff.mp hp
      exact ⟨v, (hmem v).mp (mem_filter.mp hv).1, rfl, hpower⟩
    · rintro ⟨v, hv, hkey, hpower⟩
      refine ⟨v, mem_filter.mpr ⟨(hmem v).mpr hv, by rw [hactive v hv]; rfl⟩, ?_⟩
      rw [hpower, ← hkey]
      rfl
  · rw [mem_map]
    constructor
    · rintro ⟨v, hv, rfl⟩
      exact ⟨v, (hmem v).mp hv, rfl, rfl⟩
    · rintro ⟨v, hv, hkey, hpower⟩
      refine ⟨v, (hmem v).mpr hv, ?_⟩
      rw [Option.some.inj hpower, ← hkey]

/-! ## What the certificate needs -/

/-- The validators in `l` have 2/3 of the power in `m`. -/
def HasTwoThirds (m : HashMap Pubkey UInt64) (l : List Pubkey) : Prop :=
  0 < totalIn m ∧ totalIn m * 2 ≤ (l.map (powerIn m)).sum * 3

namespace CanonicalCommitCertificate

variable [Crypto]

/-- If every signature verifies, the committed power is that of the signers. -/
theorem committedPower_eq (c : CanonicalCommitCertificate) (chainId : ChainId)
    (eligible : HashMap Pubkey UInt64)
    (hsigs : ∀ s ∈ c.signatures, (c.precommitOf s).verifySignatureWithChainId chainId = true) :
    c.committedPower chainId eligible
      = ((c.signatures.map CommitSignature.validator).map (powerIn eligible)).sum := by
  unfold committedPower
  -- the loop, from any accumulator
  suffices hloop : ∀ (l : List CommitSignature) (acc : Nat),
      (∀ s ∈ l, (c.precommitOf s).verifySignatureWithChainId chainId = true) →
      l.foldl (fun acc s =>
        match eligible.get s.validator with
        | none => acc
        | some power =>
          if (c.precommitOf s).verifySignatureWithChainId chainId then acc + power.toNat else acc) acc
        = acc + ((l.map CommitSignature.validator).map (powerIn eligible)).sum by
    rw [hloop c.signatures 0 hsigs, zero_add]
  intro l
  induction l with
  | nil => intro acc _; rfl
  | cons s l ih =>
    grind [powerIn]

/-- The checks on the shape, as one condition. -/
structure WellShaped (c : CanonicalCommitCertificate) : Prop where
  version : c.version = CANONICAL_COMMIT_ENVELOPE_VERSION
  height : c.height ≠ 0
  signatures : c.signatures ≠ []
  childMetadataHash : c.childMetadataHash ≠ Hash.zero
  parentPostStateRoot : c.parentPostStateRoot ≠ Hash.zero
  validatorPowers : c.validatorPowers ≠ []
  powersOrdered : strictlyOrdered (c.validatorPowers.map CanonicalValidatorPower.validator) = true
  validatorsHash : canonicalValidatorPowersHash c.validatorPowers = c.validatorsHash
  signaturesOrdered : strictlyOrdered (c.signatures.map CommitSignature.validator) = true

theorem validateCanonicalShape_ok {c : CanonicalCommitCertificate} (h : c.WellShaped) :
    c.validateCanonicalShape = .ok () := by
  unfold validateCanonicalShape
  rw [if_neg (not_not_intro h.version), if_neg h.height, if_neg (by simp [h.signatures]),
    if_neg h.childMetadataHash, if_neg h.parentPostStateRoot, if_neg (by simp [h.validatorPowers]),
    if_neg (by simp [h.powersOrdered]), if_neg (not_not_intro h.validatorsHash),
    if_neg (by simp [h.signaturesOrdered])]

/-- **A committed block can be certified**, if its signatures are valid precommits of distinct
    validators with 2/3 of the canonical power. -/
theorem certifies {powers block}
    {chainId : ChainId} {minStake : UInt64} (hslot : block.header.slot ≠ 0)
    (hroot : root ≠ Hash.zero) (hmeta : canonicalBlockMetadataHash [] [] ≠ Hash.zero)
    (hpowers : (powers.map validator).Pairwise fun a b => a.val < b.val)
    (hhash : canonicalValidatorPowersHash powers = block.header.validatorsHash)
    (hnodup : (block.commitSignatures.map CommitSignature.validator).Nodup)
    (hsigs : ∀ s ∈ block.commitSignatures,
      ((ofBlock block powers root).precommitOf s).verifySignatureWithChainId chainId = true)
    (hquorum : HasTwoThirds (eligiblePowers powers minStake)
      (block.commitSignatures.map CommitSignature.validator)) :
    ∃ c, fromCommittedBlock block powers root = .ok c
      ∧ c.verifyParent block chainId minStake = .ok () := by
  have hperm := block.commitSignatures.perm_insertionSort CommitSignature.keyLe
  have hsignatures : block.commitSignatures ≠ [] := by
    intro hnil
    have htwo := hquorum.2
    rw [hnil] at htwo
    have hpos := hquorum.1
    simp only [map_nil, sum_nil] at htwo
    omega
  have hnonempty : powers ≠ [] := by
    rintro rfl
    exact absurd hquorum.1 (by simp [eligiblePowers, totalIn])
  have hshape : (ofBlock block powers root).WellShaped := by
    refine ⟨rfl, hslot, ?_, hmeta, hroot, hnonempty, strictlyOrdered_of_pairwise hpowers, hhash,
      strictlyOrdered_of_pairwise (pairwise_lt_insertionSort _ (fun _ _ => Iff.rfl) hnodup)⟩
    intro hnil
    have hnil' : block.commitSignatures.insertionSort CommitSignature.keyLe = [] := hnil
    rw [hnil'] at hperm
    exact hsignatures hperm.symm.eq_nil
  have hok := validateCanonicalShape_ok hshape
  refine ⟨ofBlock block powers root, ?_, ?_⟩
  · unfold fromCommittedBlock
    rw [if_neg hslot, if_neg (by simp [hsignatures])]
    dsimp only
    rw [hok]
  · have hcommitted := committedPower_eq (ofBlock block powers root) chainId
      (eligiblePowers powers minStake) (fun s hs => hsigs s (hperm.mem_iff.mp hs))
    have hsum : (((ofBlock block powers root).signatures.map CommitSignature.validator).map
        (powerIn (eligiblePowers powers minStake))).sum
        = ((block.commitSignatures.map CommitSignature.validator).map
            (powerIn (eligiblePowers powers minStake))).sum :=
      ((hperm.map _).map _).sum_nat
    unfold verifyParent
    rw [hok]
    rw [if_neg (by simp [ofBlock])]
    show (if totalIn (eligiblePowers powers minStake) = 0 then _ else
      if _ ≤ (ofBlock block powers root).committedPower chainId (eligiblePowers powers minStake) * 3
      then _ else _) = _
    rw [if_neg (pos_iff_ne_zero.mp hquorum.1), hcommitted, hsum]
    exact if_pos hquorum.2

end CanonicalCommitCertificate
end Lichen
