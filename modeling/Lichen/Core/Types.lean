/-
  The data of `lichen_core` that consensus passes around: hashes, keys, signatures, blocks,
  proposals and votes, with the byte strings that are signed (`core/src/hash.rs`, `account.rs`,
  `signing.rs`, `transaction.rs`, `block.rs` and the vote types of `consensus.rs`).

  SHA-256 and the post-quantum signature schemes live in third-party crates; they enter as the
  class `Crypto`.  Everything the validator computes around them is a definition.

  A 32-byte array (`Hash`, `Pubkey`) is the number whose big-endian bytes it holds, so the derived
  lexicographic order of the source is the numeric order here and equality is one comparison.
-/
import Lichen.Base.Bytes

open Base
namespace Lichen
open List

/-! ## Hashes, keys and signatures -/

/-- `Hash([u8; 32])`. -/
structure Hash where
  val : BitVec 256
  deriving DecidableEq, Repr, Inhabited

/-- `Pubkey([u8; 32])`. -/
structure Pubkey where
  val : BitVec 256
  deriving DecidableEq, Repr, Inhabited

theorem beBytes_toNat_inj {a b : BitVec 256} (h : beBytes 32 a.toNat = beBytes 32 b.toNat) :
    a = b := by
  have hlt : ∀ x : BitVec 256, x.toNat < 256 ^ 32 := fun x => x.isLt
  exact BitVec.eq_of_toNat_eq (beBytes_inj (hlt a) (hlt b) h)

namespace Hash

/-- `Hash::default()`: thirty-two zero bytes. -/
def zero : Hash := ⟨0⟩

/-- The array behind the hash. -/
def bytes (h : Hash) : List UInt8 := beBytes 32 h.val.toNat

@[simp] theorem length_bytes (h : Hash) : h.bytes.length = 32 := length_beBytes 32 _

/-- Lower-case hexadecimal. -/
def toHex (h : Hash) : String :=
  String.ofList (h.bytes.flatMap fun b => [Nat.digitChar (b.toNat / 16), Nat.digitChar (b.toNat % 16)])

theorem bytes_inj {a b : Hash} (h : a.bytes = b.bytes) : a = b := by
  cases a; cases b
  exact congrArg Hash.mk (beBytes_toNat_inj h)

end Hash

namespace Pubkey

def bytes (k : Pubkey) : List UInt8 := beBytes 32 k.val.toNat

@[simp] theorem length_bytes (k : Pubkey) : k.bytes.length = 32 := length_beBytes 32 _

theorem bytes_inj {a b : Pubkey} (h : a.bytes = b.bytes) : a = b := by
  cases a; cases b
  exact congrArg Pubkey.mk (beBytes_toNat_inj h)

end Pubkey

/-- `PqSignature`, as the opaque blob it is to the consensus code. -/
structure PqSignature where
  bytes : List UInt8
  deriving DecidableEq, Repr, Inhabited

/-- `Keypair`: determined by its seed. -/
structure Keypair where
  seed : BitVec 256
  deriving DecidableEq, Repr, Inhabited

/-- The third-party cryptography: SHA-256 (`Hash::hash`), and the signature scheme behind
    `Keypair::pubkey`, `Keypair::sign` (deterministic) and `Keypair::verify`.  What a key signs
    verifies under that key. -/
class Crypto where
  hash : List UInt8 → Hash
  pubkey : Keypair → Pubkey
  sign : Keypair → List UInt8 → PqSignature
  verify : Pubkey → List UInt8 → PqSignature → Bool
  verify_sign : ∀ (kp : Keypair) (msg : List UInt8), verify (pubkey kp) msg (sign kp msg) = true

export Crypto (verify_sign)

/-- A scheme to run the model with: the key is its seed, a signature is the key and the message,
    and the hash is a polynomial modulo `2 ^ 256`. -/
@[reducible] def Crypto.plain : Crypto where
  hash data := ⟨BitVec.ofNat 256
    (data.foldl (fun acc b => (acc * 257 + b.toNat + 1) % 2 ^ 256) 0)⟩
  pubkey kp := ⟨kp.seed⟩
  sign kp msg := ⟨beBytes 32 kp.seed.toNat ++ msg⟩
  verify pk msg sig := decide (sig.bytes = pk.bytes ++ msg)
  verify_sign := by
    intro kp msg
    exact decide_eq_true rfl

/-! ## Signing domains (`signing.rs`) -/

/-- The chain id, as the UTF-8 bytes the signing code reads.  `versioned_signing_bytes` panics on a
    longer one. -/
structure ChainId where
  bytes : List UInt8
  short : bytes.length < 65536
  deriving DecidableEq

theorem nil_short : ([] : List UInt8).length < 65536 := by decide

/-- `SIGNING_ENVELOPE_MAGIC`, `b"LICHEN-SIG"`. -/
def SIGNING_ENVELOPE_MAGIC : List UInt8 := [76, 73, 67, 72, 69, 78, 45, 83, 73, 71]

def SIGNING_ENVELOPE_VERSION : UInt8 := 1

/-- `"block"` -/
def DOMAIN_BLOCK : List UInt8 := [98, 108, 111, 99, 107]

/-- `"proposal"` -/
def DOMAIN_PROPOSAL : List UInt8 := [112, 114, 111, 112, 111, 115, 97, 108]

/-- `"prevote"` -/
def DOMAIN_PREVOTE : List UInt8 := [112, 114, 101, 118, 111, 116, 101]

/-- `"precommit"` -/
def DOMAIN_PRECOMMIT : List UInt8 := [112, 114, 101, 99, 111, 109, 109, 105, 116]

def versionedSigningBytes (domain : List UInt8) (chainId : ChainId) (payload : List UInt8) :
    List UInt8 :=
  SIGNING_ENVELOPE_MAGIC ++ ([SIGNING_ENVELOPE_VERSION] ++ (leBytes 2 domain.length ++ (domain ++
    (leBytes 2 chainId.bytes.length ++ (chainId.bytes ++
      (leBytes 8 payload.length ++ payload))))))

def maybeVersionedSigningBytes (domain : List UInt8) (chainId : ChainId) (payload : List UInt8) :
    List UInt8 :=
  if chainId.bytes.isEmpty then payload else versionedSigningBytes domain chainId payload

variable {chainId : ChainId}

/-- Within one domain and chain the envelope loses nothing. -/
theorem maybeVersionedSigningBytes_inj
    (h : maybeVersionedSigningBytes domain chainId p = maybeVersionedSigningBytes domain chainId q) :
    p = q := by
  unfold maybeVersionedSigningBytes at h
  split at h
  · exact h
  · unfold versionedSigningBytes at h
    have h1 := append_cancel_left h
    have h2 := append_cancel_left h1
    have h3 := append_cancel_left h2
    have h4 := append_cancel_left h3
    have h5 := append_cancel_left h4
    have h6 := append_cancel_left h5
    exact (append_inj h6 (by rw [length_leBytes, length_leBytes])).2

/-- Messages of different domains never coincide: with a chain id the envelopes carry different
    domain lengths, without one the payloads have different lengths. -/
theorem maybeVersionedSigningBytes_ne
    (hlen : p.length ≠ q.length) (hd : d.length ≠ d'.length := by decide)
    (hshort : d.length < 65536 := by decide) (hshort' : d'.length < 65536 := by decide) :
    maybeVersionedSigningBytes d chainId p ≠ maybeVersionedSigningBytes d' chainId q := by
  intro h
  unfold maybeVersionedSigningBytes at h
  split at h
  · exact hlen (congrArg List.length h)
  · unfold versionedSigningBytes at h
    have h1 := append_cancel_left (append_cancel_left h)
    have h2 := (append_inj h1 (by rw [length_leBytes, length_leBytes])).1
    exact hd (leBytes_inj (by simpa using hshort) (by simpa using hshort') h2)

/-! ## Transactions (`transaction.rs`) -/

structure Instruction where
  programId : Pubkey
  accounts : List Pubkey
  data : List UInt8
  deriving DecidableEq, Repr

structure Message where
  instructions : List Instruction
  recentBlockhash : Hash
  computeBudget : Option UInt64
  computeUnitPrice : Option UInt64
  deriving DecidableEq, Repr

def DEFAULT_COMPUTE_BUDGET : UInt64 := 200000

def MAX_COMPUTE_BUDGET : UInt64 := 1400000

/-- `None` and `0` stand for the default. -/
def Message.effectiveComputeBudget (m : Message) : UInt64 :=
  match m.computeBudget with
  | some b => if 0 < b then min b MAX_COMPUTE_BUDGET else DEFAULT_COMPUTE_BUDGET
  | none => DEFAULT_COMPUTE_BUDGET

inductive TransactionType where
  | Native
  | Evm
  | Consensus
  deriving DecidableEq, Repr

structure Transaction where
  signatures : List PqSignature
  message : Message
  txType : TransactionType
  deriving DecidableEq, Repr

def Transaction.isConsensus (t : Transaction) : Bool := t.txType == .Consensus

instance : LawfulBEq TransactionType where
  eq_of_beq := by intro a b h; cases a <;> cases b <;> first | rfl | exact absurd h (by decide)
  rfl := by intro a; cases a <;> decide

/-! ## Blocks (`block.rs`) -/

structure CommitSignature where
  validator : Pubkey
  signature : PqSignature
  timestamp : UInt64
  deriving DecidableEq, Repr

structure BlockHeader where
  slot : UInt64
  parentHash : Hash
  stateRoot : Hash
  txRoot : Hash
  timestamp : UInt64
  validatorsHash : Hash
  validator : Pubkey
  signature : Option PqSignature
  deriving DecidableEq, Repr

structure Block where
  header : BlockHeader
  transactions : List Transaction
  txFeesPaid : List UInt64
  oraclePrices : List (String × UInt64)
  commitRound : UInt32
  commitSignatures : List CommitSignature
  deriving DecidableEq, Repr

/-- The bytes `BlockHeader::signable_hash` hashes: every header field but the signature. -/
def BlockHeader.signableBytes (h : BlockHeader) : List UInt8 :=
  leBytes 8 h.slot.toNat ++ (h.parentHash.bytes ++ (h.stateRoot.bytes ++ (h.txRoot.bytes ++
    (leBytes 8 h.timestamp.toNat ++ (h.validatorsHash.bytes ++ h.validator.bytes)))))

section
variable [Crypto]

namespace BlockHeader

def signableHash (h : BlockHeader) : Hash := Crypto.hash h.signableBytes

/-- What the producer signs. -/
def signingBytes (h : BlockHeader) (chainId : ChainId) : List UInt8 :=
  maybeVersionedSigningBytes DOMAIN_BLOCK chainId h.signableHash.bytes

def verifySignatureWithChainId (h : BlockHeader) (chainId : ChainId) : Bool :=
  match h.signature with
  | some sig => Crypto.verify h.validator (h.signingBytes chainId) sig
  | none => false

end BlockHeader

namespace Block

def signableHash (b : Block) : Hash := b.header.signableHash

def hash (b : Block) : Hash := b.signableHash

def signWithChainId (b : Block) (kp : Keypair) (chainId : ChainId) : Block :=
  { b with header :=
    { b.header with signature := some (Crypto.sign kp (b.header.signingBytes chainId)) } }

def verifySignatureWithChainId (b : Block) (chainId : ChainId) : Bool :=
  b.header.slot == 0 || b.header.verifySignatureWithChainId chainId

end Block
end

/-- The header fields can be read back from the bytes that are hashed. -/
theorem BlockHeader.signableBytes_inj {g h : BlockHeader}
    (heq : g.signableBytes = h.signableBytes) :
    g.slot = h.slot ∧ g.validator = h.validator ∧ g.timestamp = h.timestamp := by
  have h64 : ∀ x : UInt64, x.toNat < 256 ^ 8 := fun x => x.toNat_lt
  obtain ⟨hslot, heq⟩ := append_inj heq (by simp)
  obtain ⟨-, heq⟩ := append_inj heq (by simp)
  obtain ⟨-, heq⟩ := append_inj heq (by simp)
  obtain ⟨-, heq⟩ := append_inj heq (by simp)
  obtain ⟨hts, heq⟩ := append_inj heq (by simp)
  obtain ⟨-, hval⟩ := append_inj heq (by simp)
  exact ⟨UInt64.toNat_inj.mp (leBytes_inj (h64 _) (h64 _) hslot), Pubkey.bytes_inj hval,
    UInt64.toNat_inj.mp (leBytes_inj (h64 _) (h64 _) hts)⟩

/-! ## Proposals and votes (`consensus.rs`) -/

inductive RoundStep where
  | Propose
  | Prevote
  | Precommit
  | Commit
  deriving DecidableEq, Repr

structure Proposal where
  height : UInt64
  round : UInt32
  block : Block
  validRound : Int32
  proposer : Pubkey
  signature : PqSignature
  deriving DecidableEq

structure Prevote where
  height : UInt64
  round : UInt32
  blockHash : Option Hash
  validator : Pubkey
  signature : PqSignature
  deriving DecidableEq, Repr

structure Precommit where
  height : UInt64
  round : UInt32
  blockHash : Option Hash
  validator : Pubkey
  signature : PqSignature
  timestamp : UInt64
  deriving DecidableEq, Repr

/-- How a vote's `Option<Hash>` is written into the signed bytes: nil is thirty-two zero bytes,
    the same bytes as a vote for the zero hash. -/
def hashOrNil : Option Hash → Hash
  | some h => h
  | none => Hash.zero

namespace Proposal

def signableBytesStatic (height : UInt64) (round : UInt32) (blockHash : Hash)
    (validRound : Int32) : List UInt8 :=
  leBytes 8 height.toNat ++ (leBytes 4 round.toNat ++ (blockHash.bytes ++
    leBytes 4 validRound.toUInt32.toNat))

def signingBytesStaticForChainId (chainId : ChainId) (height : UInt64) (round : UInt32)
    (blockHash : Hash) (validRound : Int32) : List UInt8 :=
  maybeVersionedSigningBytes DOMAIN_PROPOSAL chainId
    (signableBytesStatic height round blockHash validRound)

def verifySignatureWithChainId [Crypto] (p : Proposal) (chainId : ChainId) : Bool :=
  Crypto.verify p.proposer
    (signingBytesStaticForChainId chainId p.height p.round p.block.hash p.validRound) p.signature

end Proposal

namespace Prevote

/-- Tag `0x01`, height, round, hash or nil. -/
def signableBytes (height : UInt64) (round : UInt32) (blockHash : Option Hash) : List UInt8 :=
  0x01 :: (leBytes 8 height.toNat ++ (leBytes 4 round.toNat ++ (hashOrNil blockHash).bytes))

def signingBytesForChainId (chainId : ChainId) (height : UInt64) (round : UInt32)
    (blockHash : Option Hash) : List UInt8 :=
  maybeVersionedSigningBytes DOMAIN_PREVOTE chainId (signableBytes height round blockHash)

def verifySignatureWithChainId [Crypto] (v : Prevote) (chainId : ChainId) : Bool :=
  Crypto.verify v.validator (signingBytesForChainId chainId v.height v.round v.blockHash)
    v.signature

end Prevote

namespace Precommit

/-- Tag `0x02`, height, round, hash or nil, timestamp. -/
def signableBytes (height : UInt64) (round : UInt32) (blockHash : Option Hash)
    (timestamp : UInt64) : List UInt8 :=
  0x02 :: (leBytes 8 height.toNat ++ (leBytes 4 round.toNat ++ ((hashOrNil blockHash).bytes ++
    leBytes 8 timestamp.toNat)))

def signingBytesForChainId (chainId : ChainId) (height : UInt64) (round : UInt32)
    (blockHash : Option Hash) (timestamp : UInt64) : List UInt8 :=
  maybeVersionedSigningBytes DOMAIN_PRECOMMIT chainId
    (signableBytes height round blockHash timestamp)

def verifySignatureWithChainId [Crypto] (v : Precommit) (chainId : ChainId) : Bool :=
  Crypto.verify v.validator
    (signingBytesForChainId chainId v.height v.round v.blockHash v.timestamp) v.signature

end Precommit

/-! ## The signed encodings are injective, up to nil

  A vote's signed bytes determine its height, its round and — nil and the zero hash being one —
  the hash it is for. -/

theorem Prevote.signingBytes_inj {h h' : UInt64} (heq : Prevote.signingBytesForChainId chainId h r b
      = Prevote.signingBytesForChainId chainId h' r' b') :
    h = h' ∧ r = r' ∧ hashOrNil b = hashOrNil b' := by
  have hs := maybeVersionedSigningBytes_inj heq
  obtain ⟨hh, hs⟩ := append_inj (List.cons.inj hs).2 (by simp)
  obtain ⟨hr, hb⟩ := append_inj hs (by simp)
  exact ⟨UInt64.toNat_inj.mp (leBytes_inj h.toNat_lt h'.toNat_lt hh),
    UInt32.toNat_inj.mp (leBytes_inj r.toNat_lt r'.toNat_lt hr), Hash.bytes_inj hb⟩

theorem Precommit.signingBytes_inj {h h' : UInt64}
    (heq : Precommit.signingBytesForChainId chainId h r b t
      = Precommit.signingBytesForChainId chainId h' r' b' t') :
    h = h' ∧ r = r' ∧ hashOrNil b = hashOrNil b' ∧ t = t' := by
  have hs := maybeVersionedSigningBytes_inj heq
  obtain ⟨hh, hs⟩ := append_inj (List.cons.inj hs).2 (by simp)
  obtain ⟨hr, hs⟩ := append_inj hs (by simp)
  obtain ⟨hb, ht⟩ := append_inj hs (by simp)
  exact ⟨UInt64.toNat_inj.mp (leBytes_inj h.toNat_lt h'.toNat_lt hh),
    UInt32.toNat_inj.mp (leBytes_inj r.toNat_lt r'.toNat_lt hr), Hash.bytes_inj hb,
    UInt64.toNat_inj.mp (leBytes_inj t.toNat_lt t'.toNat_lt ht)⟩

/-- A real hash is voted for by its own vote only. -/
theorem eq_some_of_hashOrNil (hz : h ≠ Hash.zero) (heq : hashOrNil b = h) : b = some h := by
  cases b with
  | none => exact absurd heq.symm hz
  | some h' => rw [← heq]; rfl

/-!
  Slashing evidence and its strict verifier (`SlashingOffense`, `SlashingEvidence` in
  `core/src/consensus.rs`).

  `verifyWithChainId` is the only gate between a piece of evidence and the stake it names:
  `system_slash_validator_v2` refuses the evidence unless it returns true.
-/

/-- The legacy consensus vote, carried by pre-V2 evidence only. -/
structure Vote where
  slot : UInt64
  blockHash : Hash
  validator : Pubkey
  signature : PqSignature
  timestamp : UInt64
  deriving DecidableEq, Repr

inductive SlashingOffense where
  | DoubleBlock (slot : UInt64) (blockHash1 blockHash2 : Hash)
  | DoubleVote (slot : UInt64) (vote1 vote2 : Vote)
  | Downtime (lastActiveSlot currentSlot missedSlots : UInt64)
  | InvalidStateTransition (slot : UInt64) (description : String)
  | Censorship (slot : UInt64) (censoredTxCount : UInt64)
  | Collusion (slot : UInt64) (colludingValidators : List Pubkey)
  | DoubleBlockV2 (header1 header2 : BlockHeader)
  | DoublePrevoteV2 (vote1 vote2 : Prevote)
  | DoublePrecommitV2 (vote1 vote2 : Precommit)
  deriving DecidableEq

structure SlashingEvidence where
  offense : SlashingOffense
  validator : Pubkey
  evidenceSlot : UInt64
  reporter : Pubkey
  timestamp : UInt64

/-- `verify_with_chain_id`: only the proof-carrying V2 offences can verify. -/
def SlashingEvidence.verifyWithChainId [Crypto] (ev : SlashingEvidence) (chainId : ChainId) :
    Bool :=
  match ev.offense with
  | .DoubleBlockV2 h1 h2 =>
    h1.slot == h2.slot && h1.validator == h2.validator && h1.validator == ev.validator
      && h1.signableHash != h2.signableHash
      && h1.verifySignatureWithChainId chainId && h2.verifySignatureWithChainId chainId
  | .DoublePrevoteV2 v1 v2 =>
    v1.height == v2.height && v1.round == v2.round && v1.blockHash != v2.blockHash
      && v1.validator == v2.validator && v1.validator == ev.validator
      && v1.verifySignatureWithChainId chainId && v2.verifySignatureWithChainId chainId
  | .DoublePrecommitV2 v1 v2 =>
    v1.height == v2.height && v1.round == v2.round && v1.blockHash != v2.blockHash
      && v1.validator == v2.validator && v1.validator == ev.validator
      && v1.verifySignatureWithChainId chainId && v2.verifySignatureWithChainId chainId
  | .DoubleBlock .. | .DoubleVote .. | .Downtime .. | .InvalidStateTransition .. | .Censorship ..
  | .Collusion .. => false

end Lichen
