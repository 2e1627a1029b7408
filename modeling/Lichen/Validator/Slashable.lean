/-
  Can a correct validator be slashed?

  `verify_with_chain_id` accepts three kinds of evidence: two prevotes or two precommits of one
  height and round with different block hashes, and two headers of one slot.  An engine that is
  never restarted signs one prevote and one precommit a round (`VotesOnce`), which is why evidence
  against it would have to be forged — except in two ways.  Nil is signed as thirty-two zero bytes,
  so a nil vote is also a vote for the zero hash; and a proposer builds a new block in every round
  it leads without a lock or a valid value, and signs the header.

  `slashable_iff` says that these two are all: evidence exists exactly if the validator sent a nil
  vote or two headers for one slot.
-/
import Lichen.Validator.Commit

open Base
namespace Lichen
open Precommit ConsensusEngine Crypto List SlashingEvidence

/-! ## One vote a round -/

/-- A vote without its signature. -/
structure Ballot where
  height : UInt64
  round : UInt32
  blockHash : Option Hash

def Prevote.ballot (v : Prevote) : Ballot := ⟨v.height, v.round, v.blockHash⟩

def Precommit.ballot (v : Precommit) : Ballot := ⟨v.height, v.round, v.blockHash⟩

/-- The ballots of one kind that were cast up to a height, with what is noted as signed at it. -/
structure CastOnce (cast : Ballot → Prop) (height : UInt64)
    (signed : HashMap UInt32 (Option Hash)) : Prop where
  past : ∀ x, cast x → x.height ≤ height
  noted : ∀ x, cast x → x.height = height → signed.get x.round = some x.blockHash
  single : ∀ x y, cast x → cast y → x.height = y.height → x.round = y.round →
    x.blockHash = y.blockHash

namespace CastOnce

variable {cast : Ballot → Prop} {height : UInt64} {signed : HashMap UInt32 (Option Hash)}

section
variable (h : CastOnce cast height signed)
include h

theorem same (hcast : ∀ x, cast' x → cast x) : CastOnce cast' height signed where
  past := fun x hx => h.past x (hcast x hx)
  noted := fun x hx => h.noted x (hcast x hx)
  single := fun x y hx hy => h.single x y (hcast x hx) (hcast y hy)

/-- Signing in a round that has no vote yet. -/
theorem sign (hnone : signed.get r = none) (hcast : ∀ x, cast' x → cast x ∨ x = ⟨height, r, bh⟩) :
    CastOnce cast' height (signed.put r bh) := by
  -- no ballot so far is of this round
  have hfresh : ∀ x, cast x → x.height = height → x.round ≠ r := by
    rintro x hx hheight rfl
    have hnoted := h.noted x hx hheight
    rw [hnone] at hnoted
    exact nomatch hnoted
  constructor
  · grind [past]
  · grind [noted]
  · grind [single]

/-- A later height starts with nothing noted. -/
theorem start (hlt : height < height') : CastOnce cast height' ∅ := by
  have hbelow : ∀ x, cast x → x.height < height' :=
    fun x hx => UInt64.lt_of_le_of_lt (h.past x hx) hlt
  refine ⟨fun x hx => UInt64.le_of_lt (hbelow x hx), ?_, h.single⟩
  rintro x hx rfl
  exact absurd (hbelow x hx) (UInt64.lt_irrefl _)

end
end CastOnce

/-- The prevotes and precommits in a log. -/
def CastPrevote (log : List ConsensusAction) (x : Ballot) : Prop :=
  ∃ v, .BroadcastPrevote v ∈ log ∧ v.ballot = x

def CastPrecommit (log : List ConsensusAction) (x : Ballot) : Prop :=
  ∃ v, .BroadcastPrecommit v ∈ log ∧ v.ballot = x

section
variable [Crypto]

namespace ConsensusEngine

variable {env : Env} {e e' : ConsensusEngine} {ev : Event}

/-- A prevote that goes out is the one just signed. -/
theorem Step.prevote_out (h : Step env e ev e') (hv : .BroadcastPrevote v ∈ ev.output) :
    ev = .prevote (e.ownPrevote v.blockHash) ∧ v = e.ownPrevote v.blockHash := by
  obtain ⟨-, -, hev⟩ := Setting.prevoted_output h ⟨v, hv, rfl, rfl, rfl⟩
  rw [hev] at hv
  have heq := mem_singleton.mp hv
  injection heq with heq
  exact ⟨hev, heq⟩

theorem Step.precommit_out (h : Step env e ev e') (hv : .BroadcastPrecommit v ∈ ev.output) :
    ev = .precommit (e.ownPrecommit env v.blockHash) ∧ v = e.ownPrecommit env v.blockHash := by
  obtain ⟨-, -, hev⟩ := Setting.precommitted_output h ⟨v, hv, rfl, rfl, rfl⟩
  rw [hev] at hv
  have heq := mem_singleton.mp hv
  injection heq with heq
  exact ⟨hev, heq⟩

section
variable (e : ConsensusEngine) (hkey : e.validatorPubkey = Crypto.pubkey e.keypair)
include hkey

/-- What an engine signs verifies. -/
theorem verify_ownPrevote
    (bh : Option Hash) : (e.ownPrevote bh).verifySignatureWithChainId e.signingChainId = true := by
  show verify e.validatorPubkey _ (sign e.keypair _) = true
  rw [hkey]
  exact verify_sign _ _

theorem verify_ownPrecommit (env : Env) (bh : Option Hash) :
    (e.ownPrecommit env bh).verifySignatureWithChainId e.signingChainId = true := by
  show verify e.validatorPubkey _ (sign e.keypair _) = true
  rw [hkey]
  exact verify_sign _ _

end

/-- What an engine with key `kp` has sent: one vote of each kind a round, all properly signed. -/
structure VotesOnce (kp : Keypair) (chainId : ChainId) (e : ConsensusEngine)
    (log : List ConsensusAction) : Prop where
  keypair : e.keypair = kp
  validatorPubkey : e.validatorPubkey = Crypto.pubkey kp
  signingChainId : e.signingChainId = chainId
  prevotes : CastOnce (CastPrevote log) e.height e.prevotes.signedRounds
  precommits : CastOnce (CastPrecommit log) e.height e.precommits.signedRounds
  validPrevotes : ∀ v, .BroadcastPrevote v ∈ log →
    v.validator = Crypto.pubkey kp ∧ v.verifySignatureWithChainId chainId = true
  validPrecommits : ∀ v, .BroadcastPrecommit v ∈ log →
    v.validator = Crypto.pubkey kp ∧ v.verifySignatureWithChainId chainId = true

variable {kp : Keypair} {chainId : ChainId} {log : List ConsensusAction}

section
variable (h : e.VotesOnce kp chainId log)
include h

theorem VotesOnce.ownKey : e.validatorPubkey = pubkey e.keypair := by
  rw [h.validatorPubkey, h.keypair]

theorem VotesOnce.subset (hsub : ∀ a ∈ log', a ∈ log) : e.VotesOnce kp chainId log' where
  keypair := h.keypair
  validatorPubkey := h.validatorPubkey
  signingChainId := h.signingChainId
  prevotes := h.prevotes.same fun _ ⟨v, hv, hx⟩ => ⟨v, hsub _ hv, hx⟩
  precommits := h.precommits.same fun _ ⟨v, hv, hx⟩ => ⟨v, hsub _ hv, hx⟩
  validPrevotes := fun v hv => h.validPrevotes v (hsub _ hv)
  validPrecommits := fun v hv => h.validPrecommits v (hsub _ hv)

/-- **One move** signs in a round that is not signed yet, or not at all. -/
theorem VotesOnce.step (hs : Step env e ev e') : e'.VotesOnce kp chainId (log ++ ev.output) where
  keypair := hs.frame.keypair.trans h.keypair
  validatorPubkey := hs.frame.validatorPubkey.trans h.validatorPubkey
  signingChainId := hs.frame.signingChainId.trans h.signingChainId
  prevotes := by
    rw [hs.frame.height]
    rcases hs.signedPrevotes with ⟨bh, hev, hnone, heq⟩ | ⟨hne, heq⟩
    · rw [heq]
      apply h.prevotes.sign hnone
      rintro x ⟨v, hv, rfl⟩
      rcases mem_append.mp hv with hv | hv
      · exact .inl ⟨v, hv, rfl⟩
      · obtain ⟨hev', hvote⟩ := hs.prevote_out hv
        have hbh : v.blockHash = bh :=
          congrArg Prevote.blockHash (Event.prevote.inj (hev'.symm.trans hev))
        rw [hvote, hbh]
        exact .inr rfl
    · rw [heq]
      apply h.prevotes.same
      rintro x ⟨v, hv, rfl⟩
      rcases mem_append.mp hv with hv | hv
      · exact ⟨v, hv, rfl⟩
      · exact absurd (hs.prevote_out hv).1 (hne _)
  precommits := by
    rw [hs.frame.height]
    rcases hs.signedPrecommits with ⟨bh, hev, hnone, heq⟩ | ⟨hne, heq⟩
    · rw [heq]
      apply h.precommits.sign hnone
      rintro x ⟨v, hv, rfl⟩
      rcases mem_append.mp hv with hv | hv
      · exact .inl ⟨v, hv, rfl⟩
      · obtain ⟨hev', hvote⟩ := hs.precommit_out hv
        have hbh : v.blockHash = bh :=
          congrArg blockHash (Event.precommit.inj (hev'.symm.trans hev))
        rw [hvote, hbh]
        exact .inr rfl
    · rw [heq]
      apply h.precommits.same
      rintro x ⟨v, hv, rfl⟩
      rcases mem_append.mp hv with hv | hv
      · exact ⟨v, hv, rfl⟩
      · exact absurd (hs.precommit_out hv).1 (hne _)
  validPrevotes := by
    intro v hv
    rcases mem_append.mp hv with hv | hv
    · exact h.validPrevotes v hv
    · rw [(hs.prevote_out hv).2, ← h.signingChainId]
      exact ⟨h.validatorPubkey, e.verify_ownPrevote h.ownKey _⟩
  validPrecommits := by
    intro v hv
    rcases mem_append.mp hv with hv | hv
    · exact h.validPrecommits v hv
    · rw [(hs.precommit_out hv).2, ← h.signingChainId]
      exact ⟨h.validatorPubkey, e.verify_ownPrecommit h.ownKey env _⟩

end
end ConsensusEngine

namespace Call

theorem Runs.mono (hok : ∀ e c, ok e c → ok' e c) (h : Runs ok e₀ e log) : Runs ok' e₀ e log := by
  induction h with
  | start => exact .start
  | call c _ hc ih => exact .call c ih (hok _ c hc)

/-- A run without a crash: the height only goes up, and nothing is recovered. -/
def CrashFree (e : ConsensusEngine) : Call → Prop
  | .op _ _ | .rebuildPowerSnapshot _ _ | .isProposer _ _ => True
  | .startHeight h => e.height < h
  | _ => False

theorem votesOnce_next {chainId : ChainId} {c : Call} (hc : c.CrashFree e) (hwf : e.BlocksWf)
    (h : e.VotesOnce kp chainId log) : (c.next e).VotesOnce kp chainId (log ++ c.emits e) := by
  cases c with
  | op env o =>
    obtain ⟨evs, htr, hout, hallow⟩ := o.run_does env hwf
    show (o.run env e).2.VotesOnce kp chainId (log ++ (o.run env e).1.flatten)
    rw [← hout]
    refine Trace.invariant_outputs ?_ htr log hallow h
    intro e₁ ev e₂ log' hs _ h₁
    exact h₁.step hs
  | startHeight height =>
    show (e.startHeight height).VotesOnce kp chainId (log ++ [])
    rw [append_nil]
    exact { h with prevotes := h.prevotes.start hc, precommits := h.precommits.start hc }
  | rebuildPowerSnapshot vs pool =>
    show (e.rebuildPowerSnapshot vs pool).VotesOnce kp chainId (log ++ [])
    rw [append_nil]
    exact { h with }
  | isProposer env parent =>
    obtain ⟨cache, hcache, -⟩ := expectedLeaderCached_eq e env
      (leaderSelectionSlot e.height e.round) parent
    show (e.isProposer env parent).2.VotesOnce kp chainId (log ++ [])
    rw [append_nil, show (e.isProposer env parent).2 = _ from hcache]
    exact { h with }
  | _ => exact absurd hc id

/-- **One vote a round, in every run without a crash.** -/
theorem Runs.votesOnce {chainId : ChainId} {minStake : UInt64} {timeouts : ConsensusTimeoutConfig}
    (h : Runs CrashFree (.new kp (pubkey kp) chainId minStake timeouts) e log) :
    e.VotesOnce kp chainId log := by
  have hnone : ∀ cast : Ballot → Prop, (∀ x, ¬ cast x) → CastOnce cast 0 ∅ :=
    fun cast hno => ⟨fun x hx => absurd hx (hno x), fun x hx => absurd hx (hno x),
      fun x y hx => absurd hx (hno x)⟩
  have hwf : (new kp (pubkey kp) chainId minStake timeouts).BlocksWf := fun k b hget => nomatch hget
  induction h with
  | start =>
    refine ⟨rfl, rfl, rfl, hnone _ ?_, hnone _ ?_, nofun, nofun⟩
    · rintro x ⟨v, hv, -⟩
      exact absurd hv not_mem_nil
    · rintro x ⟨v, hv, -⟩
      exact absurd hv not_mem_nil
  | call c hprev hok ih => exact votesOnce_next hok (hprev.blocksWf hwf) ih

end Call

/-! ## Evidence -/

section
variable (chainId : ChainId) (log : List ConsensusAction)

/-- A header of `pk`'s own block, in a proposal it sent. -/
def OwnHeader (pk : Pubkey) (g : BlockHeader) :
    Prop :=
  ∃ p, .BroadcastProposal p ∈ log ∧ p.block.header = g ∧ g.validator = pk
    ∧ g.verifySignatureWithChainId chainId = true

/-- A header that verifies under `pk` has the signed fields of one it sent: no signature is forged,
    and no other fields have that hash. -/
def HeldHeader (pk : Pubkey) (g : BlockHeader) :
    Prop :=
  g.validator = pk → g.verifySignatureWithChainId chainId = true →
    ∃ g', OwnHeader chainId log pk g' ∧ g'.signableBytes = g.signableBytes

/-- A vote that verifies under `pk` has the signed bytes of something it sent. -/
def HeldPrevote (pk : Pubkey) (v : Prevote) :
    Prop :=
  v.validator = pk → v.verifySignatureWithChainId chainId = true →
    SignedBy chainId log pk (Prevote.signingBytesForChainId chainId v.height v.round v.blockHash)

def HeldPrecommit (pk : Pubkey) (v : Precommit) :
    Prop :=
  v.validator = pk → v.verifySignatureWithChainId chainId = true →
    SignedBy chainId log pk
      (Precommit.signingBytesForChainId chainId v.height v.round v.blockHash v.timestamp)

/-- Evidence put together, in any encoding, from what the validator it names has sent. -/
def SlashingEvidence.Assembled (ev : SlashingEvidence) : Prop :=
  match ev.offense with
  | .DoubleBlockV2 h1 h2 =>
    HeldHeader chainId log ev.validator h1 ∧ HeldHeader chainId log ev.validator h2
  | .DoublePrevoteV2 v1 v2 =>
    HeldPrevote chainId log ev.validator v1 ∧ HeldPrevote chainId log ev.validator v2
  | .DoublePrecommitV2 v1 v2 =>
    HeldPrecommit chainId log ev.validator v1 ∧ HeldPrecommit chainId log ev.validator v2
  | _ => True

/-- A vote for nil, or for the hash that is encoded like it. -/
def SentNil : Prop :=
  (∃ v, .BroadcastPrevote v ∈ log ∧ hashOrNil v.blockHash = Hash.zero)
    ∨ ∃ v, .BroadcastPrecommit v ∈ log ∧ hashOrNil v.blockHash = Hash.zero

/-- Two of its own headers for one slot. -/
def SentTwoHeaders (pk : Pubkey) : Prop :=
  ∃ g h, OwnHeader chainId log pk g ∧ OwnHeader chainId log pk h ∧ g.slot = h.slot
    ∧ g.signableHash ≠ h.signableHash

end

variable {b : Option Hash}

section
omit [Crypto]

/-- Different votes with the same bytes are nil and zero. -/
theorem hashOrNil_eq_zero (hne : b ≠ b') (heq : hashOrNil b = hashOrNil b') :
    hashOrNil b = Hash.zero := by
  cases b with
  | none => rfl
  | some h =>
    cases b' with
    | none => exact heq
    | some h' => exact absurd (congrArg some heq) hne

/-- Two votes of one round that were both sent are one, so they differ in the encoding of nil. -/
theorem CastOnce.nil_of_conflict {cast height} {signed} (h : CastOnce cast height signed)
    (hx : cast x) (hy : cast y) (hheight : x.height = y.height)
    (hround : x.round = y.round) (hb : hashOrNil x.blockHash = hashOrNil b)
    (hb' : hashOrNil y.blockHash = hashOrNil b') (hne : b ≠ b') :
    hashOrNil x.blockHash = Hash.zero := by
  grind [single, hashOrNil_eq_zero]

end

variable {log : List ConsensusAction} {chainId : ChainId}

/-- Nil and zero are signed alike. -/
theorem SignedBy.alike {bytes : Option Hash → List UInt8}
    (h : ∀ b', hashOrNil b' = Hash.zero → bytes b' = bytes b)
    (hsig : verify pk (bytes b) sig = true) (hsent : SignedBy chainId log pk (bytes b)) (b')
    (hb : hashOrNil b' = Hash.zero) :
    verify pk (bytes b') sig = true ∧ SignedBy chainId log pk (bytes b') := by
  rw [h b' hb]
  exact ⟨hsig, hsent⟩

/-- There is evidence against `pk` that verifies. -/
def HasEvidence (chainId : ChainId) (log : List ConsensusAction) (pk : Pubkey) : Prop :=
  ∃ ev : SlashingEvidence, ev.validator = pk ∧ ev.Assembled chainId log
    ∧ ev.verifyWithChainId chainId = true

/-- A nil vote is evidence against its voter. -/
theorem exists_evidence_of_nil_prevote (hv : .BroadcastPrevote v ∈ log)
    (hnil : hashOrNil v.blockHash = Hash.zero)
    (hsig : v.verifySignatureWithChainId chainId = true) : HasEvidence chainId log v.validator := by
  have hbytes : ∀ b, hashOrNil b = Hash.zero →
      Prevote.signingBytesForChainId chainId v.height v.round b
        = Prevote.signingBytesForChainId chainId v.height v.round v.blockHash := by
    intro b hb
    unfold Prevote.signingBytesForChainId Prevote.signableBytes
    rw [hb, hnil]
  have hboth := SignedBy.alike hbytes hsig (.prevote v hv rfl)
  have hverify : ∀ b, hashOrNil b = Hash.zero →
      ({ v with blockHash := b } : Prevote).verifySignatureWithChainId chainId = true :=
    fun b hb => (hboth b hb).1
  refine ⟨⟨.DoublePrevoteV2 { v with blockHash := none } { v with blockHash := some Hash.zero },
    v.validator, v.height, v.validator, 0⟩, rfl,
    ⟨fun _ _ => (hboth _ rfl).2, fun _ _ => (hboth _ rfl).2⟩, ?_⟩
  simp [verifyWithChainId, hverify none rfl, hverify (some Hash.zero) rfl]

theorem exists_evidence_of_nil_precommit (hv : .BroadcastPrecommit v ∈ log)
    (hnil : hashOrNil v.blockHash = Hash.zero)
    (hsig : v.verifySignatureWithChainId chainId = true) : HasEvidence chainId log v.validator := by
  have hbytes : ∀ b, hashOrNil b = Hash.zero →
      signingBytesForChainId chainId v.height v.round b v.timestamp
        = signingBytesForChainId chainId v.height v.round v.blockHash v.timestamp := by
    intro b hb
    unfold signingBytesForChainId signableBytes
    rw [hb, hnil]
  have hboth := SignedBy.alike hbytes hsig (.precommit v hv rfl)
  have hverify : ∀ b, hashOrNil b = Hash.zero →
      ({ v with blockHash := b } : Precommit).verifySignatureWithChainId chainId = true :=
    fun b hb => (hboth b hb).1
  refine ⟨⟨.DoublePrecommitV2 { v with blockHash := none } { v with blockHash := some Hash.zero },
    v.validator, v.height, v.validator, 0⟩, rfl,
    ⟨fun _ _ => (hboth _ rfl).2, fun _ _ => (hboth _ rfl).2⟩, ?_⟩
  simp [verifyWithChainId, hverify none rfl, hverify (some Hash.zero) rfl]

/-- Two headers for one slot are evidence against their producer. -/
theorem exists_evidence_of_headers (h : SentTwoHeaders chainId log pk) :
    HasEvidence chainId log pk := by
  obtain ⟨g, h, hg, hh, hslot, hne⟩ := h
  have hheld : ∀ g, OwnHeader chainId log pk g → HeldHeader chainId log pk g :=
    fun g hg _ _ => ⟨g, hg, rfl⟩
  refine ⟨⟨.DoubleBlockV2 g h, pk, g.slot, pk, 0⟩, rfl, ⟨hheld g hg, hheld h hh⟩, ?_⟩
  obtain ⟨-, -, -, hgval, hgsig⟩ := hg
  obtain ⟨-, -, -, hhval, hhsig⟩ := hh
  simp [verifyWithChainId, hslot, hne, hgval, hhval, hgsig, hhsig]

theorem ConsensusEngine.VotesOnce.exists_evidence {e : ConsensusEngine}
    (h : e.VotesOnce kp chainId log) (hnil : SentNil log) :
    HasEvidence chainId log (Crypto.pubkey kp) := by
  rcases hnil with ⟨v, hv, hnil⟩ | ⟨v, hv, hnil⟩
  · obtain ⟨hval, hsig⟩ := h.validPrevotes v hv
    rw [← hval]
    exact exists_evidence_of_nil_prevote hv hnil hsig
  · obtain ⟨hval, hsig⟩ := h.validPrecommits v hv
    rw [← hval]
    exact exists_evidence_of_nil_precommit hv hnil hsig

/-- **Who can be slashed.** Against a validator that has followed its engine without a crash,
    whatever it was called with, there is evidence that verifies exactly if it has sent a vote for
    nil, or two of its own headers for one slot. -/
theorem slashable_iff {kp : Keypair} {chainId : ChainId} {minStake : UInt64}
    {timeouts : ConsensusTimeoutConfig} {e : ConsensusEngine} {log : List ConsensusAction}
    (hrun : Call.Runs Call.CrashFree (.new kp (Crypto.pubkey kp) chainId minStake timeouts) e log) :
    (∃ ev : SlashingEvidence, ev.validator = Crypto.pubkey kp ∧ ev.Assembled chainId log
        ∧ ev.verifyWithChainId chainId = true)
      ↔ SentNil log ∨ SentTwoHeaders chainId log (Crypto.pubkey kp) := by
  have honce := hrun.votesOnce
  constructor
  · rintro ⟨ev, hval, hheld, hverify⟩
    unfold Assembled at hheld
    unfold verifyWithChainId at hverify
    rw [hval] at hheld hverify
    split at hverify
    · -- two headers: each has the fields of one that was sent
      rename_i hoff
      rw [hoff] at hheld
      simp only [Bool.and_eq_true, beq_iff_eq, bne_iff_ne] at hverify
      obtain ⟨⟨⟨⟨⟨hslot, hval12⟩, hval1⟩, hne⟩, hsig1⟩, hsig2⟩ := hverify
      obtain ⟨g1, hg1, hbytes1⟩ := hheld.1 hval1 hsig1
      obtain ⟨g2, hg2, hbytes2⟩ := hheld.2 (hval12 ▸ hval1) hsig2
      refine .inr ⟨g1, g2, hg1, hg2, ?_, ?_⟩
      · rw [(BlockHeader.signableBytes_inj hbytes1).1, (BlockHeader.signableBytes_inj hbytes2).1]
        exact hslot
      · unfold BlockHeader.signableHash at hne ⊢
        rw [hbytes1, hbytes2]
        exact hne
    · rename_i v1 v2 hoff
      rw [hoff] at hheld
      simp only [Bool.and_eq_true, beq_iff_eq, bne_iff_ne] at hverify
      obtain ⟨⟨⟨⟨⟨⟨hheight, hround⟩, hne⟩, hval12⟩, hval1⟩, hsig1⟩, hsig2⟩ := hverify
      obtain ⟨w1, hw1, -, hh1, hr1, hb1⟩ := (hheld.1 hval1 hsig1).exists_prevote
      obtain ⟨w2, hw2, -, hh2, hr2, hb2⟩ := (hheld.2 (hval12 ▸ hval1) hsig2).exists_prevote
      refine .inl (.inl ⟨w1, hw1, ?_⟩)
      exact honce.prevotes.nil_of_conflict ⟨w1, hw1, rfl⟩ ⟨w2, hw2, rfl⟩
        (hh1.trans (hheight.trans hh2.symm)) (hr1.trans (hround.trans hr2.symm)) hb1 hb2 hne
    · rename_i hoff
      rw [hoff] at hheld
      simp only [Bool.and_eq_true, beq_iff_eq, bne_iff_ne] at hverify
      obtain ⟨⟨⟨⟨⟨⟨hheight, hround⟩, hne⟩, hval12⟩, hval1⟩, hsig1⟩, hsig2⟩ := hverify
      obtain ⟨w1, hw1, -, hh1, hr1, -, hb1⟩ := (hheld.1 hval1 hsig1).exists_precommit
      obtain ⟨w2, hw2, -, hh2, hr2, -, hb2⟩ := (hheld.2 (hval12 ▸ hval1) hsig2).exists_precommit
      refine .inl (.inr ⟨w1, hw1, ?_⟩)
      exact honce.precommits.nil_of_conflict ⟨w1, hw1, rfl⟩ ⟨w2, hw2, rfl⟩
        (hh1.trans (hheight.trans hh2.symm)) (hr1.trans (hround.trans hr2.symm)) hb1 hb2 hne
    all_goals exact absurd hverify Bool.false_ne_true
  · rintro (hnil | hheaders)
    · exact honce.exists_evidence hnil
    · exact exists_evidence_of_headers hheaders

/-- The loop proposes when the engine leads and is in the Propose step, and hands in a block it has
    built for the height and signed. -/
def Call.ProposesAsLoop (e : ConsensusEngine) : Call → Prop
  | .op env (.createProposal fresh) => (e.isProposer env fresh.header.parentHash).1 = true
      ∧ e.step = .Propose ∧ fresh.header.slot = e.height
      ∧ fresh.header.validator = e.validatorPubkey
      ∧ fresh.verifySignatureWithChainId e.signingChainId = true
  | _ => True

/-- A check that suffices for both. -/
def followsLoop (e : ConsensusEngine) : Call → Bool
  | .op env (.createProposal fresh) => decide ((e.isProposer env fresh.header.parentHash).1 = true
      ∧ e.step = .Propose ∧ fresh.header.slot = e.height
      ∧ fresh.header.validator = e.validatorPubkey
      ∧ fresh.verifySignatureWithChainId e.signingChainId = true)
  | .op _ _ | .rebuildPowerSnapshot _ _ | .isProposer _ _ => true
  | .startHeight h => decide (e.height < h)
  | _ => false

theorem follows_of_check (e : ConsensusEngine) (c : Call) (h : followsLoop e c = true) :
    c.CrashFree e ∧ c.ProposesAsLoop e := by
  cases c with
  | op env o =>
    refine ⟨trivial, ?_⟩
    cases o with
    | createProposal fresh =>
      simp only [followsLoop, decide_eq_true_eq] at h
      exact h
    | _ => trivial
  | startHeight h' =>
    simp only [followsLoop, decide_eq_true_eq] at h
    exact ⟨h, trivial⟩
  | rebuildPowerSnapshot vs pool => exact ⟨trivial, trivial⟩
  | isProposer env parent => exact ⟨trivial, trivial⟩
  | _ => exact absurd h Bool.false_ne_true

/-- The second validator of three, who leads rounds 0 and 3. -/
def leaderNew : ConsensusEngine := .new ⟨2⟩ (Crypto.pubkey ⟨2⟩) ⟨[], nil_short⟩ 1 .default

def leaderStart : List Call :=
  [.startHeight 1, .rebuildPowerSnapshot trioSetting.validatorSet trioSetting.stakePool]

/-- It hears no proposal in time, and prevotes nil. -/
def nilScript : List Call := leaderStart ++ [.op (trioSetting.env 0) (.onTimeout .Propose 0)]

/-- The other two give up a round. -/
def givenUp (round : UInt32) : List Call :=
  let S := trioSetting
  [.op (S.env 0) (.onPrecommit (S.precommitBy ⟨1⟩ round none 0)),
   .op (S.env 0) (.onPrecommit (S.precommitBy ⟨3⟩ round none 0))]

/-- It leads round 0, prevotes the others' blocks in rounds 1 and 2, and leads round 3. -/
def twoBlocksScript : List Call :=
  let S := trioSetting
  leaderStart ++ [.op (S.env 0) (.createProposal (S.blockBy ⟨2⟩ ⟨1⟩))] ++ givenUp 0
    ++ [.op (S.env 0) (.onProposal (S.proposalBy ⟨3⟩ 1 (S.blockBy ⟨3⟩ ⟨3⟩)))] ++ givenUp 1
    ++ [.op (S.env 0) (.onProposal (S.proposalBy ⟨1⟩ 2 (S.blockBy ⟨1⟩ ⟨4⟩)))] ++ givenUp 2
    ++ [.op (S.env 0) (.createProposal (S.blockBy ⟨2⟩ ⟨2⟩))]

/-- It leads round 0 and commits its block with the votes of the first. -/
def oneBlockScript : List Call :=
  let S := trioSetting
  let block := S.blockBy ⟨2⟩ ⟨1⟩
  leaderStart ++ [.op (S.env 0) (.createProposal block),
    .op (S.env 0) (.onPrevote (S.prevoteBy ⟨1⟩ 0 (some block.hash))),
    .op (S.env 0) (.onPrecommit (S.precommitBy ⟨1⟩ 0 (some block.hash) 0))]

/-- A vote for nil. -/
def votesNil : ConsensusAction → Bool
  | .BroadcastPrevote v => hashOrNil v.blockHash = Hash.zero
  | .BroadcastPrecommit v => hashOrNil v.blockHash = Hash.zero
  | _ => false

omit [Crypto] in
theorem sentNil_iff : SentNil log ↔ log.any votesNil = true := by
  rw [any_eq_true]
  constructor
  · rintro (⟨v, hv, hnil⟩ | ⟨v, hv, hnil⟩)
    · exact ⟨_, hv, decide_eq_true hnil⟩
    · exact ⟨_, hv, decide_eq_true hnil⟩
  · rintro ⟨a, ha, hnil⟩
    cases a with
    | BroadcastPrevote v => exact .inl ⟨v, ha, of_decide_eq_true hnil⟩
    | BroadcastPrecommit v => exact .inr ⟨v, ha, of_decide_eq_true hnil⟩
    | _ => exact absurd hnil Bool.false_ne_true

/-- A proposal of this block. -/
def proposes (b : Block) : ConsensusAction → Bool
  | .BroadcastProposal p => p.block = b
  | _ => false

theorem ownHeader_of_proposes {b}
    (h : log.any (proposes b) = true) (hsig : b.header.verifySignatureWithChainId chainId = true) :
    OwnHeader chainId log b.header.validator b.header := by
  obtain ⟨a, ha, hp⟩ := any_eq_true.mp h
  cases a with
  | BroadcastProposal p =>
    obtain rfl : p.block = b := of_decide_eq_true hp
    exact ⟨p, ha, rfl, rfl, hsig⟩
  | _ => exact absurd hp Bool.false_ne_true

/-- Proposals of this block only. -/
def proposesOnly (b : Block) : ConsensusAction → Bool
  | .BroadcastProposal p => p.block = b
  | _ => true

theorem not_sentTwoHeaders {pk b}
    (h : log.all (proposesOnly b) = true) : ¬ SentTwoHeaders chainId log pk := by
  have hone : ∀ g, OwnHeader chainId log pk g → g = b.header := by
    rintro g ⟨p, hp, rfl, -⟩
    have hblock : p.block = b := of_decide_eq_true (all_eq_true.mp h _ hp)
    rw [hblock]
  rintro ⟨g, g', hg, hg', -, hne⟩
  rw [hone g hg, hone g' hg'] at hne
  exact hne rfl

end

/-- A validator that only times out once, and one that never votes nil but leads twice, have both
    followed their engine; against each there is evidence that verifies. -/
theorem correct_validator_slashable : ∃ (_ : Crypto) (kp : Keypair) (chainId : ChainId)
    (minStake : UInt64) (timeouts : ConsensusTimeoutConfig) (e e' : ConsensusEngine)
    (log log' : List ConsensusAction) (ev ev' : SlashingEvidence),
    Call.Runs (fun e c => c.CrashFree e ∧ c.ProposesAsLoop e)
        (.new kp (Crypto.pubkey kp) chainId minStake timeouts) e log
      ∧ ¬ SentTwoHeaders chainId log (Crypto.pubkey kp)
      ∧ ev.validator = Crypto.pubkey kp ∧ ev.Assembled chainId log
      ∧ ev.verifyWithChainId chainId = true
      ∧ Call.Runs (fun e c => c.CrashFree e ∧ c.ProposesAsLoop e)
        (.new kp (Crypto.pubkey kp) chainId minStake timeouts) e' log'
      ∧ ¬ SentNil log'
      ∧ ev'.validator = Crypto.pubkey kp ∧ ev'.Assembled chainId log'
      ∧ ev'.verifyWithChainId chainId = true := by
  let _ : Crypto := Crypto.plain
  let V := trioSetting.blockBy ⟨2⟩ ⟨1⟩
  let W := trioSetting.blockBy ⟨2⟩ ⟨2⟩
  obtain ⟨e, log, hrun, hp⟩ := Call.exists_runs_of_play follows_of_check leaderNew nilScript
    (fun _ log => log.any votesNil && log.all (proposesOnly V)) (by decide +kernel)
  obtain ⟨e', log', hrun', hp'⟩ := Call.exists_runs_of_play follows_of_check leaderNew
    twoBlocksScript
    (fun _ log => !log.any votesNil && (log.any (proposes V) && log.any (proposes W)))
    (by decide +kernel)
  obtain ⟨hnil, honly⟩ := Bool.and_eq_true_iff.mp hp
  obtain ⟨hnonil, htwo⟩ := Bool.and_eq_true_iff.mp hp'
  obtain ⟨hV, hW⟩ := Bool.and_eq_true_iff.mp htwo
  have hfree : Call.Runs Call.CrashFree leaderNew e log := hrun.mono fun _ _ h => h.1
  have hheaders : SentTwoHeaders ⟨[], by decide⟩ log' (Crypto.pubkey ⟨2⟩) :=
    ⟨V.header, W.header, ownHeader_of_proposes hV (by decide +kernel),
      ownHeader_of_proposes hW (by decide +kernel), by decide +kernel, by decide +kernel⟩
  obtain ⟨ev', hval', hheld', hverify'⟩ := exists_evidence_of_headers hheaders
  obtain ⟨ev, hval, hheld, hverify⟩ := hfree.votesOnce.exists_evidence (sentNil_iff.mpr hnil)
  refine ⟨Crypto.plain, ⟨2⟩, ⟨[], by decide⟩, 1, .default, e, e', log, log', ev, ev', hrun,
    not_sentTwoHeaders honly, hval, hheld, hverify, hrun', ?_, hval', hheld', hverify'⟩
  rw [sentNil_iff]
  simpa using hnonil

/-- The validator that leads once and commits its block has no evidence against it. -/
theorem slashable_iff_oneBlock : ∃ (_ : Crypto) (kp : Keypair) (chainId : ChainId)
    (minStake : UInt64) (timeouts : ConsensusTimeoutConfig) (e : ConsensusEngine)
    (log : List ConsensusAction),
    Call.Runs Call.CrashFree (.new kp (Crypto.pubkey kp) chainId minStake timeouts) e log
      ∧ log.any ConsensusAction.commits = true
      ∧ ¬ ∃ ev : SlashingEvidence, ev.validator = Crypto.pubkey kp ∧ ev.Assembled chainId log
        ∧ ev.verifyWithChainId chainId = true := by
  let _ : Crypto := Crypto.plain
  obtain ⟨e, log, hrun, hp⟩ := Call.exists_runs_of_play follows_of_check leaderNew oneBlockScript
    (fun _ log => log.any ConsensusAction.commits && (!log.any votesNil
      && log.all (proposesOnly (trioSetting.blockBy ⟨2⟩ ⟨1⟩)))) (by decide +kernel)
  obtain ⟨hcommit, hp⟩ := Bool.and_eq_true_iff.mp hp
  obtain ⟨hnonil, honly⟩ := Bool.and_eq_true_iff.mp hp
  have hfree : Call.Runs Call.CrashFree leaderNew e log := hrun.mono fun _ _ h => h.1
  refine ⟨Crypto.plain, ⟨2⟩, ⟨[], by decide⟩, 1, .default, e, log, hfree, hcommit, ?_⟩
  intro hev
  rcases (slashable_iff hfree).mp hev with hnil | htwo
  · rw [sentNil_iff] at hnil
    rw [hnil] at hnonil
    exact absurd hnonil Bool.false_ne_true
  · exact not_sentTwoHeaders honly htwo

end Lichen
