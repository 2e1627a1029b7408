/-
  From a commit to its certificate: the quorum an engine commits on against the quorum the next
  block has to prove.

  The two are computed by different code on different numbers.  The engine counts the live stake of
  its power snapshot; the certificate counts the canonical powers, which under Staking V2 are the
  ones frozen at the start of the epoch.  Everything else about a commit carries over — the
  signatures it collected are valid precommits of distinct validators (`SigsValid`, `TallyInv`) —
  so a commit can be certified exactly if every quorum of the first kind is one of the second
  (`QuorumsAgree`).  Without V2, and as long as the frozen powers are the live ones, that is so;
  after a stake change within an epoch it is not.
-/
import Mathlib.Algebra.Order.BigOperators.Group.Finset
import Lichen.Core.Certificate
import Lichen.Validator.Tally

open Base HashMap
namespace Lichen
open ConsensusPowerSnapshot Crypto List ConsensusEngine

/-! ## The signatures an engine keeps -/

namespace ConsensusEngine

variable [Crypto]

/-- Every counted precommit has its signature kept, and the signature is on it. -/
def SigsValid (e : ConsensusEngine) : Prop :=
  ∀ r k bh, e.precommits.seen.get (r, k) = some bh →
    ∃ sig ts, e.precommitSigs.get (r, k) = some (sig, ts)
      ∧ Crypto.verify k
          (Precommit.signingBytesForChainId e.signingChainId e.height r bh ts) sig = true

theorem SigsValid.kept {e : ConsensusEngine} (h : e.SigsValid) (r : UInt32) (k : Pubkey)
    (bh : Option Hash) (hseen : e.precommits.seen.get (r, k) = some bh) :
    ∃ s, e.precommitSigs.get (r, k) = some s := by
  obtain ⟨sig, ts, hget, -⟩ := h r k bh hseen
  exact ⟨(sig, ts), hget⟩

section
variable {e : ConsensusEngine}

/-- Counting a precommit together with its signature. -/
theorem SigsValid.put (h : e.SigsValid)
    (hv : verify k (Precommit.signingBytesForChainId e.signingChainId e.height r bh ts) sig = true) :
    ∀ r' k' bh', (e.precommits.seen.put (r, k) bh).get (r', k') = some bh' →
      ∃ sig' ts', (e.precommitSigs.put (r, k) (sig, ts)).get (r', k') = some (sig', ts')
        ∧ verify k'
            (Precommit.signingBytesForChainId e.signingChainId e.height r' bh' ts') sig' = true := by
  intro r' k' bh' hseen
  rcases get_put_cases hseen with ⟨hkey, rfl⟩ | ⟨hkey, hseen⟩
  · cases hkey
    exact ⟨sig, ts, get_put_self _ _ _, hv⟩
  · rw [get_put_ne _ _ hkey]
    exact h r' k' bh' hseen

/-- **One move keeps the signatures valid.** -/
theorem Step.sigsValid (h : Step env e ev e') (hkey : e.validatorPubkey = pubkey e.keypair)
    (hI : e.SigsValid) : e'.SigsValid := by
  cases h with
  | recvPrecommit v power hheight hsig =>
    intro r k bh hseen
    simp only [recordPrecommit, VoteTally.seen_record] at hseen ⊢
    refine hI.put ?_ r k bh hseen
    rw [← hheight]
    exact hsig
  | precommit bh' =>
    intro r k bh hseen
    simp only [recordOwnPrecommit, VoteTally.seen_record] at hseen ⊢
    refine hI.put ?_ r k bh hseen
    rw [hkey]
    exact verify_sign _ _
  | _ => exact hI

theorem SigsValid.restoreSignedPrecommit (hI : e.SigsValid) (h : UInt64) (r : UInt32)
    (bh : Option Hash) (sig : PqSignature) (ts : UInt64) :
    (e.restoreSignedPrecommit h r bh sig ts).2.SigsValid := by
  rcases restoreSignedPrecommit_cases e h r bh sig ts with heq | ⟨rfl, -, hverify, lr, lv, heq⟩
  · rw [heq]
    exact hI
  · have hseen : (restoreVote e.precommits e.powerSnapshot r e.validatorPubkey bh
        ⟨e.height, r, bh, e.validatorPubkey, sig, ts⟩).seen
        = e.precommits.seen.put (r, e.validatorPubkey) bh := by
      unfold restoreVote
      dsimp only
      split
      · rfl
      · split
        · rfl
        · rfl
    rw [heq]
    intro r' k' bh' _
    grind [put]

end
end ConsensusEngine

namespace Call

variable [Crypto]

theorem key_next (c : Call) (hwf : e.BlocksWf) :
    (c.next e).validatorPubkey = e.validatorPubkey ∧ (c.next e).keypair = e.keypair := by
  by_cases hminor : c.Minor
  · obtain ⟨_, _, _, _, _, _, _, _, heq⟩ := next_minor hminor e
    rw [heq]
    exact ⟨rfl, rfl⟩
  · cases c with
    | op env o =>
      have hframe := ConsensusEngine.Does.frame (o.run_does env hwf)
      exact ⟨hframe.validatorPubkey, hframe.keypair⟩
    | startHeight h => exact ⟨rfl, rfl⟩
    | rebuildPowerSnapshot vs pool => exact ⟨rfl, rfl⟩
    | restoreSignedPrevote h r bh sig =>
      grind [restoreSignedPrevote_cases, next]
    | restoreSignedPrecommit h r bh sig ts =>
      grind [restoreSignedPrecommit_cases, next]
    | _ => exact absurd trivial hminor

theorem sigsValid_next (c : Call) (hwf : e.BlocksWf)
    (hkey : e.validatorPubkey = pubkey e.keypair) (hI : e.SigsValid) :
    (c.next e).SigsValid := by
  by_cases hminor : c.Minor
  · obtain ⟨_, _, _, _, _, _, _, _, heq⟩ := next_minor hminor e
    rw [heq]
    exact hI
  · cases c with
    | op env o =>
      obtain ⟨evs, htr, -, hallow⟩ := o.run_does env hwf
      exact (Trace.invariant (I := fun e₁ => e₁.SigsValid ∧ ConsensusEngine.Frame e e₁) (by
          rintro e₁ ev e₂ hs - ⟨hI₁, hframe⟩
          refine ⟨hs.sigsValid ?_ hI₁, hframe.trans hs.frame⟩
          rw [hframe.validatorPubkey, hframe.keypair]
          exact hkey) htr hallow ⟨hI, .refl e⟩).1
    | startHeight h => exact fun r k bh hseen => nomatch hseen
    | rebuildPowerSnapshot vs pool => exact hI
    | restoreSignedPrevote h r bh sig =>
      rcases restoreSignedPrevote_cases e h r bh sig with heq | ⟨-, -, heq⟩
      · grind [next]
      · rw [show next e (.restoreSignedPrevote h r bh sig) = _ from heq]
        exact hI
    | restoreSignedPrecommit h r bh sig ts => exact hI.restoreSignedPrecommit h r bh sig ts
    | _ => exact absurd trivial hminor

/-- Signatures stay valid along every run of an engine that holds its own key. -/
theorem Reached.sigsValid (h : Call.Reached ok e) :
    e.validatorPubkey = pubkey e.keypair → e.SigsValid := by
  induction h with
  | new kp pk chainId minStake timeouts => exact fun _ r k bh hseen => nomatch hseen
  | @call e c hprev hok ih =>
    grind [blocksWf, key_next, sigsValid_next]

end Call

/-! ## The certificate of a commit -/

/-- Every list of validators with 2/3 of the engine's power has 2/3 of the canonical power. -/
def QuorumsAgree (vs : ValidatorSet) (pool : StakePool) (minValidatorStake : UInt64) : Prop :=
  ∀ l : List Pubkey, l.Nodup →
    HasTwoThirds (ConsensusPowerSnapshot.build vs pool minValidatorStake).eligiblePower l →
    HasTwoThirds (eligiblePowers (canonicalValidatorPowers vs pool) minValidatorStake) l

theorem powerIn_of_get_none (h : m.get k = none) : powerIn m k = 0 := by
  unfold powerIn
  rw [h]
  rfl

/-- The total only depends on what everybody has. -/
theorem totalIn_congr (h : ∀ k, powerIn m k = powerIn m' k) : totalIn m = totalIn m' := by
  -- both are the sum over the keys of either
  have hwide : ∀ (m : HashMap Pubkey UInt64) (s : Finset Pubkey), m.keys.toFinset ⊆ s →
      totalIn m = ∑ k ∈ s, powerIn m k := by
    intro m s hsub
    rw [totalIn, ← sum_toFinset _ m.keys_nodup]
    refine Finset.sum_subset hsub ?_
    intro k _ hk
    rw [mem_toFinset] at hk
    exact powerIn_of_get_none ((not_mem_keys_iff _ _).mp hk)
  rw [hwide m (m.keys.toFinset ∪ m'.keys.toFinset) Finset.subset_union_left,
    hwide m' (m.keys.toFinset ∪ m'.keys.toFinset) Finset.subset_union_right]
  exact Finset.sum_congr rfl fun k _ => h k

variable {pool : StakePool}

/-- Equal powers have the same quorums. -/
theorem quorumsAgree_of_powerIn_eq (h : ∀ k, powerIn (build vs pool minStake).eligiblePower k
      = powerIn (eligiblePowers (canonicalValidatorPowers vs pool) minStake) k) :
    QuorumsAgree vs pool minStake := by
  rintro l - ⟨hpos, htwo⟩
  rw [totalIn_congr h] at hpos htwo
  rw [show l.map (powerIn (build vs pool minStake).eligiblePower)
    = l.map (powerIn (eligiblePowers (canonicalValidatorPowers vs pool) minStake)) from
      map_congr_left fun k _ => h k] at htwo
  exact ⟨hpos, htwo⟩

/-- **When the quorums agree**: without Staking V2, or as long as the frozen powers are the live
    ones. -/
theorem quorumsAgree_of_live (minStake : UInt64)
    (hactive : ∀ v ∈ vs.validators, v.pendingActivation = false)
    (hlive : pool.stakingV2State = none ∨ ∀ v ∈ vs.validators, pool.stakingV2ConsensusPower v.pubkey
        = (pool.getStake v.pubkey).map StakeInfo.totalStake) :
    QuorumsAgree vs pool minStake := by
  have hnd := nodup_canonicalValidatorPowers vs pool
  apply quorumsAgree_of_powerIn_eq
  intro k
  by_cases hk : k ∈ vs.validators.map ValidatorInfo.pubkey
  · obtain ⟨v, hv, rfl⟩ := mem_map.mp hk
    have hsnap : (build vs pool minStake).eligiblePower.get v.pubkey
        = ((pool.getStake v.pubkey).map StakeInfo.totalStake).filter
          fun stake => decide (minStake ≤ stake) := by
      rw [get_build_of_mem hv, liveStake, hactive v hv]
      rfl
    have hfilter : ∀ power : UInt64,
        (eligiblePowers (canonicalValidatorPowers vs pool) minStake).get v.pubkey
          = (if minStake ≤ power then some power else none) →
        (pool.getStake v.pubkey).map StakeInfo.totalStake = some power →
        powerIn (build vs pool minStake).eligiblePower v.pubkey
          = powerIn (eligiblePowers (canonicalValidatorPowers vs pool) minStake) v.pubkey := by
      intro power hget hstake
      unfold powerIn
      rw [hget, hsnap, hstake, Option.filter_some]
      simp only [decide_eq_true_eq]
    cases hstake : (pool.getStake v.pubkey).map StakeInfo.totalStake with
    | some power =>
      refine hfilter power ?_ hstake
      have hp : ⟨v.pubkey, power⟩ ∈ canonicalValidatorPowers vs pool := by
        refine (mem_canonicalValidatorPowers hactive _).mpr ⟨v, hv, rfl, ?_⟩
        rcases hlive with hnone | hsame
        · rw [hnone, hstake]; rfl
        · grind
      exact get_eligiblePowers_of_mem hnd hp minStake
    | none =>
      -- no stake: not in the snapshot, and in the list at most with power 0
      rw [powerIn_of_get_none (by rw [hsnap, hstake]; rfl)]
      by_cases hp : v.pubkey ∈ (canonicalValidatorPowers vs pool).map CanonicalValidatorPower.validator
      · obtain ⟨p, hp, hkey⟩ := mem_map.mp hp
        obtain ⟨u, -, hkey', hpower⟩ := (mem_canonicalValidatorPowers hactive p).mp hp
        rw [show u.pubkey = v.pubkey from hkey'.symm.trans hkey, hstake] at hpower
        have hzero : p.power = 0 := by
          rcases hlive with hnone | hsame
          · grind
          · grind
        unfold powerIn
        rw [← hkey, get_eligiblePowers_of_mem hnd hp, hzero]
        split
        · rfl
        · rfl
      · rw [powerIn_of_get_none (get_eligiblePowers_of_not_mem hnd hp minStake)]
  · grind [powerIn_of_get_none, get_build_of_not_mem, get_eligiblePowers_of_not_mem, mem_canonicalValidatorPowers]

/-- Who is not eligible adds nothing. -/
theorem sum_filter_eligible (m : HashMap Pubkey UInt64) (l : List Pubkey) :
    ((l.filter fun k => (m.get k).isSome).map (powerIn m)).sum = (l.map (powerIn m)).sum := by
  induction l with
  | nil => rfl
  | cons k l ih =>
    rw [filter_cons, map_cons, sum_cons]
    cases hk : m.get k with
    | none =>
      rw [powerIn_of_get_none hk, Nat.zero_add]
      exact ih
    | some p =>
      show ((k :: _).map (powerIn m)).sum = _
      rw [map_cons, sum_cons, ih]

namespace ConsensusEngine

variable {env : Env} {e : ConsensusEngine}

/-- The signatures collected are those of the eligible voters of the bucket. -/
theorem validators_collectCommitSignatures (env : Env) (hT : e.TallyInv)
    (hS : ∀ r k bh, e.precommits.seen.get (r, k) = some bh → ∃ s, e.precommitSigs.get (r, k) = some s)
    (r : UInt32) (bh : Hash) :
    (e.collectCommitSignatures env r bh).map CommitSignature.validator
      = (e.precommits.bucket (r, some bh)).filter fun pk => (e.eligibleStake env pk).isSome := by
  have hall : ∀ l : List Pubkey, (∀ k ∈ l, e.precommits.seen.get (r, k) = some (some bh)) →
      (l.filterMap fun pk => (e.precommitSigs.get (r, pk)).map
        fun s => CommitSignature.mk pk s.1 s.2).map CommitSignature.validator = l := by
    intro l
    induction l with
    | nil => intro _; rfl
    | cons k l ih =>
      intro hl
      obtain ⟨sig, hget⟩ := hS r k _ (hl k mem_cons_self)
      grind
  apply hall
  intro k hk
  exact (hT.precommits.mem_bucket r _ k).mp (mem_filter.mp hk).1

variable [Crypto]

/-- Each of them is a valid precommit for the block. -/
theorem verify_collectCommitSignatures (hT : e.TallyInv) (hS : e.SigsValid)
    (hs : s ∈ e.collectCommitSignatures env r bh) :
    verify s.validator (Precommit.signingBytesForChainId e.signingChainId e.height r
      (some bh) s.timestamp) s.signature = true := by
  obtain ⟨k, hk, hsig⟩ := mem_filterMap.mp hs
  have hseen := (hT.precommits.mem_bucket r _ k).mp (mem_filter.mp hk).1
  obtain ⟨sig', ts', hget', hverify⟩ := hS r k _ hseen
  grind

/-- **One commit can be certified.** -/
theorem Step.certifies {ev : Event} (hstep : Step env e ev e')
    (hB : e.BlocksWf) (hT : e.TallyInv) (hS : e.SigsValid)
    (hsnap : e.powerSnapshot = some (.build vs pool e.minValidatorStake))
    (hagree : QuorumsAgree vs pool e.minValidatorStake)
    (hmem : .CommitBlock h r b bh ∈ ev.output) (hslot : b.header.slot = e.height)
    (hheight : e.height ≠ 0)
    (hvalidators : b.header.validatorsHash
      = canonicalValidatorPowersHash (canonicalValidatorPowers vs pool))
    (hroot : root ≠ Hash.zero) (hmeta : canonicalBlockMetadataHash [] [] ≠ Hash.zero) :
    ∃ c, CanonicalCommitCertificate.fromCommittedBlock b (canonicalValidatorPowers vs pool) root
        = .ok c
      ∧ c.verifyParent b e.signingChainId e.minValidatorStake = .ok () := by
  obtain ⟨block, rfl, rfl, hquorum, hblock⟩ := hstep.commit_output hmem
  have hsigners := validators_collectCommitSignatures env hT hS.kept r bh
  have hnodup := hT.precommits.nodup (r, some bh)
  -- the engine's quorum, without those that are not eligible
  have helig : ∀ pk, (e.eligibleStake env pk).isSome
      = ((build vs pool e.minValidatorStake).eligiblePower.get pk).isSome := by
    intro pk
    rw [eligibleStake_of_snapshot hsnap]
    rfl
  have htwo := Quorum.two_thirds hsnap (hT.countedPrecommits _ hsnap) hquorum
  have hlive : HasTwoThirds (build vs pool e.minValidatorStake).eligiblePower
      ((e.precommits.bucket (r, some bh)).filter fun pk => (e.eligibleStake env pk).isSome) := by
    simp only [helig]
    refine ⟨?_, ?_⟩
    · rw [totalIn, ← total_eq]
      exact htwo.1
    · rw [totalIn, ← total_eq, sum_filter_eligible]
      exact htwo.2
  have hcanonical := hagree _ (hnodup.filter _) hlive
  rw [← hsigners] at hcanonical
  refine CanonicalCommitCertificate.certifies ?_ hroot hmeta
    (pairwise_canonicalValidatorPowers vs pool) hvalidators.symm ?_ ?_ hcanonical
  · rw [hslot]
    exact hheight
  · show ((e.collectCommitSignatures env r bh).map CommitSignature.validator).Nodup
    rw [hsigners]
    exact hnodup.filter _
  · intro s hs
    have hverify := verify_collectCommitSignatures hT hS hs
    have hhash : block.hash = bh := hB bh block hblock
    show verify s.validator (Precommit.signingBytesForChainId e.signingChainId
      block.header.slot r (some block.hash) s.timestamp) s.signature = true
    rw [hhash, show block.header.slot = e.height from hslot]
    exact hverify

end ConsensusEngine
section
variable [Crypto]

/-- **What the engine commits, the next block can prove**, for a set and pool whose quorums agree:
    in every run of an engine that counts with the power of that set and pool, every commit for a
    block that carries their canonical hash has a certificate that verifies. -/
theorem commit_certifies {e : ConsensusEngine} {env : Env} {o : Op} {vs : ValidatorSet}
    {pool : StakePool} {h : UInt64} {r : UInt32} {b : Block} {bh root : Hash}
    (hreach : Call.Reached Call.OwnVotesSigned e) (hok : Call.OwnVotesSigned e (.op env o))
    (hkey : e.validatorPubkey = Crypto.pubkey e.keypair)
    (hsnap : e.powerSnapshot = some (.build vs pool e.minValidatorStake))
    (hagree : QuorumsAgree vs pool e.minValidatorStake)
    (hcommit : .CommitBlock h r b bh ∈ (o.run env e).1.flatten)
    (hslot : b.header.slot = e.height) (hheight : e.height ≠ 0)
    (hvalidators : b.header.validatorsHash
      = canonicalValidatorPowersHash (canonicalValidatorPowers vs pool))
    (hroot : root ≠ Hash.zero) (hmeta : canonicalBlockMetadataHash [] [] ≠ Hash.zero) :
    ∃ c, CanonicalCommitCertificate.fromCommittedBlock b (canonicalValidatorPowers vs pool) root
        = .ok c
      ∧ c.verifyParent b e.signingChainId e.minValidatorStake = .ok () := by
  have hwf := hreach.blocksWf
  -- the state in which the commit is emitted has every invariant of the run
  obtain ⟨e₁, ev, e₂, hstep, -, ⟨hB, hT, hS, hw⟩, hmem⟩ := Produces.exists_step
    (I := fun e₁ : ConsensusEngine => e₁.BlocksWf ∧ e₁.TallyInv ∧ e₁.SigsValid ∧ e.Within e₁)
    (by
      rintro e₁ ev e₂ hs hev ⟨hB, hT, hS, hw⟩
      refine ⟨hs.blocksWf hB, hs.tallyInv ?_ hT, hs.sigsValid ?_ hS, hw.step hs⟩
      · exact hw.echoesSigned (Call.echoesSigned_of_ownVotesSigned hok ev hev)
      · rw [hw.frame.validatorPubkey, hw.frame.keypair]
        exact hkey)
    (o.run_does env hwf) ⟨hwf, hreach.tallyInv, hreach.sigsValid hkey, .refl e⟩ hcommit
  rw [← hw.frame.minValidatorStake, ← hw.frame.powerSnapshot] at hsnap
  rw [← hw.frame.height] at hslot hheight
  rw [← hw.frame.minValidatorStake] at hagree ⊢
  rw [← hw.frame.signingChainId]
  exact hstep.certifies hB hT hS hsnap hagree hmem hslot hheight hvalidators hroot hmeta

end

/-- Two validators whose live stakes are 200 and 100, and whose frozen powers are `p` and 100. -/
def driftSet : ValidatorSet := .ofStakes [(⟨1⟩, 200), (⟨2⟩, 100)] (by decide)

def driftPool (p : UInt64) : StakePool where
  stakes := (StakePool.ofStakes [(⟨1⟩, 200), (⟨2⟩, 100)]).stakes
  stakingV2State := some ⟨((∅ : HashMap Pubkey ValidatorEpochAccounting).put ⟨1⟩ ⟨p, 10⟩).put ⟨2⟩
    ⟨100, 10⟩⟩

def driftNew : ConsensusEngine := .new ⟨1⟩ ⟨1⟩ ⟨[], nil_short⟩ 1 .default

def driftEngine (p : UInt64) : ConsensusEngine :=
  (driftNew.startHeight 1).rebuildPowerSnapshot driftSet (driftPool p)

theorem reached_driftEngine [Crypto] (p : UInt64) :
    Call.Reached Call.OwnVotesSigned (driftEngine p) :=
  .call (.rebuildPowerSnapshot driftSet (driftPool p)) (.call (.startHeight 1) (.new ..) trivial)
    trivial

/-- The block the first proposes, with the canonical hash. -/
def driftBlock [Crypto] (p : UInt64) : Block :=
  ⟨⟨1, Hash.zero, Hash.zero, Hash.zero, 0, computeValidatorsHash driftSet (driftPool p), ⟨1⟩, none⟩,
    [], [], [], 0, []⟩

def driftOp [Crypto] (p : UInt64) : Op := .createProposal (driftBlock p)

def driftEnv (p : UInt64) : Env := .plain driftSet (driftPool p) 0

/-- `b` is for slot 1 and carries the canonical hash. -/
def driftCarries [Crypto] (p : UInt64) (b : Block) : Bool :=
  decide (b.header.slot = 1 ∧ b.header.validatorsHash
    = canonicalValidatorPowersHash (canonicalValidatorPowers driftSet (driftPool p)))

/-- The certificate of `b` can be built, but does not verify. -/
def driftRefused [Crypto] (p : UInt64) (b : Block) : Bool :=
  match CanonicalCommitCertificate.fromCommittedBlock b
      (canonicalValidatorPowers driftSet (driftPool p)) ⟨1⟩ with
  | .ok c => !(c.verifyParent b ⟨[], nil_short⟩ 1).isOk
  | .error _ => false

/-- The first validator had 100 when the epoch started and got 100 more since: by live stake it is
    a quorum by itself and commits its own proposal at once, by canonical power it has half. -/
theorem drifted_commit_not_certified : ∃ (_ : Crypto) (e : ConsensusEngine) (env : Env) (o : Op)
    (vs : ValidatorSet) (pool : StakePool) (h : UInt64) (r : UInt32) (b : Block) (bh root : Hash)
    (c : CanonicalCommitCertificate),
    (∀ v ∈ vs.validators, v.pendingActivation = false) ∧ Call.Reached Call.OwnVotesSigned e
      ∧ Call.OwnVotesSigned e (.op env o) ∧ e.validatorPubkey = Crypto.pubkey e.keypair
      ∧ e.powerSnapshot = some (.build vs pool e.minValidatorStake)
      ∧ .CommitBlock h r b bh ∈ (o.run env e).1.flatten ∧ b.header.slot = e.height ∧ e.height ≠ 0
      ∧ b.header.validatorsHash = canonicalValidatorPowersHash (canonicalValidatorPowers vs pool)
      ∧ root ≠ Hash.zero
      ∧ CanonicalCommitCertificate.fromCommittedBlock b (canonicalValidatorPowers vs pool) root
        = .ok c
      ∧ c.verifyParent b e.signingChainId e.minValidatorStake ≠ .ok () := by
  let _ : Crypto := Crypto.plain
  obtain ⟨h, r, b, bh, hmem, hp⟩ := ConsensusAction.exists_commit_of_any
    (l := ((driftOp 100).run (driftEnv 100) (driftEngine 100)).1.flatten)
    (p := fun _ _ b _ => driftCarries 100 b && driftRefused 100 b) (by decide +kernel)
  obtain ⟨hcarries, hrefused⟩ := Bool.and_eq_true_iff.mp hp
  obtain ⟨hslot, hhash⟩ := of_decide_eq_true hcarries
  unfold driftRefused at hrefused
  split at hrefused
  · rename_i c hc
    refine ⟨Crypto.plain, driftEngine 100, driftEnv 100, driftOp 100, driftSet, driftPool 100, h, r,
      b, bh, ⟨1⟩, c, by decide, reached_driftEngine 100, trivial, rfl, rfl, hmem, hslot, by decide,
      hhash, by decide, hc, ?_⟩
    intro hok
    rw [show c.verifyParent b ⟨[], by decide⟩ 1 = .ok () from hok] at hrefused
    exact absurd hrefused (by decide)
  · exact absurd hrefused Bool.false_ne_true

/-- The same with the frozen power at 200, as live. -/
theorem commit_certifies_live : ∃ (_ : Crypto) (b : Block) (c : CanonicalCommitCertificate),
    CanonicalCommitCertificate.fromCommittedBlock b
        (canonicalValidatorPowers driftSet (driftPool 200)) ⟨1⟩ = .ok c
      ∧ c.verifyParent b ⟨[], by decide⟩ 1 = .ok () := by
  let _ : Crypto := Crypto.plain
  obtain ⟨h, r, b, bh, hmem, hcarries⟩ := ConsensusAction.exists_commit_of_any
    (l := ((driftOp 200).run (driftEnv 200) (driftEngine 200)).1.flatten)
    (p := fun _ _ b _ => driftCarries 200 b) (by decide +kernel)
  obtain ⟨hslot, hhash⟩ := of_decide_eq_true hcarries
  obtain ⟨c, hc, hverify⟩ := commit_certifies (reached_driftEngine 200)
    (show Call.OwnVotesSigned (driftEngine 200) (.op (driftEnv 200) (driftOp 200)) from trivial)
    rfl rfl (quorumsAgree_of_live 1 (by decide) (.inr (by decide))) hmem hslot (by decide) hhash
    (show (⟨1⟩ : Hash) ≠ Hash.zero by decide) (by decide +kernel)
  exact ⟨Crypto.plain, b, c, hc, hverify⟩

end Lichen
