/-
  Who sets the chain's clock.

  A commit collects the timestamps of the precommits it counted; `compute_bft_timestamp` takes
  their median by stake, and the next honest proposer uses it.  `Certified` says what the network
  knows about the signatures a correct engine collects: they are of distinct validators with two
  thirds of the stake, and those of correct validators were sent with these timestamps.  So the
  median is bounded by correct clocks (`next_time_bounded`).

  But nobody checks that a proposed block carries that median.  `proposer_sets_time` is an
  adversary that leads the next height and dates its block as far ahead as `on_proposal` allows.
-/
import Lichen.Validator.Certify
import Lichen.Validator.Network
import Lichen.Validator.Proposal

open Base
namespace Lichen
open ConsensusPowerSnapshot List

/-- A precommit by `k` at round `r` with timestamp `ts`, whose signed bytes are for `bh`. -/
def SentAt (log : List ConsensusAction) (k : Pubkey) (r : UInt32) (bh : Option Hash)
    (ts : UInt64) : Prop :=
  ∃ v, .BroadcastPrecommit v ∈ log ∧ v.validator = k ∧ v.round = r ∧ v.timestamp = ts
    ∧ hashOrNil v.blockHash = hashOrNil bh

theorem SentAt.mono (hsub : ∀ a ∈ log, a ∈ log') (h : SentAt log k r bh ts) :
    SentAt log' k r bh ts := by
  obtain ⟨v, hv, hrest⟩ := h
  exact ⟨v, hsub _ hv, hrest⟩

namespace Setting

variable {S : Setting}

/-! ## The timestamps an engine keeps were sent -/

/-- Every counted precommit has its timestamp kept, and a correct validator sent it. -/
def Stamped (S : Setting) (log : List ConsensusAction) (e : ConsensusEngine) : Prop :=
  ∀ r k bh, e.precommits.seen.get (r, k) = some bh →
    ∃ s, e.precommitSigs.get (r, k) = some s ∧ (S.correct k = true → SentAt log k r bh s.2)

variable {log : List ConsensusAction} {e : ConsensusEngine}

theorem Stamped.mono (hsub : ∀ a ∈ log, a ∈ log') (h : S.Stamped log e) : S.Stamped log' e := by
  intro r k bh hseen
  obtain ⟨s, hget, hsent⟩ := h r k bh hseen
  exact ⟨s, hget, fun hk => (hsent hk).mono hsub⟩

variable {r : UInt32}

/-- Counting one more precommit, together with its signature. -/
theorem Stamped.put (h : S.Stamped log e) (hs : S.correct k = true → SentAt log k r bh s.2) :
    ∀ r' k' bh', (e.precommits.seen.put (r, k) bh).get (r', k') = some bh' →
      ∃ s', (e.precommitSigs.put (r, k) s).get (r', k') = some s'
        ∧ (S.correct k' = true → SentAt log k' r' bh' s'.2) := by
  intro r' k' bh' hseen
  rcases HashMap.get_put_cases hseen with ⟨hkey, rfl⟩ | ⟨hkey, hseen⟩
  · cases hkey
    exact ⟨s, HashMap.get_put_self _ _ _, hs⟩
  · rw [HashMap.get_put_ne _ _ hkey]
    exact h r' k' bh' hseen

variable {e : ConsensusEngine}

variable [Crypto]

/-- **One move keeps the timestamps true.** -/
theorem Stamped.step {pk env} (h : S.Stamped log e) (hlink : Linked S log pk e)
    (hs : ConsensusEngine.Step env e ev e') (hev : S.UnforgedEvent log ev) :
    S.Stamped (log ++ ev.output) e' := by
  have hold : S.Stamped (log ++ ev.output) e := h.mono fun a ha => mem_append_left _ ha
  cases hs with
  | recvPrecommit v power hheight hsig =>
    intro r k bh hseen
    simp only [ConsensusEngine.recordPrecommit, VoteTally.seen_record] at hseen ⊢
    refine hold.put ?_ r k bh hseen
    intro hk
    have hsigned := hev (hheight.trans hlink.height) hk (hlink.signingChainId ▸ hsig)
    obtain ⟨w, hw, hval, -, hround, hts, hhash⟩ := hsigned.exists_precommit
    exact ⟨w, mem_append_left _ hw, hval, hround, hts, hhash⟩
  | precommit bh' =>
    intro r k bh hseen
    simp only [ConsensusEngine.recordOwnPrecommit, VoteTally.seen_record] at hseen ⊢
    refine hold.put ?_ r k bh hseen
    intro _
    exact ⟨_, mem_append_right _ (mem_singleton_self _), rfl, rfl, rfl, rfl⟩
  | _ => exact hold

/-! ## What a commit carries -/

/-- The signatures with a committed block: distinct validators with two thirds of the stake, the
    correct ones of which sent them. -/
structure Certified (S : Setting) (log : List ConsensusAction) (r : UInt32) (b : Block)
    (bh : Hash) : Prop where
  quorum : S.weighted.IsQuorum (b.commitSignatures.map CommitSignature.validator)
  sent : ∀ cs ∈ b.commitSignatures, S.correct cs.validator = true →
    SentAt log cs.validator r (some bh) cs.timestamp

variable {bh : Hash} {b : Block}

omit [Crypto] in
theorem Certified.mono
    (hsub : ∀ a ∈ log, a ∈ log') (h : S.Certified log r b bh) : S.Certified log' r b bh :=
  ⟨h.quorum, fun cs hcs hk => (h.sent cs hcs hk).mono hsub⟩

/-- **One commit is certified**, by the signatures it collects. -/
theorem Stamped.certified {pk env ev h}
    (hst : S.Stamped log e) (hlink : Linked S log pk e) (hs : ConsensusEngine.Step env e ev e')
    (hmem : .CommitBlock h r b bh ∈ ev.output) : S.Certified log r b bh := by
  obtain ⟨block, rfl, rfl, hquorum, -⟩ := hs.commit_output hmem
  constructor
  · -- the voters of the bucket, without those that weigh nothing
    have hsigners := ConsensusEngine.validators_collectCommitSignatures env hlink.tally
      (fun r k bh hseen => (hst r k bh hseen).imp fun _ h => h.1) r bh
    have hq := hlink.isQuorum hlink.tally.precommits
      (hlink.tally.countedPrecommits _ hlink.powerSnapshot) hquorum
    have helig : ∀ k, (e.eligibleStake env k).isSome = (S.snapshot.eligiblePower.get k).isSome := by
      intro k
      rw [ConsensusEngine.eligibleStake_of_snapshot hlink.powerSnapshot]
      rfl
    show S.weighted.IsQuorum ((e.collectCommitSignatures env r bh).map CommitSignature.validator)
    rw [hsigners]
    simp only [helig]
    refine ⟨hq.1.filter _, ?_⟩
    show S.weighted.total * 2 ≤ ((List.filter _ _).map (powerIn S.snapshot.eligiblePower)).sum * 3
    rw [sum_filter_eligible]
    exact hq.2
  · intro cs hcs hk
    obtain ⟨k, hk', hsig⟩ := mem_filterMap.mp hcs
    obtain ⟨⟨sig, ts⟩, hget, rfl⟩ := Option.map_eq_some_iff.mp hsig
    have hseen := (hlink.tally.precommits.mem_bucket r _ k).mp (mem_filter.mp hk').1
    obtain ⟨s, hget', hsent⟩ := hst r k _ hseen
    obtain rfl := Option.some.inj (hget.symm.trans hget')
    exact hsent hk

/-- What holds along a run: kept timestamps are true, and commits are certified. -/
structure TimeInv (S : Setting) (s : System) : Prop where
  stamped : ∀ pk e, s.engines pk = some e → S.Stamped s.log e
  certified : ∀ h r b bh, .CommitBlock h r b bh ∈ s.log → S.Certified s.log r b bh

theorem Move.timeInv (hm : Move S s s') (hI : Inv S s) (h : S.TimeInv s) : S.TimeInv s' := by
  cases hm with
  | start pk e hcorrect hnone hid =>
    have hlog : (s.update pk (S.started e) []).log = s.log := append_nil _
    constructor
    · intro pk' e' he'
      rw [hlog]
      by_cases hpk : pk' = pk
      · subst hpk
        rw [System.engines_update_self] at he'
        cases he'
        exact fun r k bh hseen => nomatch hseen
      · rw [System.engines_update_ne _ _ _ hpk] at he'
        exact h.stamped pk' e' he'
    · rw [hlog]
      exact h.certified
  | step pk e env ev e₁ hcorrect he hstep hev =>
    have hsub : ∀ a ∈ s.log, a ∈ s.log ++ ev.output := fun a ha => mem_append_left _ ha
    have hlink := hI.linked pk e he
    constructor
    · intro pk' e' he'
      by_cases hpk : pk' = pk
      · subst hpk
        rw [System.engines_update_self] at he'
        cases he'
        exact (h.stamped pk' e he).step hlink hstep hev
      · rw [System.engines_update_ne _ _ _ hpk] at he'
        exact (h.stamped pk' e' he').mono hsub
    · intro h' r b bh hmem
      rcases mem_append.mp hmem with hmem | hmem
      · exact (h.certified h' r b bh hmem).mono hsub
      · exact ((h.stamped pk e he).certified hlink hstep hmem).mono hsub

theorem Moves.timeInv (h : S.Moves System.init s) : S.TimeInv s := by
  induction h with
  | refl =>
    constructor
    · exact fun pk e he => nomatch he
    · exact fun h r b bh hmem => absurd hmem not_mem_nil
  | tail hprev hm ih => exact hm.timeInv (Moves.inv hprev inv_init) ih

/-! ## BFT time -/

section
omit [Crypto]

/-- Without Staking V2, `compute_bft_timestamp` weighs validators as the engine does, if both use
    one minimum. -/
theorem eligibleStake_build (minStake : UInt64) (hv1 : pool.stakingV2State = none) (k : Pubkey) :
    eligibleValidatorStake k vs pool minStake = (build vs pool minStake).eligibleStake k := by
  unfold eligibleValidatorStake eligibleStake
  cases hk : vs.getValidator k with
  | none =>
    rw [get_build_of_not_mem]
    intro hmem
    obtain ⟨v, hv, rfl⟩ := mem_map.mp hmem
    exact absurd (List.find?_eq_none.mp hk v hv) (by simp)
  | some info =>
    have hkey : info.pubkey = k := by simpa using List.find?_some hk
    subst hkey
    rw [get_build_of_mem (mem_of_find?_eq_some hk)]
    unfold liveStake
    dsimp only
    cases info.pendingActivation with
    | true => rfl
    | false =>
      rw [if_neg Bool.false_ne_true, if_neg Bool.false_ne_true, hv1, if_neg (by simp)]
      cases pool.getStake info.pubkey with
      | none => rfl
      | some stake =>
        show (if stake.totalStake < minStake then none else some stake.totalStake)
          = (some stake.totalStake).filter fun s => decide (minStake ≤ s)
        rw [Option.filter_some]
        by_cases hlt : stake.totalStake < minStake
        · have hnot : ¬ minStake ≤ stake.totalStake := UInt64.not_le.mpr hlt
          simp [hlt, hnot]
        · have hle : minStake ≤ stake.totalStake := UInt64.not_lt.mp hlt
          simp [hlt, hle]

/-- The stakes behind certified signatures, if BFT time weighs them as the engine did. -/
theorem Certified.minority (h : S.Certified log r b bh)
    (hpowers : ∀ k, eligibleValidatorStake k vs pool MIN_VALIDATOR_STAKE
      = S.snapshot.eligibleStake k) :
    ((b.commitSignatures.filter fun cs => !S.correct cs.validator).map (timeStake vs pool)).sum * 2
      < (b.commitSignatures.map (timeStake vs pool)).sum := by
  have hweigh : timeStake vs pool = fun cs => S.weighted.w cs.validator := by
    funext cs
    show ((eligibleValidatorStake cs.validator vs pool MIN_VALIDATOR_STAKE).map _).getD 0 = _
    rw [hpowers]
    rfl
  have hbad := h.quorum.bad_minority
  rw [weight, weight, filter_map, map_map, map_map] at hbad
  rw [hweigh]
  exact hbad

end

end Setting

/-- **BFT time is set by correct clocks.** For every commit of a correct engine there is a BFT
    time: the block's own, or between the timestamps of two correct validators' precommits for it,
    if the stakes are weighed as the engine weighed them.  So a next block dated no later is not
    later than the block and all of these. -/
theorem next_time_bounded [Crypto] {S : Setting} {s : System} {h : UInt64} {r : UInt32} {P : Block}
    {bh : Hash} {vs : ValidatorSet} {pool : StakePool} (hrun : S.Run s)
    (hcommit : .CommitBlock h r P bh ∈ s.log)
    (hpowers : ∀ k, eligibleValidatorStake k vs pool MIN_VALIDATOR_STAKE
      = S.snapshot.eligibleStake k) :
    ∃ ts, computeBftTimestamp P.commitSignatures vs pool (some P.header.timestamp) = some ts
      ∧ (ts = P.header.timestamp
        ∨ (∃ k t, S.correct k = true ∧ SentAt s.log k r (some bh) t ∧ ts ≤ t)
          ∧ ∃ k t, S.correct k = true ∧ SentAt s.log k r (some bh) t ∧ t ≤ ts)
      ∧ ∀ B : Block, B.header.timestamp ≤ ts → B.header.timestamp ≤ P.header.timestamp
        ∨ ∃ k t, S.correct k = true ∧ SentAt s.log k r (some bh) t ∧ B.header.timestamp ≤ t := by
  have hcert := (Setting.Moves.timeInv hrun.moves).certified h r P bh hcommit
  have hminor := hcert.minority hpowers
  obtain ⟨ts, hts⟩ := exists_computeBftTimestamp
    (some P.header.timestamp) (lt_of_le_of_lt (Nat.zero_le _) hminor)
  have hbetween : ts = P.header.timestamp
      ∨ (∃ k t, S.correct k = true ∧ SentAt s.log k r (some bh) t ∧ ts ≤ t)
        ∧ ∃ k t, S.correct k = true ∧ SentAt s.log k r (some bh) t ∧ t ≤ ts := by
    rcases computeBftTimestamp_between S.correct hts hminor with
      hmin | ⟨⟨a, ha, hgood, hle⟩, b, hb, hgood', hle'⟩
    · exact .inl (Option.some.inj hmin).symm
    · exact .inr ⟨⟨_, _, hgood, hcert.sent a ha hgood, hle⟩,
        ⟨_, _, hgood', hcert.sent b hb hgood', hle'⟩⟩
  refine ⟨ts, hts, hbetween, ?_⟩
  intro B hB
  rcases hbetween with rfl | ⟨⟨k, t, hk, hsent, hle⟩, -⟩
  · exact .inl hB
  · exact .inr ⟨k, t, hk, hsent, UInt64.le_trans hB hle⟩

/-! ## A proposer that sets the time -/

/-- Four validators; the last is the adversary, with 3 of 10. -/
def clockStakes : List (Pubkey × UInt64) :=
  [(⟨1⟩, 3 * MIN_VALIDATOR_STAKE), (⟨2⟩, 3 * MIN_VALIDATOR_STAKE), (⟨3⟩, MIN_VALIDATOR_STAKE),
   (⟨4⟩, 3 * MIN_VALIDATOR_STAKE)]

def clockSetting (height : UInt64) : Setting where
  validatorSet := .ofStakes clockStakes (by decide)
  stakePool := .ofStakes clockStakes
  minValidatorStake := MIN_VALIDATOR_STAKE
  signingChainId := ⟨[], nil_short⟩
  height := height
  correct := fun k => k ≠ ⟨4⟩
  minority := by decide

section
variable [Crypto]

/-- A block of the height on `parent`, with the frozen set's hash. -/
def clockBlock (height : UInt64) (kp : Keypair) (parent : Hash) (timestamp : UInt64)
    (transactions : List Transaction) (txRoot : Hash) : Block :=
  let S := clockSetting height
  Block.signWithChainId
    ⟨⟨height, parent, ⟨1⟩, txRoot, timestamp, computeValidatorsHash S.validatorSet S.stakePool,
      Crypto.pubkey kp, none⟩, transactions, [], [], 0, []⟩ kp S.signingChainId

/-- The block of height 1, dated 100. -/
def clockParent : Block := clockBlock 1 ⟨2⟩ Hash.zero 100 [] Hash.zero

/-- 2 proposes it and 1, 2 and 3 commit it; 1 collects the certificate. -/
def clockScript : List (Pubkey × Op) :=
  let S := clockSetting 1
  let p := some clockParent.hash
  [(⟨2⟩, .createProposal clockParent),
   (⟨1⟩, .onProposal (S.proposalBy ⟨2⟩ 0 clockParent)),
   (⟨3⟩, .onProposal (S.proposalBy ⟨2⟩ 0 clockParent)),
   (⟨1⟩, .onPrevote (S.prevoteBy ⟨2⟩ 0 p)),
   (⟨1⟩, .onPrevote (S.prevoteBy ⟨3⟩ 0 p)),
   (⟨2⟩, .onPrevote (S.prevoteBy ⟨1⟩ 0 p)),
   (⟨2⟩, .onPrevote (S.prevoteBy ⟨3⟩ 0 p)),
   (⟨3⟩, .onPrevote (S.prevoteBy ⟨1⟩ 0 p)),
   (⟨3⟩, .onPrevote (S.prevoteBy ⟨2⟩ 0 p)),
   (⟨1⟩, .onPrecommit (S.precommitBy ⟨2⟩ 0 p 100)),
   (⟨1⟩, .onPrecommit (S.precommitBy ⟨3⟩ 0 p 100))]

/-- The block of height 1 as 1 commits it. -/
def clockCommitted : Block :=
  { clockParent with
    commitSignatures := [⟨1⟩, ⟨2⟩, ⟨3⟩].map fun kp =>
      let v := (clockSetting 1).precommitBy kp 0 (some clockParent.hash) 100
      ⟨v.validator, v.signature, v.timestamp⟩ }

/-- Its certificate, in the transaction that the next block starts with. -/
def clockCertificate : CanonicalCommitCertificate :=
  let S := clockSetting 1
  .ofBlock clockCommitted (canonicalValidatorPowers S.validatorSet S.stakePool) ⟨1⟩

def clockTransaction : Transaction :=
  ⟨[], ⟨[⟨SYSTEM_PROGRAM_ID, [SYSTEM_PROGRAM_ID], [CANONICAL_COMMIT_ENVELOPE_OPCODE, 0]⟩],
    clockParent.hash, none, none⟩, .Consensus⟩

/-- A codec that knows this one certificate. -/
def clockCodec : BlockCodec where
  serializeTransaction t := t.message.instructions.flatMap Instruction.data
  deserializeCertificate bytes :=
    if bytes = [0] then .ok clockCertificate else .error "unexpected end of file"

/-- A node whose tip is the block of height 1. -/
def clockState : StateStore where
  getBlock h := .ok (if h = clockParent.hash then some clockCommitted else none)
  computeStateRoot := ⟨1⟩
  detectSchema slot _ context :=
    .error ("slot " ++ toString slot ++ " " ++ context ++ " state-root mismatch")
  speculate _ _ _ := ([], ⟨1⟩)

/-- The adversary's block of height 2, dated 130. -/
def clockChild : Block :=
  clockBlock 2 ⟨4⟩ clockParent.hash 130 [clockTransaction]
    (merkleTxRootFromHashes [clockTransaction.hash clockCodec])

def clockContext : ConsensusProposalValidationContext :=
  let S := clockSetting 2
  ⟨clockParent.hash, computeValidatorsHash S.validatorSet S.stakePool, S.minValidatorStake,
    S.signingChainId⟩

/-- A prevote of `k` for this block. -/
def prevotesFor (k : Pubkey) (bh : Hash) : ConsensusAction → Bool
  | .BroadcastPrevote v => v.validator = k ∧ v.blockHash = some bh
  | _ => false

/-- Not a precommit stamped later than `t`. -/
def stampedBy (t : UInt64) : ConsensusAction → Bool
  | .BroadcastPrecommit v => v.timestamp ≤ t
  | _ => true

/-- The commit of the block of height 1, with its certificate. -/
def commitsClock : ConsensusAction → Bool
  | .CommitBlock h r b bh => h = 1 ∧ r = 0 ∧ b = clockCommitted ∧ bh = clockParent.hash
  | _ => false

/-- What 1 does with the adversary's proposal, at the start of height 2. -/
def clockAnswer (s : System) : List ConsensusAction :=
  let S := clockSetting 2
  match s.engines ⟨1⟩ with
  | some e => ((S.started e).onProposal (S.env 100) (S.proposalBy ⟨4⟩ 0 clockChild)).1.flatten
  | none => []

theorem mem_of_any_commitsClock {log : List ConsensusAction} (h : log.any commitsClock = true) :
    .CommitBlock 1 0 clockCommitted clockParent.hash ∈ log := by
  obtain ⟨a, ha, hcommit⟩ := any_eq_true.mp h
  cases a with
  | CommitBlock h r b bh =>
    obtain ⟨rfl, rfl, rfl, rfl⟩ := of_decide_eq_true hcommit
    exact ha
  | _ => exact absurd hcommit Bool.false_ne_true

end

/-- The run of height 1. -/
theorem exists_clockRun : let _ : Crypto := Crypto.plain
    ∃ s, (clockSetting 1).Run s ∧ .CommitBlock 1 0 clockCommitted clockParent.hash ∈ s.log
      ∧ s.log.all (stampedBy 100) = true
      ∧ (clockAnswer s).any (prevotesFor ⟨1⟩ clockChild.hash) = true := by
  let _ : Crypto := Crypto.plain
  obtain ⟨s, hrun, hp, -⟩ := Setting.exists_run_of_plays (S := clockSetting 1) 100
    [⟨1⟩, ⟨2⟩, ⟨3⟩] clockScript
    (fun s => s.log.any commitsClock && (s.log.all (stampedBy 100)
      && (clockAnswer s).any (prevotesFor ⟨1⟩ clockChild.hash)))
    (by decide) (by decide) (by decide +kernel)
  grind [mem_of_any_commitsClock]

/-- A proposer with less than a third of the stake dates its block half a minute after everything
    the correct validators signed for its parent; the checks accept it, and a correct validator
    that committed the parent prevotes it. -/
theorem proposer_sets_time : ∃ (_ : Crypto) (s : System) (P : Block) (bh : Hash)
    (e : ConsensusEngine) (codec : BlockCodec) (state : StateStore)
    (context : ConsensusProposalValidationContext) (p : Proposal),
    (clockSetting 1).Run s ∧ .CommitBlock 1 0 P bh ∈ s.log
      ∧ (clockSetting 1).correct ⟨1⟩ = true ∧ s.engines ⟨1⟩ = some e
      ∧ state.getBlock bh = .ok (some P) ∧ context.expectedParentHash = bh
      ∧ validateConsensusProposalBeforePrevote codec state p context = .ok ()
      ∧ (∃ v, .BroadcastPrevote v
            ∈ (((clockSetting 2).started e).onProposal ((clockSetting 2).env 100) p).1.flatten
          ∧ v.validator = ⟨1⟩ ∧ v.blockHash = some p.block.hash)
      ∧ P.header.timestamp < p.block.header.timestamp
      ∧ ∀ v, .BroadcastPrecommit v ∈ s.log → v.timestamp < p.block.header.timestamp := by
  let _ : Crypto := Crypto.plain
  obtain ⟨s, hrun, hcommit, hstamped, hprevote⟩ := exists_clockRun
  obtain ⟨a, ha, hprevote⟩ := List.any_eq_true.mp hprevote
  unfold clockAnswer at ha
  split at ha
  · rename_i e he
    refine ⟨Crypto.plain, s, _, _, e, clockCodec, clockState, clockContext,
      (clockSetting 2).proposalBy ⟨4⟩ 0 clockChild, hrun, hcommit, by decide, he, ?_, rfl,
      by decide +kernel, ?_, by decide +kernel, ?_⟩
    · show Except.ok (if clockParent.hash = clockParent.hash then some clockCommitted else none) = _
      rw [if_pos rfl]
    · cases a with
      | BroadcastPrevote v =>
        obtain ⟨hval, hhash⟩ := of_decide_eq_true hprevote
        exact ⟨v, ha, hval, hhash⟩
      | _ => exact absurd hprevote Bool.false_ne_true
    · intro v hv
      have hle : v.timestamp ≤ 100 := of_decide_eq_true (List.all_eq_true.mp hstamped _ hv)
      exact UInt64.lt_of_le_of_lt hle (by decide)
  · exact absurd ha List.not_mem_nil

/-- At that commit BFT time is 100. -/
theorem next_time_bounded_clock : ∃ (_ : Crypto) (s : System) (P : Block) (bh : Hash),
    (clockSetting 1).Run s ∧ .CommitBlock 1 0 P bh ∈ s.log
      ∧ computeBftTimestamp P.commitSignatures (clockSetting 1).validatorSet
        (clockSetting 1).stakePool (some P.header.timestamp) = some 100
      ∧ ∀ B : Block, B.header.timestamp ≤ 100 → B.header.timestamp ≤ P.header.timestamp
        ∨ ∃ k t, (clockSetting 1).correct k = true ∧ SentAt s.log k 0 (some bh) t
          ∧ B.header.timestamp ≤ t := by
  let _ : Crypto := Crypto.plain
  obtain ⟨s, hrun, hcommit, -, -⟩ := exists_clockRun
  obtain ⟨ts, hts, -, hB⟩ := next_time_bounded hrun hcommit (show ∀ k, eligibleValidatorStake k
      (clockSetting 1).validatorSet (clockSetting 1).stakePool MIN_VALIDATOR_STAKE
        = (clockSetting 1).snapshot.eligibleStake k
    from Setting.eligibleStake_build MIN_VALIDATOR_STAKE rfl)
  obtain rfl := Option.some.inj (hts.symm.trans (show _ = some 100 by decide +kernel))
  exact ⟨Crypto.plain, s, _, _, hrun, hcommit, hts, hB⟩

end Lichen
