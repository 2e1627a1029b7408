/-
  The engine as an event machine.

  Every public method of the engine is a chain of a dozen primitive moves: take in a vote, sign
  one, lock, commit, enter a round, …  `Step` lists the moves, each with the guard under which the
  code makes it and the state it leaves behind.  The theorems `*_does` say that a method call
  is such a chain, that it returns exactly the actions its moves emit, in order, and which inputs
  it takes in.  An invariant of the engine is then a case analysis over `Step`, done once, instead
  of a walk through every method.
-/
import Lichen.Base.Trace
import Lichen.Validator.Engine

open Base HashMap
namespace Lichen
open ConsensusAction List ConsensusEngine

/-- The primitive moves. -/
inductive Event where
  | quiet
  | emit (a : ConsensusAction)
  | store (p : Proposal)
  | propose (p : Proposal)
  | recvPrevote (v : Prevote)
  | recvPrecommit (v : Precommit)
  | prevote (v : Prevote)
  | lock (bh : Hash)
  | toPrecommit
  | precommit (v : Precommit)
  | commit (viaNetwork : Bool) (height : UInt64) (round : UInt32) (block : Block) (bh : Hash)
  | advance (durationMs : UInt64)
  | skip (durationMs : UInt64)

namespace Event

/-- The actions a move emits. -/
def output : Event → List ConsensusAction
  | .emit a => [a]
  | .propose p => [.BroadcastProposal p]
  | .prevote v => [.BroadcastPrevote v]
  | .precommit v => [.BroadcastPrecommit v]
  | .commit _ h r b bh => [.CommitBlock h r b bh]
  | .advance d | .skip d => [.ScheduleTimeout .Propose d]
  | .quiet | .store _ | .recvPrevote _ | .recvPrecommit _ | .lock _ | .toPrecommit => []

/-- Moves that take nothing in from outside. -/
def Internal : Event → Prop
  | .store _ | .propose _ | .recvPrevote _ | .recvPrecommit _ => False
  | _ => True

/-- The internal moves other than a round skip. -/
def Local : Event → Prop
  | .skip _ => False
  | ev => ev.Internal

theorem Local.internal {ev : Event} (h : ev.Local) : ev.Internal := by
  cases ev with
  | skip d => exact absurd h id
  | _ => exact h

end Event

/-- The actions that leave no trace in the engine: timeouts, block requests, evidence. -/
def ConsensusAction.Inert : ConsensusAction → Prop
  | .ScheduleTimeout .. | .RequestBlockRange .. | .EquivocationDetected .. => True
  | _ => False

namespace ConsensusAction

@[simp] theorem flattenAll_append (as bs : List ConsensusAction) :
    flattenAll (as ++ bs) = flattenAll as ++ flattenAll bs := by
  induction as with
  | nil => rfl
  | cons a as ih =>
    show flatten a ++ flattenAll (as ++ bs) = _
    rw [ih, ← append_assoc]
    rfl

/-- Collapsing a list of actions loses none of them. -/
theorem flatten_ofList (as : List ConsensusAction) : (ofList as).flatten = flattenAll as := by
  match as with
  | [] => rfl
  | [a] => exact (append_nil _).symm
  | _ :: _ :: _ => rfl

/-- `None` can be dropped from a list of actions. -/
theorem flatten_of_isNone {a : ConsensusAction} (h : a.isNone = true) : a.flatten = [] := by
  cases a with
  | None => rfl
  | _ => exact absurd h Bool.false_ne_true

theorem flatten_pair (a b : ConsensusAction) :
    (Multiple [a, b]).flatten = a.flatten ++ b.flatten := by
  show a.flatten ++ (b.flatten ++ []) = _
  rw [append_nil]

/-- A commit with property `p`. -/
def isCommit (p : UInt64 → UInt32 → Block → Hash → Bool) : ConsensusAction → Bool
  | .CommitBlock h r b bh => p h r b bh
  | _ => false

/-- A `CommitBlock` action. -/
def commits : ConsensusAction → Bool := isCommit fun _ _ _ _ => true

theorem exists_commit_of_any {l : List ConsensusAction} (hany : l.any (isCommit p) = true) :
    ∃ h r b bh, .CommitBlock h r b bh ∈ l ∧ p h r b bh = true := by
  obtain ⟨a, ha, hp⟩ := any_eq_true.mp hany
  cases a with
  | CommitBlock h r b bh => exact ⟨h, r, b, bh, ha, hp⟩
  | _ => exact absurd hp Bool.false_ne_true

end ConsensusAction

namespace ConsensusEngine

theorem height_eq_of_not_lt {a b : UInt64} (h : ¬ b < a) (h' : ¬ a < b) : a = b :=
  UInt64.le_antisymm (UInt64.not_lt.mp h) (UInt64.not_lt.mp h')

variable [Crypto]

/-- The bucket has 2/3 of the power, as the engine counts it. -/
def Quorum {V : Type} (e : ConsensusEngine) (env : Env) (t : VoteTally V)
    (key : UInt32 × Option Hash) : Prop :=
  e.hasSupermajorityPower env (e.bucketPower env t key) = true

/-- Why the engine prevotes the block of hash `bh`: it is proposed for this round, and the lock
    allows it. -/
def MayPrevote (e : ConsensusEngine) (env : Env) (bh : Hash) : Prop :=
  ∃ p, e.proposals.get e.round = some p ∧ p.height = e.height ∧ p.round = e.round
    ∧ p.block.hash = bh
    ∧ (e.shouldPrevoteProposalBlock env p bh = true ∨ e.lockedValue = none
      ∨ e.lockedValue = some bh)

/-- The moves and their guards. -/
inductive Step (env : Env) (e : ConsensusEngine) : Event → ConsensusEngine → Prop
  /-- the leader cache or the buffers change; nothing enters the current height's buffers -/
  | quiet (cache) (fpv) (fpc)
      (hpv : ∀ v ∈ (fpv.get e.height).getD [], v ∈ (e.futurePrevotes.get e.height).getD [])
      (hpc : ∀ v ∈ (fpc.get e.height).getD [], v ∈ (e.futurePrecommits.get e.height).getD []) :
      Step env e .quiet
        { e with leaderCache := cache, futurePrevotes := fpv, futurePrecommits := fpc }
  | emit (a : ConsensusAction) (ha : a.Inert) : Step env e (.emit a) e
  | store (p : Proposal) (hheight : p.height = e.height) (hround : e.round ≤ p.round)
      (hsig : p.verifySignatureWithChainId e.signingChainId = true)
      (hleader : (e.expectedLeaderCached env (leaderSelectionSlot e.height p.round)
        p.block.header.parentHash).1 = some p.proposer)
      (hblock : p.block.verifySignatureWithChainId e.signingChainId = true)
      (hold : e.timestampTooOld p.block.header.timestamp = false)
      (hnew : p.block.header.timestamp ≤ env.clock e.round + 30) :
      Step env e (.store p) (e.storeProposal p)
  | propose (fresh block : Block) (vr : Int32) (hstep : e.step = .Propose)
      (hblock : e.proposalBlock fresh = some (block, vr)) :
      Step env e (.propose (e.ownProposal block vr)) (e.storeProposal (e.ownProposal block vr))
  | recvPrevote (v : Prevote) (power : UInt64) (hheight : v.height = e.height)
      (hsig : v.verifySignatureWithChainId e.signingChainId = true)
      (hpower : e.eligibleStake env v.validator = some power)
      (hnew : e.prevotes.seen.get (v.round, v.validator) = none) :
      Step env e (.recvPrevote v) (e.recordPrevote v power)
  | recvPrecommit (v : Precommit) (power : UInt64) (hheight : v.height = e.height)
      (hsig : v.verifySignatureWithChainId e.signingChainId = true)
      (hpower : e.eligibleStake env v.validator = some power)
      (hnew : e.precommits.seen.get (v.round, v.validator) = none)
      (hstep : e.step ≠ .Commit) :
      Step env e (.recvPrecommit v) (e.recordPrecommit v power)
  | prevote (bh : Option Hash) (hstep : e.step = .Propose)
      (hsigned : e.prevotes.signedRounds.get e.round = none)
      (hmay : ∀ h, bh = some h → e.MayPrevote env h) :
      Step env e (.prevote (e.ownPrevote bh))
        ((e.setStep .Prevote).recordOwnPrevote env bh)
  | lock (bh : Hash) (hstep : e.step = .Prevote)
      (hpolka : e.Quorum env e.prevotes (e.round, some bh)) :
      Step env e (.lock bh) ((e.setLock bh).setStep .Precommit)
  | toPrecommit (hstep : e.step = .Prevote) : Step env e .toPrecommit (e.setStep .Precommit)
  | precommit (bh : Option Hash) (hstep : e.step = .Precommit)
      (hsigned : e.precommits.signedRounds.get e.round = none)
      (hlock : ∀ h, bh = some h → e.lockedRound = some e.round ∧ e.lockedValue = some h
        ∧ e.Quorum env e.prevotes (e.round, some h)) :
      Step env e (.precommit (e.ownPrecommit env bh)) (e.recordOwnPrecommit env bh)
  /-- our own precommit completed the quorum -/
  | commitOwn (bh : Hash) (block : Block) (hstep : e.step = .Precommit)
      (hsigned : e.precommits.signedRounds.get e.round = some (some bh))
      (hquorum : e.Quorum env e.precommits (e.round, some bh))
      (hblock : e.proposalBlocks.get bh = some block) :
      Step env e (.commit false e.height e.round (e.committedBlock env e.round bh block) bh)
        (e.setStep .Commit)
  /-- a received precommit completed the quorum, at any round -/
  | commitNetwork (round : UInt32) (bh : Hash) (block : Block) (hstep : e.step ≠ .Commit)
      (hquorum : e.Quorum env e.precommits (round, some bh))
      (hblock : e.proposalBlocks.get bh = some block) :
      Step env e (.commit true e.height round (e.committedBlock env round bh block) bh)
        ((e.setStep .Commit).setLastCommitted block.header.timestamp)
  /-- a nil quorum of precommits, or the precommit timeout -/
  | advance (hstep : e.step ≠ .Commit)
      (hwhy : e.Quorum env e.precommits (e.round, none) ∨ e.step = .Precommit) :
      Step env e (.advance (e.enterRound (e.round + 1)).proposeTimeout) (e.enterRound (e.round + 1))
  | skip (htotal : 0 < e.totalEligibleStake env) (hmax : e.maxRound ≠ e.round)
      (hstake : e.totalEligibleStake env < e.futureStake env * 3) :
      Step env e (.skip (e.enterRound e.maxRound).proposeTimeout) (e.enterRound e.maxRound)

variable {env : Env} {e e' : ConsensusEngine} {ev : Event} {bh : Hash}

/-- A commit action comes from a quorum of precommits for a block the engine has. -/
theorem Step.commit_output {h}
    {r b} (hs : Step env e ev e')
    (hmem : .CommitBlock h r b bh ∈ ev.output) :
    ∃ block, h = e.height ∧ b = e.committedBlock env r bh block
      ∧ e.Quorum env e.precommits (r, some bh) ∧ e.proposalBlocks.get bh = some block := by
  cases hs with
  | commitOwn bh' block hstep hsigned hquorum hblock =>
    have := mem_singleton.mp hmem
    grind
  | commitNetwork round bh' block hstep hquorum hblock =>
    have := mem_singleton.mp hmem
    grind
  | emit a ha =>
    obtain rfl := mem_singleton.mp hmem
    exact absurd ha id
  | _ => simp [Event.output] at hmem

/-- A method call from `e` that returned `r`, taking in only what `allow` lets through. -/
abbrev Does (env : Env) (allow : Event → Prop) (e : ConsensusEngine) (as : List ConsensusAction)
    (e' : ConsensusEngine) : Prop :=
  Produces (Step env) Event.output allow e as e'

/-- A move that skips rounds only where `Q` allows it. -/
def SkipStep (Q : ConsensusEngine → Prop) (env : Env) (e : ConsensusEngine) (ev : Event)
    (e' : ConsensusEngine) : Prop :=
  Step env e ev e' ∧ ∀ d, ev = .skip d → Q e

variable {Q : ConsensusEngine → Prop}

theorem Step.noSkip (h : Step env e ev e') (hno : ∀ d, ev ≠ .skip d) : SkipStep Q env e ev e' :=
  ⟨h, fun d hd => absurd hd (hno d)⟩

/-- A call that skips rounds only where `Q` allows it. -/
abbrev SkipDoes (Q : ConsensusEngine → Prop) (env : Env) (allow : Event → Prop)
    (e : ConsensusEngine) (as : List ConsensusAction) (e' : ConsensusEngine) : Prop :=
  Produces (SkipStep Q env) Event.output allow e as e'

/-- What makes the engine skip rounds when it looks. -/
def Skips (e : ConsensusEngine) (env : Env) : Prop :=
  0 < e.totalEligibleStake env ∧ e.maxRound ≠ e.round
    ∧ e.totalEligibleStake env < e.futureStake env * 3

/-- The prevote `v` would be counted and make the engine skip out of the Commit step. -/
def LeavesCommit (e : ConsensusEngine) (env : Env) (v : Prevote) : Prop :=
  e.step = .Commit ∧ e.round < v.round ∧ v.height = e.height
    ∧ v.verifySignatureWithChainId e.signingChainId = true
    ∧ e.prevotes.seen.get (v.round, v.validator) = none
    ∧ ∃ power, e.eligibleStake env v.validator = some power ∧ (e.recordPrevote v power).Skips env

theorem SkipDoes.does (h : SkipDoes Q env allow e as e') : Does env allow e as e' :=
  h.steps fun _ _ _ hs _ => hs.1

/-- Without a skip there is nothing to allow. -/
theorem Does.noSkip (h : Does env allow e as e')
    (hno : ∀ d, ¬ allow (.skip d)) : SkipDoes Q env allow e as e' :=
  h.steps fun _ _ _ hs hallow => ⟨hs, fun d hd => absurd (hd ▸ hallow) (hno d)⟩

theorem Does.local (h : Does env Event.Local e as e') : SkipDoes Q env Event.Internal e as e' :=
  Produces.mono (fun _ => Event.Local.internal) (h.noSkip fun _ => id)

/-! ## What the signing methods do -/

section
variable {env : Env} {e : ConsensusEngine}

variable {V : Type}

section
omit [Crypto]

theorem transitionTo_precommit (hstep : e.step = .Prevote) :
    e.transitionTo .Precommit = e.setStep .Precommit := by
  unfold transitionTo
  rw [hstep]
  rfl

theorem transitionTo_prevote (hstep : e.step = .Propose) :
    e.transitionTo .Prevote = e.setStep .Prevote := by
  unfold transitionTo
  rw [hstep]
  rfl

/-- Commit is entered from every other step. -/
theorem transitionTo_commit (hstep : e.step ≠ .Commit) :
    e.transitionTo .Commit = e.setStep .Commit := by
  unfold transitionTo
  cases hs : e.step with
  | Commit => exact absurd hs hstep
  | Propose => rfl
  | Prevote => rfl
  | Precommit => rfl

end

/-- A precommit is signed, and may commit or end the round. -/
theorem doPrecommit_does {bh : Option Hash} (hstep : e.step = .Precommit)
    (hlock : ∀ h, bh = some h → e.lockedRound = some e.round ∧ e.lockedValue = some h
      ∧ e.Quorum env e.prevotes (e.round, some h)) :
    Does env Event.Local e (e.doPrecommit env bh).1.flatten (e.doPrecommit env bh).2 := by
  unfold doPrecommit
  split
  · exact .refl e
  · rename_i hs
    have hsigned := Option.not_isSome_iff_eq_none.mp hs
    have hsign : Does env Event.Local e [.BroadcastPrecommit (e.ownPrecommit env bh)]
        (e.recordOwnPrecommit env bh) := .single (Step.precommit bh hstep hsigned hlock) trivial
    have hstep' : (e.recordOwnPrecommit env bh).step = .Precommit := hstep
    cases bh with
    | some bh =>
      dsimp only
      split
      · -- the quorum is there and so is the block: commit
        rename_i block hblock
        rw [Option.ite_none_right_eq_some] at hblock
        obtain ⟨hquorum, hblock⟩ := hblock
        have hown : (e.recordOwnPrecommit env (some bh)).precommits.signedRounds.get e.round
            = some (some bh) := by
          simp only [recordOwnPrecommit, VoteTally.record]
          split
          · exact get_put_self _ _ _
          · exact get_put_self _ _ _
        have hcommit : Step env _ _ _ := .commitOwn bh block hstep' hown hquorum hblock
        rw [transitionTo_commit (by rw [hstep']; exact RoundStep.noConfusion)]
        exact hsign.trans (.single hcommit trivial)
      · exact hsign
    | none =>
      dsimp only
      split
      · -- a nil quorum ends the round
        have hadv : Step env (e.recordOwnPrecommit env none) _ _ := .advance
          (by rw [hstep']; exact RoundStep.noConfusion) (.inr hstep')
        exact hsign.trans (.single hadv trivial)
      · exact hsign

theorem doPrevote_does {bh : Option Hash} (hstep : e.step = .Propose)
    (hmay : ∀ h, bh = some h → e.MayPrevote env h) :
    Does env Event.Local e (e.doPrevote env bh).1.flatten (e.doPrevote env bh).2 := by
  unfold doPrevote
  split
  · exact .refl e
  · rename_i hs
    have hsigned := Option.not_isSome_iff_eq_none.mp hs
    rw [transitionTo_prevote hstep]
    have hsign : Does env Event.Local e [.BroadcastPrevote (e.ownPrevote bh)]
        ((e.setStep .Prevote).recordOwnPrevote env bh) :=
      .single (Step.prevote bh hstep hsigned hmay) trivial
    have hstep₁ : ((e.setStep .Prevote).recordOwnPrevote env bh).step = .Prevote := rfl
    dsimp only
    generalize (e.setStep .Prevote).recordOwnPrevote env bh = e₁ at hsign hstep₁ ⊢
    split
    · -- our vote completed the polka
      rename_i hquorum
      rw [flatten_pair]
      refine hsign.trans ?_
      cases bh with
      | some bh =>
        dsimp only
        rw [show e₁.lockOn bh = (e₁.setLock bh).setStep .Precommit from transitionTo_precommit hstep₁]
        refine Produces.head (Step.lock bh hstep₁ hquorum) trivial ?_
        apply doPrecommit_does rfl
        intro h hh
        cases hh
        exact ⟨rfl, rfl, hquorum⟩
      | none =>
        rw [transitionTo_precommit hstep₁]
        refine Produces.head (Step.toPrecommit hstep₁) trivial ?_
        exact doPrecommit_does rfl (fun h hh => nomatch hh)
    · exact hsign

theorem prevoteForCurrentRoundProposal_does {p} (hp : e.proposals.get e.round = some p) :
    Does env Event.Local e (e.prevoteForCurrentRoundProposal env p).1.flatten
      (e.prevoteForCurrentRoundProposal env p).2 := by
  unfold prevoteForCurrentRoundProposal
  split
  · exact .refl e
  · rename_i hguard
    simp only [not_or, not_not] at hguard
    obtain ⟨hheight, hround, hstep⟩ := hguard
    split
    · rename_i hshould
      apply doPrevote_does hstep
      intro h hh
      cases hh
      exact ⟨p, hp, hheight, hround, rfl, .inl hshould⟩
    · exact doPrevote_does hstep (fun h hh => nomatch hh)

theorem processCurrentRoundProposalIfPresent_does :
    Does env Event.Local e (e.processCurrentRoundProposalIfPresent env).1.flatten
      (e.processCurrentRoundProposalIfPresent env).2 := by
  unfold processCurrentRoundProposalIfPresent
  split
  · exact .refl e
  · split
    · exact .refl e
    · rename_i hp
      exact prevoteForCurrentRoundProposal_does hp

/-! ## Skipping rounds -/

/-- A nil precommit leaves the round only by starting the next one. -/
theorem doPrecommit_none_round :
    (e.doPrecommit env none).2.round = e.round ∨ (e.doPrecommit env none).2.step = .Propose := by
  unfold doPrecommit
  split
  · exact .inl rfl
  · dsimp only
    split
    · exact .inr rfl
    · exact .inl rfl

/-- So does a nil prevote. -/
theorem doPrevote_none_round (hstep : e.step = .Propose) :
    (e.doPrevote env none).2.round = e.round ∨ (e.doPrevote env none).2.step = .Propose := by
  unfold doPrevote
  split
  · exact .inl rfl
  · rw [transitionTo_prevote hstep]
    have hstep₁ : ((e.setStep .Prevote).recordOwnPrevote env none).step = .Prevote := rfl
    have hround₁ : ((e.setStep .Prevote).recordOwnPrevote env none).round = e.round := rfl
    grind [setStep, transitionTo_precommit, doPrecommit_none_round]

theorem catchUp_does (fuel : Nat) : ∀ e : ConsensusEngine, e.step = .Propose →
      Does env Event.Local e (flattenAll (catchUp env fuel e).1) (catchUp env fuel e).2 := by
  induction fuel with
  | zero => intro e _; exact .refl e
  | succ fuel ih =>
    intro e hstep
    unfold catchUp
    split
    · rename_i hp
      show Does env Event.Local e (_ ++ []) _
      rw [append_nil]
      exact prevoteForCurrentRoundProposal_does hp
    · have hnil : Does env Event.Local e (e.doPrevote env none).1.flatten _ :=
        doPrevote_does hstep (fun h hh => nomatch hh)
      dsimp only
      split
      · -- the nil prevote cascaded through a nil commit: go on in the new round
        rename_i hlt
        have hstep' : (e.doPrevote env none).2.step = .Propose := by
          rcases (doPrevote_none_round hstep : (e.doPrevote env none).2.round = _ ∨ _) with hr | hs
          · rw [hr] at hlt
            exact absurd hlt (UInt32.lt_irrefl _)
          · exact hs
        exact hnil.trans (ih _ hstep')
      · show Does env Event.Local e (_ ++ []) _
        rw [append_nil]
        exact hnil

variable {Q : ConsensusEngine → Prop}

theorem checkRoundSkip_does (hQ : e.Skips env → Q e) :
    SkipDoes Q env Event.Internal e (e.checkRoundSkip env).1.flatten (e.checkRoundSkip env).2 := by
  unfold checkRoundSkip
  split
  · exact .refl e
  · rename_i htotal
    split
    · exact .refl e
    · rename_i hmax
      split
      · rename_i hstake
        show SkipDoes Q env Event.Internal e (ofList _).flatten _
        rw [flatten_ofList]
        have hpos := Nat.pos_of_ne_zero htotal
        have hskip : Step env e (.skip _) _ := .skip hpos hmax hstake
        exact .head ⟨hskip, fun _ _ => hQ ⟨hpos, hmax, hstake⟩⟩ trivial
          (catchUp_does 100 _ rfl).local
      · exact .refl e

theorem skipRule_does (round : UInt32) (hQ : e.round < round → e.Skips env → Q e) :
    SkipDoes Q env Event.Internal e (flattenAll (e.skipRule env round).1)
      (e.skipRule env round).2 := by
  unfold skipRule
  split
  · rename_i hlt
    have hskip : SkipDoes Q env Event.Internal e _ _ := checkRoundSkip_does (hQ hlt)
    dsimp only
    split
    · rename_i hnone
      rw [flatten_of_isNone hnone] at hskip
      exact hskip
    · show SkipDoes Q env Event.Internal e (_ ++ []) _
      rw [append_nil]
      exact hskip
  · exact .refl e

/-! ## Proposing -/

/-- A precommit for a block changes neither the round nor the stored proposals. -/
theorem doPrecommit_some_frame : (e.doPrecommit env (some bh)).2.round = e.round
      ∧ (e.doPrecommit env (some bh)).2.proposals = e.proposals := by
  unfold doPrecommit
  split
  · exact ⟨rfl, rfl⟩
  · dsimp only
    split
    · unfold transitionTo
      split
      · exact ⟨rfl, rfl⟩
      · exact ⟨rfl, rfl⟩
    · exact ⟨rfl, rfl⟩

/-- Nor does a prevote for one. -/
theorem doPrevote_some_frame (hstep : e.step = .Propose) :
    (e.doPrevote env (some bh)).2.round = e.round
      ∧ (e.doPrevote env (some bh)).2.proposals = e.proposals := by
  unfold doPrevote
  split
  · exact ⟨rfl, rfl⟩
  · rw [transitionTo_prevote hstep]
    have hstep₁ : ((e.setStep .Prevote).recordOwnPrevote env (some bh)).step = .Prevote := rfl
    have hframe₁ : ((e.setStep .Prevote).recordOwnPrevote env (some bh)).round = e.round
        ∧ ((e.setStep .Prevote).recordOwnPrevote env (some bh)).proposals = e.proposals := ⟨rfl, rfl⟩
    dsimp only
    generalize (e.setStep .Prevote).recordOwnPrevote env (some bh) = e₁ at hstep₁ hframe₁ ⊢
    grind [lockOn, setLock, setStep, transitionTo_precommit, doPrecommit_some_frame]

/-- Blocks are stored under their own hash. -/
def BlocksWf (e : ConsensusEngine) : Prop :=
  ∀ h b, e.proposalBlocks.get h = some b → b.hash = h

/-- A locked proposer proposes the block it is locked on. -/
theorem proposalBlock_locked (hwf : e.BlocksWf) {fresh block vr}
    (h : e.proposalBlock fresh = some (block, vr)) :
    e.lockedValue = none ∨ e.lockedValue = some block.hash := by
  unfold proposalBlock at h
  split at h
  · rename_i hlocked
    right
    split at h
    · rename_i hb
      obtain ⟨rfl, -⟩ := Prod.mk.inj (Option.some.inj h)
      split at hb
      · simp_all
      · rw [hlocked, hwf _ _ hb]
    · simp at h
  · rename_i hlocked
    exact .inl hlocked

theorem createProposal_does (hwf : e.BlocksWf) (fresh : Block) :
    Does env (fun ev => ev.Local ∨ ∃ block vr, e.proposalBlock fresh = some (block, vr)
        ∧ ev = .propose (e.ownProposal block vr)) e
      (e.createProposal env fresh).1.flatten (e.createProposal env fresh).2 := by
  unfold createProposal
  split
  · exact .refl e
  · rename_i hstep
    rw [not_not] at hstep
    split
    · exact .single (Step.emit (.ScheduleTimeout .Propose e.proposeTimeout) trivial) (.inl trivial)
    · rename_i block vr hblock
      have hstep₁ : (e.storeProposal (e.ownProposal block vr)).step = .Propose := hstep
      have hget : (e.storeProposal (e.ownProposal block vr)).proposals.get e.round
          = some (e.ownProposal block vr) := get_put_self _ _ _
      obtain ⟨hround, hprops⟩ :
          ((e.storeProposal (e.ownProposal block vr)).doPrevote env (some block.hash)).2.round = _ ∧ _ :=
        doPrevote_some_frame hstep₁
      rw [flatten_pair, hround, hprops]
      show Does env _ e ([.BroadcastProposal
        (((e.storeProposal (e.ownProposal block vr)).proposals.get e.round).getD _)] ++ _) _
      rw [hget]
      refine Produces.head (Step.propose fresh block vr hstep hblock)
        (.inr ⟨block, vr, hblock, rfl⟩) (Produces.mono (fun _ => .inl) ?_)
      apply doPrevote_does hstep₁
      intro h hh
      cases hh
      exact ⟨_, hget, rfl, rfl, rfl, .inr (proposalBlock_locked hwf hblock)⟩

/-- Looking the leader up only touches the cache, and a second look finds the same leader. -/
theorem expectedLeaderCached_eq (e : ConsensusEngine) (env : Env) (slot : UInt64) (parent : Hash) :
    ∃ cache, (e.expectedLeaderCached env slot parent).2 = { e with leaderCache := cache }
      ∧ ((e.expectedLeaderCached env slot parent).2.expectedLeaderCached env slot parent).1
        = (e.expectedLeaderCached env slot parent).1 := by
  unfold expectedLeaderCached
  cases hc : e.leaderCache.get (slot, parent) <;> grind

/-- A proposal of the leader is stored, and may be voted for. -/
theorem acceptProposal_does (p : Proposal) (hheight : p.height = e.height)
    (hround : e.round ≤ p.round) (hsig : p.verifySignatureWithChainId e.signingChainId = true)
    (hleader : (e.expectedLeaderCached env (leaderSelectionSlot e.height p.round)
      p.block.header.parentHash).1 = leader) :
    Does env (fun ev => ev.Local ∨ ev = .store p) e
      (e.acceptProposal env p leader).1.flatten (e.acceptProposal env p leader).2 := by
  unfold acceptProposal
  split
  · exact .refl e
  rename_i hproposer
  rw [not_not] at hproposer
  split
  · exact .refl e
  rename_i hblock
  split
  · exact .refl e
  rename_i hold
  split
  · exact .refl e
  rename_i hnew
  have hstore : Step env e (.store p) _ := .store p hheight hround hsig (hleader.trans hproposer)
    (by simpa using hblock) (by simpa using hold) (UInt64.not_lt.mp hnew)
  have hstored : Does env (fun ev => ev.Local ∨ ev = .store p) e [] (e.storeProposal p) :=
    .single hstore (.inr rfl)
  dsimp only
  split
  · exact hstored
  rename_i hlater
  split
  · exact hstored
  · -- the proposal is for our round, so it is the one stored there
    have hcur : e.round = p.round := UInt32.le_antisymm hround (UInt32.not_lt.mp hlater)
    have hget : (e.storeProposal p).proposals.get (e.storeProposal p).round = some p := by
      show (e.proposals.put p.round p).get e.round = some p
      rw [hcur]
      exact get_put_self _ _ _
    exact hstored.trans (.mono (fun _ => .inl) (prevoteForCurrentRoundProposal_does hget))

theorem onProposal_does (p : Proposal) : Does env (fun ev => ev.Local ∨ ev = .store p) e
      (e.onProposal env p).1.flatten (e.onProposal env p).2 := by
  unfold onProposal
  split
  · exact .refl e
  rename_i hlt
  split
  · exact .refl e
  rename_i hgt
  split
  · exact .refl e
  rename_i hround
  split
  · exact .refl e
  rename_i hsig
  have hheight : p.height = e.height := height_eq_of_not_lt hlt hgt
  obtain ⟨cache, hcache, hagain⟩ := expectedLeaderCached_eq e env
    (leaderSelectionSlot e.height p.round) p.block.header.parentHash
  have hquiet : Does env (fun ev => ev.Local ∨ ev = .store p) e []
      { e with leaderCache := cache } :=
    .single (Step.quiet cache e.futurePrevotes e.futurePrecommits (fun _ h => h) (fun _ h => h))
      (.inl trivial)
  dsimp only
  rw [hcache] at hagain ⊢
  exact hquiet.trans (acceptProposal_does p hheight (UInt32.not_lt.mp hround) (by simpa using hsig)
    hagain)

/-! ## Votes -/

omit [Crypto] in
/-- Whatever the iteration order, the scan only finds a block that has a quorum. -/
theorem findQuorum_quorum {order} {round} (h : e.findQuorum env t order round = some bh) :
    e.Quorum env t (round, some bh) := by
  obtain ⟨⟨r, v⟩, -, hkey⟩ := exists_of_findSome?_eq_some h
  grind [Quorum]

theorem prevoteRule1_does (round : UInt32) :
    Does env Event.Local e (flattenAll (e.prevoteRule1 env round).1)
      (e.prevoteRule1 env round).2 := by
  unfold prevoteRule1
  split
  · rename_i hguard
    obtain ⟨rfl, hstep⟩ := hguard
    split
    · rename_i bh hfound
      have hquorum := findQuorum_quorum hfound
      show Does env Event.Local e (_ ++ []) _
      rw [append_nil,
        show e.lockOn bh = (e.setLock bh).setStep .Precommit from transitionTo_precommit hstep]
      refine .head (.lock bh hstep hquorum) trivial (doPrecommit_does rfl ?_)
      intro h hh
      cases hh
      exact ⟨rfl, rfl, hquorum⟩
    · exact .refl e
  · exact .refl e

theorem prevoteRule2_does (round : UInt32) :
    Does env Event.Local e (flattenAll (e.prevoteRule2 env round).1)
      (e.prevoteRule2 env round).2 := by
  unfold prevoteRule2
  split
  · rename_i hguard
    obtain ⟨-, hstep, -⟩ := hguard
    show Does env Event.Local e (_ ++ []) _
    rw [append_nil, transitionTo_precommit hstep]
    exact Produces.head (Step.toPrecommit hstep) trivial
      (doPrecommit_does rfl (fun h hh => nomatch hh))
  · exact .refl e

theorem prevoteRule3_does (round : UInt32) :
    Does env Event.Local e (flattenAll (e.prevoteRule3 env round)) e := by
  unfold prevoteRule3
  split
  · exact .single (Step.emit (.ScheduleTimeout .Prevote e.prevoteTimeout) trivial) trivial
  · exact .refl e

/-- A precommit for nil does not commit. -/
theorem doPrecommit_none_step (hstep : e.step = .Precommit) :
    (e.doPrecommit env none).2.step ≠ .Commit := by
  have hprecommit : e.step ≠ .Commit := by
    rw [hstep]
    exact RoundStep.noConfusion
  unfold doPrecommit
  split
  · exact hprecommit
  · dsimp only
    split
    · exact RoundStep.noConfusion
    · exact hprecommit

/-- Where the rules for a prevote at `round` leave the engine in Commit, it was there before, or
    the prevote was one of its round. -/
theorem prevoteRules_commit {round}
    (h : ((e.prevoteRule1 env round).2.prevoteRule2 env round).2.step = .Commit) :
    ((e.prevoteRule1 env round).2.prevoteRule2 env round).2 = e
      ∨ ((e.prevoteRule1 env round).2.prevoteRule2 env round).2.round = round := by
  have hfirst : (e.prevoteRule1 env round).2 = e ∨ (e.prevoteRule1 env round).2.round = round := by
    unfold prevoteRule1
    split
    · grind [lockOn, doPrecommit_some_frame, setLock, setStep, transitionTo_precommit]
    · exact .inl rfl
  grind [prevoteRule2, transitionTo_precommit, doPrecommit_none_step, setStep]

theorem prevoteRules_does (round : UInt32)
    (hQ : ∀ e', (e'.step = .Commit → e' = e ∨ e'.round = round) → e'.round < round →
      e'.Skips env → Q e') :
    SkipDoes Q env Event.Internal e (e.prevoteRules env round).1.flatten
      (e.prevoteRules env round).2 := by
  unfold prevoteRules
  rw [flatten_ofList, flattenAll_append, flattenAll_append, flattenAll_append]
  have hrules : Does env Event.Local e _ _ := ((prevoteRule1_does round).trans
    (prevoteRule2_does round)).trans (prevoteRule3_does round)
  exact hrules.local.trans (skipRule_does round (hQ _ prevoteRules_commit))

omit [Crypto] in
/-- A vote buffered for a later height is not in the current height's buffer. -/
theorem mem_getD_entryPush_ne {m : HashMap UInt64 (List V)} {x v : V}
    (hne : h' < h) (hv : v ∈ ((m.entryPush h x).get h').getD []) : v ∈ (m.get h').getD [] := by
  grind

/-- A received prevote is counted; local moves or a skip follow. -/
theorem onPrevote_does (v : Prevote)
    (hQ : ∀ e', (e'.step = .Commit → e.LeavesCommit env v) → Q e') :
    SkipDoes Q env (fun ev => ev.Internal ∨ ev = .recvPrevote v) e
      (e.onPrevote env v).1.flatten (e.onPrevote env v).2 := by
  unfold onPrevote
  split
  · rename_i hlt
    unfold bufferPrevote
    split
    · have hquiet : Step env e .quiet _ := .quiet e.leaderCache
        (e.futurePrevotes.entryPush v.height v) e.futurePrecommits
        (fun _ h => mem_getD_entryPush_ne hlt h) (fun _ h => h)
      exact .single (hquiet.noSkip nofun) (.inl trivial)
    · exact .refl e
  rename_i hlt
  split
  · exact .refl e
  rename_i hgt
  split
  · exact .refl e
  rename_i hsig
  have hheight : v.height = e.height := height_eq_of_not_lt hlt hgt
  split
  · exact .refl e
  rename_i power hpower
  split
  · unfold prevoteEquivocation
    split
    · split
      · exact Produces.single (Step.noSkip (.emit (.EquivocationDetected ..) trivial) nofun)
          (.inl trivial)
      · exact .refl e
    · exact .refl e
  · rename_i hnew
    rw [Bool.not_eq_true', Bool.not_eq_false] at hsig
    have hrecv : Step env e (.recvPrevote v) _ := Step.recvPrevote v power hheight hsig hpower hnew
    refine Produces.head (hrecv.noSkip nofun) (.inr rfl)
      (.mono (fun _ => .inl) (prevoteRules_does v.round ?_))
    intro e' hcommit hround hskips
    apply hQ
    intro hstep
    rcases hcommit hstep with rfl | hsame
    · exact ⟨hstep, hround, hheight, hsig, hnew, power, hpower, hskips⟩
    · rw [hsame] at hround
      exact absurd hround (UInt32.lt_irrefl _)

section
variable (hQ : ∀ e', e'.step ≠ .Commit → Q e')
include hQ

theorem precommitRest_does (round : UInt32) (hstep : e.step ≠ .Commit)
    (has : Does env Event.Local e (flattenAll as) e) :
    SkipDoes Q env Event.Internal e (e.precommitRest env round as).1.flatten
      (e.precommitRest env round as).2 := by
  unfold precommitRest
  split
  · rename_i hguard
    obtain ⟨rfl, hquorum⟩ := hguard
    exact Does.local (.single (Step.advance hstep (.inl hquorum)) trivial)
  · dsimp only
    rw [flatten_ofList, flattenAll_append, flattenAll_append]
    refine Produces.trans (Does.local (has.trans ?_)) (skipRule_does round fun _ _ => hQ e hstep)
    split
    · exact .single (Step.emit (.ScheduleTimeout .Precommit e.precommitTimeout) trivial) trivial
    · exact .refl e

theorem precommitRules_does (round : UInt32) (hstep : e.step ≠ .Commit) :
    SkipDoes Q env Event.Internal e (e.precommitRules env round).1.flatten
      (e.precommitRules env round).2 := by
  unfold precommitRules
  split
  · rename_i bh hfound
    split
    · rename_i block hblock
      rw [transitionTo_commit hstep]
      exact Does.local (.single
        (Step.commitNetwork round bh block hstep (findQuorum_quorum hfound) hblock) trivial)
    · exact precommitRest_does hQ round hstep
        (.single (Step.emit (.RequestBlockRange e.height e.height bh) trivial) trivial)
  · exact precommitRest_does hQ round hstep (.refl e)

theorem onPrecommit_does (v : Precommit) :
    SkipDoes Q env (fun ev => ev.Internal ∨ ev = .recvPrecommit v) e
      (e.onPrecommit env v).1.flatten (e.onPrecommit env v).2 := by
  unfold onPrecommit
  split
  · rename_i hlt
    unfold bufferPrecommit
    split
    · have hquiet : Step env e .quiet _ := .quiet e.leaderCache e.futurePrevotes
        (e.futurePrecommits.entryPush v.height v)
        (fun _ h => h) (fun _ h => mem_getD_entryPush_ne hlt h)
      exact .single (hquiet.noSkip nofun) (.inl trivial)
    · exact .refl e
  rename_i hlt
  split
  · exact .refl e
  rename_i hgt
  split
  · exact .refl e
  rename_i hsig
  have hheight : v.height = e.height := height_eq_of_not_lt hlt hgt
  split
  · exact .refl e
  rename_i power hpower
  split
  · unfold precommitEquivocation
    split
    · split
      · exact Produces.single (Step.noSkip (.emit (.EquivocationDetected ..) trivial) nofun)
          (.inl trivial)
      · exact .refl e
    · exact .refl e
  rename_i hnew
  split
  · exact .refl e
  · rename_i hstep
    have hrecv : Step env e (.recvPrecommit v) _ :=
      .recvPrecommit v power hheight (by simpa using hsig) hpower hnew hstep
    exact .head (hrecv.noSkip nofun) (.inr rfl)
      (.mono (fun _ => .inl) (precommitRules_does hQ v.round hstep))

end

/-! ## What no move changes -/

/-- The engine's identity, its height, the power it counts with, and — growing never — the votes
    buffered for its height. -/
structure Frame (e e' : ConsensusEngine) : Prop where
  keypair : e'.keypair = e.keypair
  validatorPubkey : e'.validatorPubkey = e.validatorPubkey
  signingChainId : e'.signingChainId = e.signingChainId
  minValidatorStake : e'.minValidatorStake = e.minValidatorStake
  height : e'.height = e.height
  powerSnapshot : e'.powerSnapshot = e.powerSnapshot
  futurePrevotes : ∀ v ∈ (e'.futurePrevotes.get e.height).getD [],
    v ∈ (e.futurePrevotes.get e.height).getD []
  futurePrecommits : ∀ v ∈ (e'.futurePrecommits.get e.height).getD [],
    v ∈ (e.futurePrecommits.get e.height).getD []

section
omit [Crypto]

theorem Frame.refl (e : ConsensusEngine) : Frame e e :=
  ⟨rfl, rfl, rfl, rfl, rfl, rfl, fun _ h => h, fun _ h => h⟩

theorem Frame.trans (h : Frame e e₁) (h' : Frame e₁ e₂) : Frame e e₂ where
  keypair := h'.keypair.trans h.keypair
  validatorPubkey := h'.validatorPubkey.trans h.validatorPubkey
  signingChainId := h'.signingChainId.trans h.signingChainId
  minValidatorStake := h'.minValidatorStake.trans h.minValidatorStake
  height := h'.height.trans h.height
  powerSnapshot := h'.powerSnapshot.trans h.powerSnapshot
  futurePrevotes := by
    intro v hv
    apply h.futurePrevotes v
    have := h'.futurePrevotes v
    rw [h.height] at this
    exact this hv
  futurePrecommits := by
    intro v hv
    apply h.futurePrecommits v
    have := h'.futurePrecommits v
    rw [h.height] at this
    exact this hv

end

variable {e' : ConsensusEngine}

theorem Step.frame (h : Step env e ev e') : Frame e e' := by
  cases h with
  | quiet cache fpv fpc hpv hpc => exact ⟨rfl, rfl, rfl, rfl, rfl, rfl, hpv, hpc⟩
  | _ => exact ⟨rfl, rfl, rfl, rfl, rfl, rfl, fun _ h => h, fun _ h => h⟩

theorem Trace.frame (h : Trace (Step env) e evs e') : Frame e e' := by
  induction h with
  | nil s => exact .refl s
  | cons hs _ ih => exact hs.frame.trans ih

theorem Does.frame (h : Does env allow e as e') : Frame e e' := by
  obtain ⟨evs, htr, -, -⟩ := h
  exact Trace.frame htr

/-! ## Replay and timeouts -/

/-- `P` holds of each vote at the state in which the replay hands it in. -/
def Replays {V : Type} (handle : ConsensusEngine → V → ConsensusAction × ConsensusEngine)
    (P : ConsensusEngine → V → Prop) : List V → ConsensusEngine → Prop
  | [], _ => True
  | v :: votes, e => P e v ∧ Replays handle P votes (handle e v).2

omit [Crypto] in
theorem Replays.imp (himp : ∀ e v, P e v → P' e v) :
    ∀ {e : ConsensusEngine}, Replays handle P votes e → Replays handle P' votes e := by
  induction votes with
  | nil => intro e _; trivial
  | cons v votes ih => intro e h; exact ⟨himp e v h.1, ih h.2⟩

variable {P : ConsensusEngine → V → Prop}

omit [Crypto] in
theorem Replays.of_forall (h : ∀ e v, P e v) :
    ∀ {e : ConsensusEngine}, Replays handle P votes e := by
  induction votes with
  | nil => intro e; trivial
  | cons v votes ih => intro e; exact ⟨h e v, ih⟩

theorem replay_does (votes : List V) : ∀ e : ConsensusEngine,
      (∀ e v, v ∈ votes → P e v → SkipDoes Q env allow e (handle e v).1.flatten (handle e v).2) →
      Replays handle P votes e →
      SkipDoes Q env allow e (flattenAll (replay handle votes e).1) (replay handle votes e).2 := by
  induction votes with
  | nil => intro e _ _; exact .refl e
  | cons v votes ih =>
    intro e hhandle hP
    have hfirst := hhandle e v mem_cons_self hP.1
    have hrest := ih (handle e v).2 (fun e u hu => hhandle e u (mem_cons_of_mem _ hu)) hP.2
    unfold replay
    dsimp only
    split
    · rename_i hnone
      rw [flatten_of_isNone hnone] at hfirst
      exact hfirst.trans hrest
    · exact hfirst.trans hrest

/-- What a drain may take in: the votes buffered for the current height. -/
def Buffered (e : ConsensusEngine) (ev : Event) : Prop :=
  (∃ v ∈ (e.futurePrevotes.get e.height).getD [], ev = .recvPrevote v)
    ∨ ∃ v ∈ (e.futurePrecommits.get e.height).getD [], ev = .recvPrecommit v

/-- `P` holds of each buffered prevote at the state in which a drain hands it in. -/
def DrainsPrevotes (e : ConsensusEngine) (env : Env)
    (P : ConsensusEngine → Prevote → Prop) : Prop :=
  match e.futurePrevotes.get e.height with
  | none => True
  | some votes => Replays (fun e v => e.onPrevote env v) P (byRoundDesc Prevote.round votes)
      { e with futurePrevotes := e.futurePrevotes.remove e.height }

theorem drainPrevotes_does (hdrain : e.DrainsPrevotes env
      (fun e v => ∀ e', (e'.step = .Commit → e.LeavesCommit env v) → Q e')) :
    SkipDoes Q env (fun ev => ev.Internal ∨ e.Buffered ev) e
      (flattenAll (e.drainPrevotes env).1) (e.drainPrevotes env).2 := by
  unfold drainPrevotes
  unfold DrainsPrevotes at hdrain
  split
  · exact .refl e
  · rename_i votes hvotes
    rw [hvotes] at hdrain
    have htake : Step env e .quiet _ := .quiet e.leaderCache (e.futurePrevotes.remove e.height)
      e.futurePrecommits (by intro v hv; simp [get_remove] at hv) (fun _ h => h)
    refine .head (htake.noSkip nofun) (.inl trivial) (replay_does _ _ ?_ hdrain)
    intro e₁ v hv hQ
    have hmem : v ∈ votes := (perm_insertionSort _ votes).mem_iff.mp hv
    refine .mono ?_ (onPrevote_does v hQ)
    rintro ev (hint | rfl)
    · exact .inl hint
    · exact .inr (.inl ⟨v, by rw [hvotes]; exact hmem, rfl⟩)

theorem drainPrecommits_does (hQ : ∀ e', e'.step ≠ .Commit → Q e') :
    SkipDoes Q env (fun ev => ev.Internal ∨ e.Buffered ev) e
      (flattenAll (e.drainPrecommits env e.height).1)
      (e.drainPrecommits env e.height).2 := by
  unfold drainPrecommits
  split
  · exact .refl e
  · rename_i votes hvotes
    have htake : Step env e .quiet _ := .quiet e.leaderCache e.futurePrevotes
      (e.futurePrecommits.remove e.height) (fun _ h => h)
      (by intro v hv; simp [get_remove] at hv)
    refine .head (htake.noSkip nofun) (.inl trivial)
      (replay_does _ _ ?_ (.of_forall fun _ _ => trivial))
    intro e₁ v hv _
    have hmem : v ∈ votes := (perm_insertionSort _ votes).mem_iff.mp hv
    refine .mono ?_ (onPrecommit_does hQ v)
    rintro ev (hint | rfl)
    · exact .inl hint
    · exact .inr (.inr ⟨v, by rw [hvotes]; exact hmem, rfl⟩)

theorem drainFutureMessages_does (hQ : ∀ e', e'.step ≠ .Commit → Q e')
    (hdrain : e.DrainsPrevotes env
      (fun e v => ∀ e', (e'.step = .Commit → e.LeavesCommit env v) → Q e')) :
    SkipDoes Q env (fun ev => ev.Internal ∨ e.Buffered ev) e
      (e.drainFutureMessages env).1.flatten (e.drainFutureMessages env).2 := by
  have hpv := drainPrevotes_does hdrain
  have hframe := Does.frame hpv.does
  unfold drainFutureMessages
  rw [flatten_ofList, flattenAll_append]
  refine hpv.trans ?_
  have hpc : SkipDoes Q env _ (e.drainPrevotes env).2 _ _ := drainPrecommits_does hQ
  rw [hframe.height] at hpc
  -- the replayed prevotes added nothing to this height's buffers
  refine .mono ?_ hpc
  grind [Frame.height, Frame.futurePrevotes, Frame.futurePrecommits, Buffered]

theorem onTimeout_does (step : RoundStep) (round : UInt32) :
    Does env Event.Local e (e.onTimeout env step round).1.flatten
      (e.onTimeout env step round).2 := by
  unfold onTimeout
  split
  · exact .refl e
  · cases step with
    | Propose =>
      dsimp only
      split
      · rename_i hstep
        exact doPrevote_does hstep (fun h hh => nomatch hh)
      · exact .refl e
    | Prevote =>
      dsimp only
      split
      · rename_i hstep
        rw [transitionTo_precommit hstep]
        exact Produces.head (Step.toPrecommit hstep) trivial
          (doPrecommit_does rfl (fun h hh => nomatch hh))
      · exact .refl e
    | Precommit =>
      dsimp only
      split
      · rename_i hstep
        exact .single (Step.advance (by rw [hstep]; exact RoundStep.noConfusion) (.inr hstep)) trivial
      · exact .refl e
    | Commit => exact .refl e

theorem BlocksWf.put {m : HashMap Hash Block} (hm : ∀ h b, m.get h = some b → b.hash = h)
    (block : Block) : ∀ h b, (m.put block.hash block).get h = some b → b.hash = h := by
  grind

/-- Every move keeps blocks under their own hash. -/
theorem Step.blocksWf (h : Step env e ev e') (hwf : e.BlocksWf) : e'.BlocksWf := by
  cases h with
  | store p => exact .put hwf p.block
  | propose fresh block vr => exact .put hwf block
  | _ => exact hwf

theorem Does.blocksWf (h : Does env allow e as e') (hwf : e.BlocksWf) : e'.BlocksWf := by
  obtain ⟨evs, htr, -, hallow⟩ := h
  exact Trace.invariant (fun _ _ _ hs _ => hs.blocksWf) htr hallow hwf

/-! ## Restoring own votes -/

section
variable (e : ConsensusEngine) (h : UInt64) (r : UInt32) (bh : Option Hash) (sig : PqSignature)
include h

/-- A recovered prevote is refused or already there, or it is put into the tally. -/
theorem restoreSignedPrevote_cases : (e.restoreSignedPrevote h r bh sig).2 = e
      ∨ h = e.height ∧ e.prevotes.signedRounds.get r = none
        ∧ (e.restoreSignedPrevote h r bh sig).2 = { e with
            prevotes := restoreVote e.prevotes e.powerSnapshot r e.validatorPubkey bh
              ⟨h, r, bh, e.validatorPubkey, sig⟩ } := by
  grind [restoreSignedPrevote]

/-- A recovered precommit likewise, with its signature, and perhaps the lock it implies. -/
theorem restoreSignedPrecommit_cases (ts : UInt64) : (e.restoreSignedPrecommit h r bh sig ts).2 = e
      ∨ h = e.height ∧ e.precommits.signedRounds.get r = none
        ∧ Crypto.verify e.validatorPubkey (Precommit.signingBytesForChainId e.signingChainId h r bh
            ts) sig = true
        ∧ ∃ lockedRound lockedValue, (e.restoreSignedPrecommit h r bh sig ts).2 = { e with
            precommits := restoreVote e.precommits e.powerSnapshot r e.validatorPubkey bh
              ⟨h, r, bh, e.validatorPubkey, sig, ts⟩
            precommitSigs := e.precommitSigs.put (r, e.validatorPubkey) (sig, ts)
            lockedRound := lockedRound
            lockedValue := lockedValue } := by
  unfold restoreSignedPrecommit
  split
  · exact .inl rfl
  grind

end
end
end ConsensusEngine

/-! ## The calls the validator loop makes -/

/-- The methods that drive a height. -/
inductive Op where
  | createProposal (freshBlock : Block)
  | onProposal (proposal : Proposal)
  | onPrevote (prevote : Prevote)
  | onPrecommit (precommit : Precommit)
  | onTimeout (step : RoundStep) (timeoutRound : UInt32)
  | drainFutureMessages
  | processCurrentRoundProposalIfPresent

namespace Op

variable [Crypto]

/-- What a call returns, and the state it leaves. -/
def run (env : Env) (e : ConsensusEngine) : Op → ConsensusAction × ConsensusEngine
  | .createProposal b => e.createProposal env b
  | .onProposal p => e.onProposal env p
  | .onPrevote v => e.onPrevote env v
  | .onPrecommit v => e.onPrecommit env v
  | .onTimeout s r => e.onTimeout env s r
  | .drainFutureMessages => e.drainFutureMessages env
  | .processCurrentRoundProposalIfPresent => e.processCurrentRoundProposalIfPresent env

/-- The inputs a call can take in. -/
def Takes (op : Op) (e : ConsensusEngine) (ev : Event) : Prop :=
  match op with
  | .createProposal fresh => ∃ block vr, e.proposalBlock fresh = some (block, vr)
      ∧ ev = .propose (e.ownProposal block vr)
  | .onProposal p => ev = .store p
  | .onPrevote v => ev = .recvPrevote v
  | .onPrecommit v => ev = .recvPrecommit v
  | .drainFutureMessages => e.Buffered ev
  | .onTimeout .. | .processCurrentRoundProposalIfPresent => False

/-- A vote that comes in is the one the call was given, or one that it drains. -/
theorem Takes.vote {op : Op} (h : ev.Internal ∨ op.Takes e ev) : match ev with
    | .recvPrevote v => op = .onPrevote v
      ∨ op = .drainFutureMessages ∧ v ∈ (e.futurePrevotes.get e.height).getD []
    | .recvPrecommit v => op = .onPrecommit v
      ∨ op = .drainFutureMessages ∧ v ∈ (e.futurePrecommits.get e.height).getD []
    | _ => True := by
  rcases h with hint | htakes
  · cases ev with
    | recvPrevote v => exact absurd hint id
    | recvPrecommit v => exact absurd hint id
    | _ => trivial
  · cases op with
    | createProposal fresh => obtain ⟨block, vr, -, rfl⟩ := htakes; trivial
    | onProposal p => obtain rfl := htakes; trivial
    | onPrevote v => obtain rfl := htakes; exact .inl rfl
    | onPrecommit v => obtain rfl := htakes; exact .inl rfl
    | drainFutureMessages =>
      rcases htakes with ⟨v, hv, rfl⟩ | ⟨v, hv, rfl⟩
      · exact .inr ⟨rfl, hv⟩
      · exact .inr ⟨rfl, hv⟩
    | onTimeout s r => exact absurd htakes id
    | processCurrentRoundProposalIfPresent => exact absurd htakes id

/-- `P` holds of each prevote the call hands in, at the state in which it does. -/
def Prevotes (op : Op) (env : Env) (e : ConsensusEngine) (P : ConsensusEngine → Prevote → Prop) :
    Prop :=
  match op with
  | .onPrevote v => P e v
  | .drainFutureMessages => e.DrainsPrevotes env P
  | _ => True

theorem Prevotes.imp {op : Op} (himp : ∀ e v, P e v → P' e v)
    (h : op.Prevotes env e P) : op.Prevotes env e P' := by
  cases op with
  | onPrevote v => exact himp e v h
  | drainFutureMessages =>
    simp only [Prevotes, DrainsPrevotes] at h ⊢
    split
    · trivial
    · rename_i hvotes
      rw [hvotes] at h
      exact h.imp himp
  | _ => trivial

theorem Prevotes.of_forall {op : Op} (h : ∀ e v, P e v) : op.Prevotes env e P := by
  cases op with
  | onPrevote v => exact h e v
  | drainFutureMessages =>
    simp only [Prevotes, DrainsPrevotes]
    split
    · trivial
    · exact .of_forall h
  | _ => trivial

/-- **Every call is a chain of moves**, and returns what they emit; rounds are skipped only where
    `Q` allows it, if `Q` allows what the prevotes it hands in ask for. -/
theorem run_skipDoes (op : Op) (env : Env) {Q : ConsensusEngine → Prop}
    (hQ : ∀ e', e'.step ≠ .Commit → Q e')
    (hpv : op.Prevotes env e (fun e v => ∀ e', (e'.step = .Commit → e.LeavesCommit env v) → Q e'))
    (hwf : e.BlocksWf) :
    SkipDoes Q env (fun ev => ev.Internal ∨ op.Takes e ev) e
      (op.run env e).1.flatten (op.run env e).2 := by
  cases op with
  | createProposal fresh =>
    refine Produces.mono (fun _ => Or.imp_left Event.Local.internal)
      (Does.noSkip (createProposal_does hwf fresh) ?_)
    rintro d (hd | ⟨block, vr, -, hd⟩)
    · exact hd
    · exact nomatch hd
  | onProposal p =>
    refine Produces.mono (fun _ => Or.imp_left Event.Local.internal)
      (Does.noSkip (onProposal_does p) ?_)
    rintro d (hd | hd)
    · exact hd
    · exact nomatch hd
  | onPrevote v => exact onPrevote_does v hpv
  | onPrecommit v => exact onPrecommit_does hQ v
  | onTimeout s r =>
    exact .mono (fun _ => .inl) (onTimeout_does s r).local
  | drainFutureMessages => exact drainFutureMessages_does hQ hpv
  | processCurrentRoundProposalIfPresent =>
    exact .mono (fun _ => .inl) processCurrentRoundProposalIfPresent_does.local

theorem run_does (op : Op) (env : Env) (hwf : e.BlocksWf) :
    Does env (fun ev => ev.Internal ∨ op.Takes e ev) e (op.run env e).1.flatten (op.run env e).2 :=
  (op.run_skipDoes env (fun _ _ => trivial) (.of_forall fun _ _ _ _ => trivial) hwf).does

end Op

/-- Every public method that can change an engine: the calls of a height, the start of one, and
    crash recovery. -/
inductive Call where
  | op (env : Env) (o : Op)
  | startHeight (height : UInt64)
  | rebuildPowerSnapshot (vs : ValidatorSet) (pool : StakePool)
  | isProposer (env : Env) (parentHash : Hash)
  | resumeAfterRecoveredRound (round : UInt32)
  | resumeAtRoundIfHigher (round : UInt32)
  | restoreLock (height : UInt64) (round : UInt32) (blockHash : Hash)
  | restoreProposalBlock (height : UInt64) (round : UInt32) (block : Block)
  | releaseUnrecoverableLockWithoutValue (height : UInt64) (blockHash : Hash)
  | restoreSignedPrevote (height : UInt64) (round : UInt32) (blockHash : Option Hash)
      (signature : PqSignature)
  | restoreSignedPrecommit (height : UInt64) (round : UInt32) (blockHash : Option Hash)
      (signature : PqSignature) (timestamp : UInt64)

namespace Call

variable [Crypto]

/-- The state a call leaves. -/
def next (e : ConsensusEngine) : Call → ConsensusEngine
  | .op env o => (o.run env e).2
  | .startHeight h => e.startHeight h
  | .rebuildPowerSnapshot vs pool => e.rebuildPowerSnapshot vs pool
  | .isProposer env parent => (e.isProposer env parent).2
  | .resumeAfterRecoveredRound r => e.resumeAfterRecoveredRound r
  | .resumeAtRoundIfHigher r => e.resumeAtRoundIfHigher r
  | .restoreLock h r bh => e.restoreLock h r bh
  | .restoreProposalBlock h r b => e.restoreProposalBlock h r b
  | .releaseUnrecoverableLockWithoutValue h bh => (e.releaseUnrecoverableLockWithoutValue h bh).2
  | .restoreSignedPrevote h r bh sig => (e.restoreSignedPrevote h r bh sig).2
  | .restoreSignedPrecommit h r bh sig ts => (e.restoreSignedPrecommit h r bh sig ts).2

/-- The leader lookup and the recovery methods that restore no vote. -/
def Minor : Call → Prop
  | .isProposer .. | .resumeAfterRecoveredRound _ | .resumeAtRoundIfHigher _ | .restoreLock ..
  | .restoreProposalBlock .. | .releaseUnrecoverableLockWithoutValue .. => True
  | _ => False

variable {c : Call}

/-- They only touch the round, the lock, the valid value, the blocks and the leader cache. -/
theorem next_minor (hc : c.Minor) (e : ConsensusEngine) :
    ∃ round step lockedRound lockedValue validRound validValue blocks cache, c.next e = { e with
        round := round, step := step, lockedRound := lockedRound, lockedValue := lockedValue,
        validRound := validRound, validValue := validValue, proposalBlocks := blocks,
        leaderCache := cache } := by
  have hresume : ∀ r, ∃ round step, e.resumeAtRoundIfHigher r
      = { e with round := round, step := step } := by
    intro r
    unfold ConsensusEngine.resumeAtRoundIfHigher
    split
    · exact ⟨_, _, rfl⟩
    · exact ⟨_, _, rfl⟩
  cases c with
  | isProposer env parent =>
    obtain ⟨cache, hcache, -⟩ := expectedLeaderCached_eq e env
      (leaderSelectionSlot e.height e.round) parent
    exact ⟨_, _, _, _, _, _, _, cache, hcache⟩
  | resumeAfterRecoveredRound r =>
    obtain ⟨round, step, heq⟩ := hresume (if r = UInt32.ofNat (2 ^ 32 - 1) then r else r + 1)
    exact ⟨round, step, _, _, _, _, _, _, heq⟩
  | resumeAtRoundIfHigher r =>
    obtain ⟨round, step, heq⟩ := hresume r
    exact ⟨round, step, _, _, _, _, _, _, heq⟩
  | restoreLock h r bh =>
    simp only [next, ConsensusEngine.restoreLock]
    split
    · exact ⟨_, _, _, _, _, _, _, _, rfl⟩
    · exact ⟨_, _, _, _, _, _, _, _, rfl⟩
  | restoreProposalBlock h r b =>
    simp only [next, ConsensusEngine.restoreProposalBlock]
    split
    · exact ⟨_, _, _, _, _, _, _, _, rfl⟩
    · split
      · exact ⟨_, _, _, _, _, _, _, _, rfl⟩
      · exact ⟨_, _, _, _, _, _, _, _, rfl⟩
  | releaseUnrecoverableLockWithoutValue h bh =>
    simp only [next, ConsensusEngine.releaseUnrecoverableLockWithoutValue]
    split
    · exact ⟨_, _, _, _, _, _, _, _, rfl⟩
    · split
      · exact ⟨_, _, _, _, _, _, _, _, rfl⟩
      · split
        · exact ⟨_, _, _, _, _, _, _, _, rfl⟩
        · exact ⟨_, _, _, _, _, _, _, _, rfl⟩
  | _ => exact absurd hc id

/-- The two calls of startup that move the round. -/
def Resumes : Call → Prop
  | .resumeAfterRecoveredRound _ | .resumeAtRoundIfHigher _ => True
  | _ => False

/-- The call restores the block `b`. -/
def Restores (c : Call) (b : Block) : Prop := ∃ h r, c = .restoreProposalBlock h r b

/-- Neither the start of a height nor one of the calls that drive it. -/
def Aside : Call → Prop
  | .op _ _ | .startHeight _ => False
  | _ => True

/-- What such a call leaves alone. -/
structure Keeps (c : Call) (e e' : ConsensusEngine) : Prop where
  step : c.Resumes ∨ e'.step = e.step
  lastCommitted : e'.lastCommittedBlockTimestamp = e.lastCommittedBlockTimestamp
  validValue : ∀ b, e'.validValue = some b → e.validValue = some b ∨ c.Restores b
  proposalBlocks : ∀ k b, e'.proposalBlocks.get k = some b →
    e.proposalBlocks.get k = some b ∨ k = b.hash ∧ c.Restores b

/-- Calls beside the operations do. -/
theorem keeps_next (hc : c.Aside) (e : ConsensusEngine) : c.Keeps e (c.next e) := by
  have hsame : ∀ e' : ConsensusEngine, (c.Resumes ∨ e'.step = e.step) →
      e'.lastCommittedBlockTimestamp = e.lastCommittedBlockTimestamp →
      e'.validValue = e.validValue → e'.proposalBlocks = e.proposalBlocks → c.Keeps e e' := by
    intro e' hstep hlast hvalid hblocks
    refine ⟨hstep, hlast, fun b hb => .inl (hvalid ▸ hb), fun k b hb => .inl (hblocks ▸ hb)⟩
  have hresume : c.Resumes → ∀ r, c.Keeps e (e.resumeAtRoundIfHigher r) := by
    intro hres r
    unfold ConsensusEngine.resumeAtRoundIfHigher
    split
    · exact hsame _ (.inl hres) rfl rfl rfl
    · exact hsame _ (.inl hres) rfl rfl rfl
  cases c with
  | op env o => exact absurd hc id
  | startHeight h => exact absurd hc id
  | rebuildPowerSnapshot vs pool => exact hsame _ (.inr rfl) rfl rfl rfl
  | isProposer env parent =>
    obtain ⟨cache, hcache, -⟩ := expectedLeaderCached_eq e env
      (leaderSelectionSlot e.height e.round) parent
    rw [show next e (.isProposer env parent) = _ from hcache]
    exact hsame _ (.inr rfl) rfl rfl rfl
  | resumeAfterRecoveredRound r => exact hresume trivial _
  | resumeAtRoundIfHigher r => exact hresume trivial r
  | restoreLock h r bh =>
    simp only [next, ConsensusEngine.restoreLock]
    split
    · exact hsame _ (.inr rfl) rfl rfl rfl
    · exact hsame _ (.inr rfl) rfl rfl rfl
  | restoreProposalBlock h r b =>
    have hrestores : (Call.restoreProposalBlock h r b).Restores b := ⟨h, r, rfl⟩
    have hput : ∀ k b', (e.proposalBlocks.put b.hash b).get k = some b' →
        e.proposalBlocks.get k = some b'
          ∨ k = b'.hash ∧ (Call.restoreProposalBlock h r b).Restores b' := by
      exact forall_put (fun _ _ hget => .inl hget) (.inr ⟨rfl, hrestores⟩)
    simp only [next, ConsensusEngine.restoreProposalBlock]
    split
    · exact hsame _ (.inr rfl) rfl rfl rfl
    · split
      · refine ⟨.inr rfl, rfl, ?_, hput⟩
        intro b' hb
        cases hb
        exact .inr hrestores
      · exact ⟨.inr rfl, rfl, fun b' hb => .inl hb, hput⟩
  | releaseUnrecoverableLockWithoutValue h bh =>
    simp only [next, ConsensusEngine.releaseUnrecoverableLockWithoutValue]
    split
    · exact hsame _ (.inr rfl) rfl rfl rfl
    · split
      · exact hsame _ (.inr rfl) rfl rfl rfl
      · split
        · exact ⟨.inr rfl, rfl, nofun, fun k b hb => .inl hb⟩
        · exact hsame _ (.inr rfl) rfl rfl rfl
  | restoreSignedPrevote h r bh sig =>
    rcases restoreSignedPrevote_cases e h r bh sig with heq | ⟨-, -, heq⟩
    · rw [show next e (.restoreSignedPrevote h r bh sig) = _ from heq]
      exact hsame _ (.inr rfl) rfl rfl rfl
    · rw [show next e (.restoreSignedPrevote h r bh sig) = _ from heq]
      exact hsame _ (.inr rfl) rfl rfl rfl
  | restoreSignedPrecommit h r bh sig ts =>
    rcases restoreSignedPrecommit_cases e h r bh sig ts with
      heq | ⟨-, -, -, lr, lv, heq⟩
    · rw [show next e (.restoreSignedPrecommit h r bh sig ts) = _ from heq]
      exact hsame _ (.inr rfl) rfl rfl rfl
    · rw [show next e (.restoreSignedPrecommit h r bh sig ts) = _ from heq]
      exact hsame _ (.inr rfl) rfl rfl rfl

/-- The states an engine can reach from its construction by calls that meet `ok`. -/
inductive Reached (ok : ConsensusEngine → Call → Prop) : ConsensusEngine → Prop
  | new (kp : Keypair) (pk : Pubkey) (chainId : ChainId) (minStake : UInt64)
      (timeouts : ConsensusTimeoutConfig) :
      Reached ok (ConsensusEngine.new kp pk chainId minStake timeouts)
  | call {e : ConsensusEngine} (c : Call) : Reached ok e → ok e c → Reached ok (c.next e)

/-- The actions a call returns. -/
def emits (e : ConsensusEngine) : Call → List ConsensusAction
  | .op env o => (o.run env e).1.flatten
  | _ => []

theorem emits_of_aside (hc : c.Aside) (e : ConsensusEngine) : c.emits e = [] := by
  cases c with
  | op env o => exact absurd hc id
  | _ => rfl

/-- `Runs ok e₀ e log`: calls that meet `ok` lead from `e₀` to `e`, and `log` is what they
    returned. -/
inductive Runs (ok : ConsensusEngine → Call → Prop) (e₀ : ConsensusEngine) :
    ConsensusEngine → List ConsensusAction → Prop
  | start : Runs ok e₀ e₀ []
  | call {e : ConsensusEngine} {log : List ConsensusAction} (c : Call) : Runs ok e₀ e log → ok e c →
      Runs ok e₀ (c.next e) (log ++ c.emits e)

end Call
end Lichen
