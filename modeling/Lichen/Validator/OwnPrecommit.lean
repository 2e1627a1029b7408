/-
  The engine's own precommit.

  `do_precommit` counts the precommit it signs and commits when that completes the quorum.  Whether
  it can happen in a call shows in the state before the call and in what the call hands in: the
  engine has the block and has not signed a precommit at the round, there is a polka for the block,
  if need be with its own prevote, and the precommits for it, its own one added, are a quorum
  (`OwnCompletes`).  Where that is not so, the only commits are those of `on_precommit`, which
  record the block's timestamp (`Op.run_records`).

  The catch-up loop votes nil in several rounds before it comes to a block; nil votes change
  nothing that `OwnCompletes` looks at (`MoreNil`).
-/
import Lichen.Validator.Events

open Base
namespace Lichen
open ConsensusEngine ConsensusAction
namespace VoteTally
variable {V : Type} {t t' t'' : VoteTally V}

/-- The tally with one more vote. -/
def withVote (t : VoteTally V) (round : UInt32) (validator : Pubkey) (blockHash : Option Hash)
    (votingPower : Option UInt64) : VoteTally V :=
  match votingPower with
  | some p => (t.push round validator blockHash).addPower round blockHash p
  | none => t.push round validator blockHash

/-- `t'` has the votes of `t` for blocks, and `t` has signed no round that `t'` has not. -/
structure MoreNil (t t' : VoteTally V) : Prop where
  votes : ∀ r bh, t'.votes.get (r, some bh) = t.votes.get (r, some bh)
  power : ∀ r bh, t'.power.get (r, some bh) = t.power.get (r, some bh)
  signed : ∀ r, t'.signedRounds.get r = none → t.signedRounds.get r = none

theorem MoreNil.refl (t : VoteTally V) : MoreNil t t := ⟨fun _ _ => rfl, fun _ _ => rfl, fun _ => id⟩

theorem MoreNil.trans (h : MoreNil t t') (h' : MoreNil t' t'') : MoreNil t t'' :=
  ⟨fun r bh => (h'.votes r bh).trans (h.votes r bh), fun r bh => (h'.power r bh).trans (h.power r bh),
    fun r hr => h.signed r (h'.signed r hr)⟩

/-- Signing nil. -/
theorem moreNil_own (t : VoteTally V) (round : UInt32) (validator : Pubkey) (msg : V)
    (p : Option UInt64) : MoreNil t ((t.noteSigned round none).record round validator none msg p) := by
  have hne : ∀ r (bh : Hash), (r, some bh) ≠ (round, (none : Option Hash)) :=
    fun r bh heq => Option.some_ne_none bh (Prod.mk.inj heq).2
  have hsigned : ∀ r, (t.signedRounds.put round none).get r = none → t.signedRounds.get r = none := by
    intro r hr
    by_cases heq : r = round
    · rw [heq, HashMap.get_put_self] at hr
      exact absurd hr (Option.some_ne_none _)
    · rwa [HashMap.get_put_ne _ _ heq] at hr
  cases p with
  | none => exact ⟨fun r bh => HashMap.get_put_ne _ _ (hne r bh), fun _ _ => rfl, hsigned⟩
  | some p =>
    exact ⟨fun r bh => HashMap.get_put_ne _ _ (hne r bh),
      fun r bh => HashMap.get_put_ne _ _ (hne r bh), hsigned⟩

end VoteTally

namespace ConsensusEngine
section
variable {env : Env} {e e' : ConsensusEngine}

/-- The votes for a block, the engine's own one added, are a quorum. -/
def OwnQuorum {V : Type} (e : ConsensusEngine) (env : Env) (t : VoteTally V) (r : UInt32)
    (bh : Hash) : Prop :=
  e.Quorum env (t.withVote r e.validatorPubkey (some bh) (e.eligibleStake env e.validatorPubkey))
    (r, some bh)

/-- The engine has not signed a precommit at `r` and has the block; one for it would complete a
    quorum. -/
structure OwnPrecommits (e : ConsensusEngine) (env : Env) (r : UInt32) (bh : Hash) : Prop where
  unsigned : e.precommits.signedRounds.get r = none
  block : ∃ block, e.proposalBlocks.get bh = some block
  quorum : e.OwnQuorum env e.precommits r bh

/-- **The engine's own precommit completes a quorum**: it would, and there is a polka for the block
    that makes the engine sign it, if need be with its own prevote. -/
def OwnCompletes (e : ConsensusEngine) (env : Env) : Prop :=
  ∃ r bh, e.OwnPrecommits env r bh ∧ (e.Quorum env e.prevotes (r, some bh)
    ∨ e.prevotes.signedRounds.get r = none ∧ e.OwnQuorum env e.prevotes r bh)

/-- `e'` is `e` at some round and step, with other votes and locks. -/
def Framed (e e' : ConsensusEngine) : Prop :=
  ∃ prevotes precommits precommitSigs step round advances lockedRound lockedValue validRound
    validValue leaderCache, e' = { e with
      prevotes, precommits, precommitSigs, step, round, advances, lockedRound, lockedValue,
      validRound, validValue, leaderCache }

theorem Framed.refl (e : ConsensusEngine) : Framed e e := ⟨_, _, _, _, _, _, _, _, _, _, _, rfl⟩

theorem Framed.trans (h : Framed e e') (h' : Framed e' e'') : Framed e e'' := by
  obtain ⟨_, _, _, _, _, _, _, _, _, _, _, rfl⟩ := h
  obtain ⟨_, _, _, _, _, _, _, _, _, _, _, rfl⟩ := h'
  exact ⟨_, _, _, _, _, _, _, _, _, _, _, rfl⟩

/-- In `e'` the engine may have cast more nil votes than in `e`. -/
structure MoreNil (e e' : ConsensusEngine) : Prop where
  frame : Framed e e'
  prevotes : e.prevotes.MoreNil e'.prevotes
  precommits : e.precommits.MoreNil e'.precommits

theorem MoreNil.refl (e : ConsensusEngine) : MoreNil e e := ⟨.refl e, .refl _, .refl _⟩

theorem MoreNil.trans (h : MoreNil e e') (h' : MoreNil e' e'') : MoreNil e e'' :=
  ⟨h.frame.trans h'.frame, h.prevotes.trans h'.prevotes, h.precommits.trans h'.precommits⟩

theorem quorum_moreNil {V : Type} {t t' : VoteTally V} (h : t.MoreNil t')
    (hq : e.Quorum env t' (r, some bh)) : e.Quorum env t (r, some bh) := by
  unfold Quorum bucketPower VoteTally.bucket at hq ⊢
  rwa [h.votes, h.power] at hq

theorem ownQuorum_moreNil {V : Type} {t t' : VoteTally V} (h : t.MoreNil t')
    (hq : e.OwnQuorum env t' r bh) : e.OwnQuorum env t r bh := by
  unfold OwnQuorum Quorum bucketPower VoteTally.bucket VoteTally.withVote at hq ⊢
  cases hp : e.eligibleStake env e.validatorPubkey with
  | none =>
    simp only [hp, VoteTally.push, HashMap.entryPush, h.votes, h.power,
      HashMap.get_put_self] at hq ⊢
    exact hq
  | some p =>
    simp only [hp, VoteTally.push, VoteTally.addPower, HashMap.entryPush, HashMap.entryAdd, h.votes,
      h.power, HashMap.get_put_self] at hq ⊢
    exact hq

theorem OwnPrecommits.of_framed (hframe : Framed e e')
    (hpc : e.precommits.MoreNil e'.precommits) (h : e'.OwnPrecommits env r bh) :
    e.OwnPrecommits env r bh := by
  obtain ⟨_, _, _, _, _, _, _, _, _, _, _, rfl⟩ := hframe
  exact ⟨hpc.signed r h.unsigned, h.block, ownQuorum_moreNil (e := e) hpc h.quorum⟩

theorem OwnCompletes.of_moreNil (h : MoreNil e e') (hown : e'.OwnCompletes env) :
    e.OwnCompletes env := by
  obtain ⟨hframe, hpv, hpc⟩ := h
  obtain ⟨r, bh, hprecommit, hpolka⟩ := hown
  refine ⟨r, bh, hprecommit.of_framed hframe hpc, ?_⟩
  obtain ⟨_, _, _, _, _, _, _, _, _, _, _, rfl⟩ := hframe
  rcases hpolka with hpolka | ⟨hsigned, hpolka⟩
  · exact .inl (quorum_moreNil (e := e) hpv hpolka)
  · exact .inr ⟨hpv.signed r hsigned, ownQuorum_moreNil (e := e) hpv hpolka⟩

theorem transitionTo_moreNil (e : ConsensusEngine) (step : RoundStep) :
    e.MoreNil (e.transitionTo step) := by
  unfold transitionTo
  split
  · exact ⟨⟨_, _, _, _, _, _, _, _, _, _, _, rfl⟩, .refl _, .refl _⟩
  · exact .refl e

theorem lockOn_round (e : ConsensusEngine) (bh : Hash) : (e.lockOn bh).round = e.round := by
  unfold lockOn transitionTo
  split
  · rfl
  · rfl

theorem lockOn_moreNil (e : ConsensusEngine) (bh : Hash) : e.MoreNil (e.lockOn bh) :=
  have hlock : e.MoreNil (e.setLock bh) :=
    ⟨⟨_, _, _, _, _, _, _, _, _, _, _, rfl⟩, .refl _, .refl _⟩
  hlock.trans (transitionTo_moreNil _ .Precommit)

theorem startRound_moreNil (e : ConsensusEngine) (round : UInt32) :
    e.MoreNil (e.startRound round).2 :=
  ⟨⟨_, _, _, _, _, _, _, _, _, _, _, rfl⟩, .refl _, .refl _⟩

end

section
variable {env : Env} {e : ConsensusEngine}

/-- No commit is among the actions. -/
def NoCommit (actions : List ConsensusAction) : Prop := ∀ a ∈ actions, a.commits = false

theorem noCommit_append {as bs : List ConsensusAction} :
    NoCommit (as ++ bs) ↔ NoCommit as ∧ NoCommit bs := by
  unfold NoCommit
  exact List.forall_mem_append

theorem noCommit_nil : NoCommit [] := fun _ ha => absurd ha List.not_mem_nil

theorem noCommit_single {a : ConsensusAction} (h : a.commits = false) : NoCommit [a] := by
  intro b hb
  rw [List.mem_singleton.mp hb]
  exact h

theorem noCommit_cons (h : NoCommit a.flatten) (has : NoCommit (flattenAll as)) :
    NoCommit (flattenAll (a :: as)) :=
  noCommit_append.mpr ⟨h, has⟩

/-- Counting the own vote. -/
theorem ownQuorum_record {V : Type} {t : VoteTally V} {msg : V}
    (h : e.Quorum env ((t.noteSigned r (some bh)).record r e.validatorPubkey (some bh) msg
      (e.eligibleStake env e.validatorPubkey)) (r, some bh)) : e.OwnQuorum env t r bh := by
  unfold OwnQuorum VoteTally.withVote
  unfold VoteTally.record at h
  cases hp : e.eligibleStake env e.validatorPubkey with
  | none =>
    rw [hp] at h
    exact h
  | some p =>
    rw [hp] at h
    exact h

variable [Crypto]

/-- A precommit for a block commits only if it completes the quorum. -/
theorem doPrecommit_noCommit (h : ¬ e.OwnPrecommits env e.round bh) :
    NoCommit (e.doPrecommit env (some bh)).1.flatten := by
  unfold doPrecommit
  split
  · exact noCommit_nil
  · rename_i hs
    dsimp only
    split
    · rename_i block hblock
      rw [Option.ite_none_right_eq_some] at hblock
      obtain ⟨hquorum, hblock⟩ := hblock
      exact absurd ⟨Option.not_isSome_iff_eq_none.mp hs, ⟨block, hblock⟩, ownQuorum_record hquorum⟩ h
    · exact noCommit_single rfl

theorem doPrecommit_some_step (hstep : e.step = .Precommit) :
    (e.doPrecommit env (some bh)).2.step ≠ .Prevote := by
  have hprecommit : e.step ≠ .Prevote := by
    rw [hstep]
    exact RoundStep.noConfusion
  unfold doPrecommit
  split
  · exact hprecommit
  · dsimp only
    split
    · unfold transitionTo
      split
      · exact RoundStep.noConfusion
      · exact hprecommit
    · exact hprecommit

/-- A nil precommit commits nothing, and adds a nil vote. -/
theorem doPrecommit_nil (e : ConsensusEngine) (env : Env) :
    NoCommit (e.doPrecommit env none).1.flatten ∧ e.MoreNil (e.doPrecommit env none).2 := by
  have hnil : e.MoreNil (e.recordOwnPrecommit env none) :=
    ⟨⟨_, _, _, _, _, _, _, _, _, _, _, rfl⟩, .refl _, VoteTally.moreNil_own _ _ _ _ _⟩
  unfold doPrecommit
  split
  · exact ⟨noCommit_nil, .refl e⟩
  · dsimp only
    split
    · refine ⟨?_, hnil.trans (startRound_moreNil _ _)⟩
      rw [flatten_pair]
      exact noCommit_append.mpr ⟨noCommit_single rfl, noCommit_single rfl⟩
    · exact ⟨noCommit_single rfl, hnil⟩

theorem doPrevote_nil (e : ConsensusEngine) (env : Env) :
    NoCommit (e.doPrevote env none).1.flatten ∧ e.MoreNil (e.doPrevote env none).2 := by
  unfold doPrevote
  split
  · exact ⟨noCommit_nil, .refl e⟩
  · have hnil : e.MoreNil ((e.transitionTo .Prevote).recordOwnPrevote env none) :=
      (transitionTo_moreNil e .Prevote).trans
        ⟨⟨_, _, _, _, _, _, _, _, _, _, _, rfl⟩, VoteTally.moreNil_own _ _ _ _ _, .refl _⟩
    dsimp only
    split
    · obtain ⟨hquiet, hmore⟩ := doPrecommit_nil
        (((e.transitionTo .Prevote).recordOwnPrevote env none).transitionTo .Precommit) env
      refine ⟨?_, (hnil.trans (transitionTo_moreNil _ .Precommit)).trans hmore⟩
      rw [flatten_pair]
      exact noCommit_append.mpr ⟨noCommit_single rfl, hquiet⟩
    · exact ⟨noCommit_single rfl, hnil⟩

variable (hown : ¬ e.OwnCompletes env)
include hown

/-- A polka that is there lets the engine precommit. -/
theorem lockOn_noCommit (hpolka : e.Quorum env e.prevotes (e.round, some bh)) :
    NoCommit ((e.lockOn bh).doPrecommit env (some bh)).1.flatten := by
  have hmore := lockOn_moreNil e bh
  refine doPrecommit_noCommit fun hprecommit => hown ⟨e.round, bh, ?_, .inl hpolka⟩
  rw [lockOn_round] at hprecommit
  exact hprecommit.of_framed hmore.frame hmore.precommits

/-- A prevote for a block may complete the polka, and the precommit on it the quorum. -/
theorem doPrevote_noCommit (bh : Hash) : NoCommit (e.doPrevote env (some bh)).1.flatten := by
  unfold doPrevote
  split
  · exact noCommit_nil
  · rename_i hs
    have hsigned := Option.not_isSome_iff_eq_none.mp hs
    obtain ⟨e₀, he₀, hmore, hround, hprevotes⟩ : ∃ e₀, e.transitionTo .Prevote = e₀ ∧ e.MoreNil e₀
        ∧ e₀.round = e.round ∧ e₀.prevotes = e.prevotes := by
      refine ⟨_, rfl, transitionTo_moreNil e .Prevote, ?_⟩
      unfold transitionTo
      split
      · exact ⟨rfl, rfl⟩
      · exact ⟨rfl, rfl⟩
    rw [← hround, ← hprevotes] at hsigned
    rw [he₀]
    dsimp only
    split
    · rename_i hpolka
      rw [flatten_pair]
      refine noCommit_append.mpr ⟨noCommit_single rfl, doPrecommit_noCommit fun hprecommit => ?_⟩
      have hlock := lockOn_moreNil (e₀.recordOwnPrevote env (some bh)) bh
      have hprecommit' : e₀.OwnPrecommits env _ bh :=
        hprecommit.of_framed (.trans ⟨_, _, _, _, _, _, _, _, _, _, _, rfl⟩ hlock.frame) hlock.precommits
      refine hown (.of_moreNil hmore ⟨e₀.round, bh, ?_, .inr ⟨hsigned, ownQuorum_record hpolka⟩⟩)
      rw [lockOn_round] at hprecommit'
      exact hprecommit'
    · exact noCommit_single rfl

theorem prevoteForCurrentRoundProposal_noCommit (p : Proposal) :
    NoCommit (e.prevoteForCurrentRoundProposal env p).1.flatten := by
  unfold prevoteForCurrentRoundProposal
  split
  · exact noCommit_nil
  · split
    · exact doPrevote_noCommit hown _
    · exact (doPrevote_nil e env).1

theorem processCurrentRoundProposalIfPresent_noCommit :
    NoCommit (e.processCurrentRoundProposalIfPresent env).1.flatten := by
  unfold processCurrentRoundProposalIfPresent
  split
  · exact noCommit_nil
  · split
    · exact noCommit_nil
    · exact prevoteForCurrentRoundProposal_noCommit hown _

/-- The catch-up loop votes nil until there is a proposal. -/
theorem catchUp_noCommit (fuel : Nat) : NoCommit (flattenAll (catchUp env fuel e).1) := by
  induction fuel generalizing e with
  | zero => exact noCommit_nil
  | succ fuel ih =>
    obtain ⟨hquiet, hmore⟩ := doPrevote_nil e env
    unfold catchUp
    split
    · exact noCommit_cons (prevoteForCurrentRoundProposal_noCommit hown _) noCommit_nil
    · dsimp only
      split
      · exact noCommit_cons hquiet (ih fun h => hown (h.of_moreNil hmore))
      · exact noCommit_cons hquiet noCommit_nil

theorem skipRule_noCommit (round : UInt32) : NoCommit (flattenAll (e.skipRule env round).1) := by
  have hskip : NoCommit (e.checkRoundSkip env).1.flatten := by
    unfold checkRoundSkip
    split
    · exact noCommit_nil
    split
    · exact noCommit_nil
    split
    · dsimp only
      rw [flatten_ofList]
      exact noCommit_cons (noCommit_single rfl)
        (catchUp_noCommit (fun h => hown (h.of_moreNil (startRound_moreNil e _))) 100)
    · exact noCommit_nil
  unfold skipRule
  split
  · dsimp only
    split
    · exact noCommit_nil
    · exact noCommit_cons hskip noCommit_nil
  · exact noCommit_nil

/-- The rules after a counted prevote: a polka for a block, then a nil polka, then a round skip. -/
theorem prevoteRules_noCommit (round : UInt32) : NoCommit (e.prevoteRules env round).1.flatten := by
  have hrule3 : ∀ e : ConsensusEngine, NoCommit (flattenAll (e.prevoteRule3 env round)) := by
    intro e
    unfold prevoteRule3
    split
    · exact noCommit_single rfl
    · exact noCommit_nil
  have hrule2 : ∀ e : ConsensusEngine, NoCommit (flattenAll (e.prevoteRule2 env round).1)
      ∧ e.MoreNil (e.prevoteRule2 env round).2 := by
    intro e
    unfold prevoteRule2
    split
    · obtain ⟨hquiet, hmore⟩ := doPrecommit_nil (e.transitionTo .Precommit) env
      exact ⟨noCommit_cons hquiet noCommit_nil, (transitionTo_moreNil e .Precommit).trans hmore⟩
    · exact ⟨noCommit_nil, .refl e⟩
  unfold prevoteRules
  dsimp only
  rw [flatten_ofList, flattenAll_append, flattenAll_append, flattenAll_append]
  suffices hfirst : NoCommit (flattenAll (e.prevoteRule1 env round).1)
      ∧ NoCommit (flattenAll
        (((e.prevoteRule1 env round).2.prevoteRule2 env round).2.skipRule env round).1) from
    noCommit_append.mpr ⟨noCommit_append.mpr ⟨noCommit_append.mpr ⟨hfirst.1, (hrule2 _).1⟩, hrule3 _⟩,
      hfirst.2⟩
  unfold prevoteRule1
  split
  · rename_i hguard
    obtain ⟨rfl, hstep⟩ := hguard
    split
    · -- the engine stays at the round of the prevote, so it does not look for a skip
      rename_i bh hfound
      refine ⟨noCommit_cons (lockOn_noCommit hown (findQuorum_quorum hfound)) noCommit_nil, ?_⟩
      have hlock : e.lockOn bh = (e.setLock bh).setStep .Precommit := transitionTo_precommit hstep
      have hround : ((e.lockOn bh).doPrecommit env (some bh)).2.round = e.round := by
        rw [doPrecommit_some_frame.1, hlock]
        rfl
      have hdone : ((e.lockOn bh).doPrecommit env (some bh)).2.prevoteRule2 env e.round
          = ([], ((e.lockOn bh).doPrecommit env (some bh)).2) :=
        if_neg fun hguard => doPrecommit_some_step (by rw [hlock]; rfl) hguard.2.1
      rw [hdone]
      unfold skipRule
      rw [hround, if_neg (UInt32.lt_irrefl _)]
      exact noCommit_nil
    · exact ⟨noCommit_nil, skipRule_noCommit (fun h => hown (h.of_moreNil (hrule2 e).2)) _⟩
  · exact ⟨noCommit_nil, skipRule_noCommit (fun h => hown (h.of_moreNil (hrule2 e).2)) _⟩

/-- The rules after a counted precommit commit and record the time, or do not commit. -/
theorem precommitRules_commit (round : UInt32) (hstep : e.step ≠ .Commit)
    (h : .CommitBlock h' r b bh ∈ (e.precommitRules env round).1.flatten) :
    (e.precommitRules env round).2.lastCommittedBlockTimestamp = some b.header.timestamp
      ∧ (e.precommitRules env round).2.step = .Commit := by
  have hrest : ∀ actions, NoCommit (flattenAll actions) →
      .CommitBlock h' r b bh ∉ (e.precommitRest env round actions).1.flatten := by
    intro actions hactions hmem
    suffices hquiet : NoCommit (e.precommitRest env round actions).1.flatten from
      absurd (hquiet _ hmem) Bool.noConfusion
    unfold precommitRest
    split
    · exact noCommit_single rfl
    · dsimp only
      rw [flatten_ofList, flattenAll_append, flattenAll_append]
      refine noCommit_append.mpr ⟨noCommit_append.mpr ⟨hactions, ?_⟩, skipRule_noCommit hown round⟩
      split
      · exact noCommit_single rfl
      · exact noCommit_nil
  unfold precommitRules at h ⊢
  split
  · rename_i bh' hfound
    rw [hfound] at h
    dsimp only at h ⊢
    split
    · rename_i block hblock
      rw [hblock] at h
      obtain ⟨rfl, rfl, rfl, rfl⟩ := ConsensusAction.CommitBlock.inj (List.mem_singleton.mp h)
      refine ⟨rfl, ?_⟩
      rw [transitionTo_commit hstep]
      rfl
    · rename_i hblock
      rw [hblock] at h
      exact absurd h (hrest [.RequestBlockRange e.height e.height bh'] (noCommit_single rfl))
  · rename_i hfound
    rw [hfound] at h
    exact absurd h (hrest [] noCommit_nil)

end

/-! ## Calls in which the own precommit completes no quorum -/

section
variable [Crypto] {env : Env} {e : ConsensusEngine}

section
variable (e : ConsensusEngine) (env : Env)

/-- If the prevote is counted, no own precommit completes a quorum. -/
def PrevoteShort (v : Prevote) : Prop :=
  ∀ power, v.height = e.height → e.eligibleStake env v.validator = some power →
    e.prevotes.seen.get (v.round, v.validator) = none →
    ¬ (e.recordPrevote v power).OwnCompletes env

def PrecommitShort (v : Precommit) : Prop :=
  ∀ power, v.height = e.height → e.eligibleStake env v.validator = some power →
    e.precommits.seen.get (v.round, v.validator) = none → e.step ≠ .Commit →
    ¬ (e.recordPrecommit v power).OwnCompletes env

/-- The same of each buffered vote, at the state in which a drain hands it in. -/
def DrainShort : Prop :=
  e.DrainsPrevotes env (fun e v => e.PrevoteShort env v) ∧
  match (e.drainPrevotes env).2.futurePrecommits.get e.height with
  | none => True
  | some votes => Replays (fun e v => e.onPrecommit env v) (fun e v => e.PrecommitShort env v)
      (byRoundDesc Precommit.round votes)
      { (e.drainPrevotes env).2 with
        futurePrecommits := (e.drainPrevotes env).2.futurePrecommits.remove e.height }

end

theorem onPrevote_noCommit (h : e.PrevoteShort env v) : NoCommit (e.onPrevote env v).1.flatten := by
  unfold onPrevote
  split
  · exact noCommit_nil
  split
  · exact noCommit_nil
  split
  · exact noCommit_nil
  split
  · exact noCommit_nil
  · rename_i hle hge _ _ power hpower
    split
    · unfold prevoteEquivocation
      split
      · split
        · exact noCommit_single rfl
        · exact noCommit_nil
      · exact noCommit_nil
    · rename_i hseen
      have hheight : v.height = e.height := height_eq_of_not_lt hle hge
      exact prevoteRules_noCommit (h power hheight hpower hseen) v.round

/-- A commit by a received precommit records the time. -/
theorem onPrecommit_commit (h : e.PrecommitShort env v)
    (hmem : .CommitBlock h' r b bh ∈ (e.onPrecommit env v).1.flatten) :
    (e.onPrecommit env v).2.lastCommittedBlockTimestamp = some b.header.timestamp
      ∧ (e.onPrecommit env v).2.step = .Commit := by
  unfold onPrecommit at hmem ⊢
  split at hmem
  · exact absurd hmem List.not_mem_nil
  split at hmem
  · exact absurd hmem List.not_mem_nil
  split at hmem
  · exact absurd hmem List.not_mem_nil
  rename_i hle hge hsig
  rw [if_neg hle, if_neg hge, if_neg hsig]
  split at hmem
  · exact absurd hmem List.not_mem_nil
  rename_i power hpower
  split at hmem
  · unfold precommitEquivocation at hmem
    grind [ConsensusAction.flatten]
  rename_i hseen
  split at hmem
  · exact absurd hmem List.not_mem_nil
  rename_i hstep
  rw [if_neg hstep]
  have hheight : v.height = e.height := height_eq_of_not_lt hle hge
  exact precommitRules_commit (h power hheight hpower hseen hstep) v.round hstep hmem

/-- After a commit, precommits change nothing that matters here. -/
theorem onPrecommit_committed (hstep : e.step = .Commit) (v : Precommit) :
    (e.onPrecommit env v).2.step = .Commit
      ∧ (e.onPrecommit env v).2.lastCommittedBlockTimestamp = e.lastCommittedBlockTimestamp := by
  unfold onPrecommit bufferPrecommit
  grind

theorem replay_committed (votes : List Precommit) (hstep : e.step = .Commit) :
    (replay (fun e v => e.onPrecommit env v) votes e).2.lastCommittedBlockTimestamp
      = e.lastCommittedBlockTimestamp := by
  induction votes generalizing e with
  | nil => rfl
  | cons v votes ih =>
    obtain ⟨hstep', hlast⟩ : (e.onPrecommit env v).2.step = .Commit ∧ _ :=
      onPrecommit_committed hstep v
    exact (ih hstep').trans hlast

theorem replay_commit {votes : List Precommit}
    (h : Replays (fun e v => e.onPrecommit env v) (fun e v => e.PrecommitShort env v) votes e)
    (hmem : .CommitBlock h' r b bh
      ∈ flattenAll (replay (fun e v => e.onPrecommit env v) votes e).1) :
    (replay (fun e v => e.onPrecommit env v) votes e).2.lastCommittedBlockTimestamp
      = some b.header.timestamp := by
  induction votes generalizing e with
  | nil => exact absurd hmem List.not_mem_nil
  | cons v votes ih =>
    unfold replay at hmem ⊢
    dsimp only at hmem ⊢
    have hsplit : .CommitBlock h' r b bh ∈ (e.onPrecommit env v).1.flatten
        ∨ .CommitBlock h' r b bh
          ∈ flattenAll (replay (fun e v => e.onPrecommit env v) votes (e.onPrecommit env v).2).1 := by
      split at hmem
      · exact .inr hmem
      · exact List.mem_append.mp hmem
    rcases hsplit with hnow | hlater
    · obtain ⟨hlast, hstep⟩ := onPrecommit_commit h.1 hnow
      rw [replay_committed votes hstep]
      exact hlast
    · exact ih h.2 hlater

theorem replay_noCommit {votes : List Prevote}
    (h : Replays (fun e v => e.onPrevote env v) (fun e v => e.PrevoteShort env v) votes e) :
    NoCommit (flattenAll (replay (fun e v => e.onPrevote env v) votes e).1) := by
  induction votes generalizing e with
  | nil => exact noCommit_nil
  | cons v votes ih =>
    unfold replay
    dsimp only
    split
    · exact ih h.2
    · exact noCommit_cons (onPrevote_noCommit h.1) (ih h.2)

theorem drainFutureMessages_commit (h : e.DrainShort env)
    (hmem : .CommitBlock h' r b bh ∈ (e.drainFutureMessages env).1.flatten) :
    (e.drainFutureMessages env).2.lastCommittedBlockTimestamp = some b.header.timestamp := by
  obtain ⟨hprevotes, hprecommits⟩ := h
  have hquiet : NoCommit (flattenAll (e.drainPrevotes env).1) := by
    unfold drainPrevotes
    unfold DrainsPrevotes at hprevotes
    split
    · exact noCommit_nil
    · rename_i votes hvotes
      rw [hvotes] at hprevotes
      exact replay_noCommit hprevotes
  unfold drainFutureMessages at hmem ⊢
  dsimp only at hmem ⊢
  rw [flatten_ofList, flattenAll_append] at hmem
  rcases List.mem_append.mp hmem with hold | hnew
  · exact absurd (hquiet _ hold) Bool.noConfusion
  · unfold drainPrecommits at hnew ⊢
    split
    · rename_i hnone
      rw [hnone] at hnew
      exact absurd hnew List.not_mem_nil
    · rename_i votes hvotes
      rw [hvotes] at hnew hprecommits
      exact replay_commit hprecommits hnew

end
end ConsensusEngine

/-- The own precommit completes no quorum in the call, judged by the state before it and what it
    hands in. -/
def Op.OwnShort [Crypto] (op : Op) (env : Env) (e : ConsensusEngine) : Prop :=
  match op with
  | .createProposal fresh => e.step = .Propose → ∀ block vr, e.proposalBlock fresh = some (block, vr) →
      ¬ (e.storeProposal (e.ownProposal block vr)).OwnCompletes env
  | .onProposal p => e.step = .Propose → ¬ (e.storeProposal p).OwnCompletes env
  | .onPrevote v => e.PrevoteShort env v
  | .onPrecommit v => e.PrecommitShort env v
  | .onTimeout _ _ => True
  | .drainFutureMessages => e.DrainShort env
  | .processCurrentRoundProposalIfPresent => e.step = .Propose → ¬ e.OwnCompletes env

/-- **What such a call commits it also records.** -/
theorem Op.run_records [Crypto] {op : Op} (h : op.OwnShort env e)
    (hmem : .CommitBlock h' r b bh ∈ (op.run env e).1.flatten) :
    (op.run env e).2.lastCommittedBlockTimestamp = some b.header.timestamp := by
  suffices hquiet : (∃ v, op = .onPrecommit v) ∨ op = .drainFutureMessages
      ∨ NoCommit (op.run env e).1.flatten by
    rcases hquiet with ⟨v, rfl⟩ | rfl | hquiet
    · exact (onPrecommit_commit h hmem).1
    · exact drainFutureMessages_commit h hmem
    · exact absurd (hquiet _ hmem) Bool.noConfusion
  cases op with
  | onPrecommit v => exact .inl ⟨v, rfl⟩
  | drainFutureMessages => exact .inr (.inl rfl)
  | onPrevote v => exact .inr (.inr (onPrevote_noCommit h))
  | createProposal fresh =>
    refine .inr (.inr ?_)
    show NoCommit (e.createProposal env fresh).1.flatten
    unfold ConsensusEngine.createProposal
    split
    · exact noCommit_nil
    · rename_i hstep
      split
      · exact noCommit_single rfl
      · rename_i block vr hblock
        dsimp only
        rw [flatten_pair]
        exact noCommit_append.mpr ⟨noCommit_single rfl,
          doPrevote_noCommit (h (Classical.not_not.mp hstep) block vr hblock) _⟩
  | onProposal p =>
    refine .inr (.inr ?_)
    show NoCommit (e.onProposal env p).1.flatten
    obtain ⟨cache, hcache, -⟩ := expectedLeaderCached_eq e env
      (leaderSelectionSlot e.height p.round) p.block.header.parentHash
    unfold ConsensusEngine.onProposal
    split
    · exact noCommit_nil
    split
    · exact noCommit_nil
    split
    · exact noCommit_nil
    split
    · exact noCommit_nil
    dsimp only
    rw [hcache]
    unfold acceptProposal
    split
    · exact noCommit_nil
    split
    · exact noCommit_nil
    split
    · exact noCommit_nil
    split
    · exact noCommit_nil
    dsimp only
    split
    · exact noCommit_nil
    split
    · exact noCommit_nil
    · rename_i hstep
      refine prevoteForCurrentRoundProposal_noCommit (fun hown => ?_) p
      have hmore : (e.storeProposal p).MoreNil
          (({ e with leaderCache := cache } : ConsensusEngine).storeProposal p) :=
        ⟨⟨_, _, _, _, _, _, _, _, _, _, _, rfl⟩, .refl _, .refl _⟩
      exact h (Classical.not_not.mp hstep) (hown.of_moreNil hmore)
  | onTimeout s r =>
    refine .inr (.inr ?_)
    show NoCommit (e.onTimeout env s r).1.flatten
    unfold ConsensusEngine.onTimeout
    split
    · exact noCommit_nil
    · cases s with
      | Propose =>
        dsimp only
        split
        · exact (doPrevote_nil e env).1
        · exact noCommit_nil
      | Prevote =>
        dsimp only
        split
        · exact (doPrecommit_nil _ env).1
        · exact noCommit_nil
      | Precommit =>
        dsimp only
        split
        · exact noCommit_single rfl
        · exact noCommit_nil
      | Commit => exact noCommit_nil
  | processCurrentRoundProposalIfPresent =>
    refine .inr (.inr ?_)
    by_cases hstep : e.step = .Propose
    · exact processCurrentRoundProposalIfPresent_noCommit (h hstep)
    · show NoCommit (e.processCurrentRoundProposalIfPresent env).1.flatten
      unfold ConsensusEngine.processCurrentRoundProposalIfPresent
      rw [if_pos hstep]
      exact noCommit_nil

end Lichen
