/-
  What a commit settles.

  A height is decided once: after `CommitBlock` the engine should sit in the Commit step until the
  next `start_height`.  Every handler but one respects that.  `on_prevote` counts late prevotes in
  the Commit step and then looks for a round skip, and the skip does not ask for the step: once
  validators with more than 1/3 of the stake are seen voting in later rounds, the engine is back in
  Propose, and a late precommit makes it emit `CommitBlock` again (`second_commit_after_skip`).
  Where no prevote is handed in that would do so, there is one commit per height
  (`one_commit_per_height`).

  A commit also fixes the time: `on_proposal` refuses blocks older than the last committed one.  It
  reads a field that the commit rule of `on_precommit` sets and that of `do_precommit` does not, so
  a validator whose own precommit completes the quorum forgets the block's timestamp
  (`own_commit_forgets_time`).
-/
import Lichen.Validator.Network
import Lichen.Validator.OwnPrecommit

open Base
namespace Lichen
open ConsensusEngine ConsensusAction

theorem ConsensusAction.Inert.commits {a : ConsensusAction} (h : a.Inert) : a.commits = false := by
  cases a with
  | CommitBlock h r b bh => exact absurd h id
  | _ => rfl

namespace ConsensusEngine
section
variable [Crypto] {env : Env} {e e' : ConsensusEngine}

/-- A move commits once, from outside the Commit step and into it, or not at all; and the only move
    out of the Commit step is a round skip. -/
theorem Step.commit_cases (h : Step env e ev e') :
    (ev.output.countP commits = 1 ∧ e.step ≠ .Commit ∧ e'.step = .Commit)
      ∨ (ev.output.countP commits = 0
        ∧ (e.step = .Commit → e'.step = .Commit ∨ ∃ d, ev = .skip d)) := by
  cases h with
  | commitOwn bh block hstep hsigned hquorum hblock =>
    refine .inl ⟨rfl, ?_, rfl⟩
    rw [hstep]
    exact RoundStep.noConfusion
  | commitNetwork round bh block hstep hquorum hblock => exact .inl ⟨rfl, hstep, rfl⟩
  | emit a ha =>
    refine .inr ⟨?_, .inl⟩
    rw [Event.output, List.countP_singleton, ha.commits]
    rfl
  | propose fresh block vr hstep hblock =>
    refine .inr ⟨rfl, ?_⟩
    rw [hstep]
    exact RoundStep.noConfusion
  | prevote bh hstep hsigned hmay =>
    refine .inr ⟨rfl, ?_⟩
    rw [hstep]
    exact RoundStep.noConfusion
  | lock bh hstep hpolka =>
    refine .inr ⟨rfl, ?_⟩
    rw [hstep]
    exact RoundStep.noConfusion
  | toPrecommit hstep =>
    refine .inr ⟨rfl, ?_⟩
    rw [hstep]
    exact RoundStep.noConfusion
  | advance hstep hwhy => exact .inr ⟨rfl, fun hcommit => absurd hcommit hstep⟩
  | skip htotal hmax hstake => exact .inr ⟨rfl, fun _ => .inr ⟨_, rfl⟩⟩
  | _ => exact .inr ⟨rfl, .inl⟩

/-- The moves of a call that does not skip out of the Commit step. -/
abbrev CalmStep (env : Env) : ConsensusEngine → Event → ConsensusEngine → Prop :=
  SkipStep (fun e => e.step ≠ .Commit) env

theorem CalmStep.step_commit (h : CalmStep env e ev e') (hstep : e.step = .Commit) :
    e'.step = .Commit := by
  rcases h.1.commit_cases with ⟨-, hne, -⟩ | ⟨-, hkeep⟩
  · exact absurd hstep hne
  · rcases hkeep hstep with hcommit | ⟨d, hskip⟩
    · exact hcommit
    · exact absurd hstep (h.2 d hskip)

/-- Nothing is committed yet, or one block is and the engine is in the Commit step. -/
def CommittedOnce (e : ConsensusEngine) (log : List ConsensusAction) : Prop :=
  log.countP ConsensusAction.commits = 0
    ∨ log.countP ConsensusAction.commits = 1 ∧ e.step = .Commit

theorem CalmStep.committedOnce (h : CalmStep env e ev e')
    (hI : e.CommittedOnce log) : e'.CommittedOnce (log ++ ev.output) := by
  unfold CommittedOnce
  rw [List.countP_append]
  rcases h.1.commit_cases with ⟨hone, hne, hcommit⟩ | ⟨hzero, -⟩
  · rcases hI with hnone | ⟨-, hstep⟩
    · right
      rw [hnone, hone]
      exact ⟨rfl, hcommit⟩
    · exact absurd hstep hne
  · rw [hzero]
    rcases hI with hnone | ⟨hcount, hstep⟩
    · left
      rw [hnone]
    · right
      rw [hcount]
      exact ⟨rfl, h.step_commit hstep⟩

end
end ConsensusEngine

/-! ## One commit per height -/

section
variable [Crypto]

/-- No prevote the call hands in makes the engine skip out of the Commit step. -/
def Op.StaysCommitted (op : Op) (env : Env) (e : ConsensusEngine) : Prop :=
  op.Prevotes env e fun e v => ¬ e.LeavesCommit env v

variable {e : ConsensusEngine}

/-- Such a call is a chain of moves none of which skips out of the Commit step. -/
theorem Op.run_calm {op : Op} (h : op.StaysCommitted env e) (hwf : e.BlocksWf) :
    Produces (CalmStep env) Event.output (fun ev => ev.Internal ∨ op.Takes e ev) e
      (op.run env e).1.flatten (op.run env e).2 := by
  refine op.run_skipDoes env (fun _ => id) (h.imp ?_) hwf
  intro e v hstay e' hleaves hstep
  exact hstay (hleaves hstep)

namespace Call

/-- The calls made between one `start_height` and the next.  Startup may move the round before the
    height is decided. -/
def WithinHeight (e : ConsensusEngine) : Call → Prop
  | .startHeight _ => False
  | .resumeAfterRecoveredRound _ | .resumeAtRoundIfHigher _ => e.step ≠ .Commit
  | _ => True

def StaysCommitted (e : ConsensusEngine) : Call → Prop
  | .op env o => o.StaysCommitted env e
  | _ => True

theorem step_next {c : Call} (hc : c.Aside) (hwithin : c.WithinHeight e)
    (hstep : e.step = .Commit) : (c.next e).step = .Commit := by
  rcases (c.keeps_next hc e).step with hresumes | hsame
  · cases c with
    | resumeAfterRecoveredRound r => exact absurd hstep hwithin
    | resumeAtRoundIfHigher r => exact absurd hstep hwithin
    | _ => exact absurd hresumes id
  · exact hsame.trans hstep

variable {log : List ConsensusAction}

theorem committedOnce_next {c : Call}
    (hwithin : c.WithinHeight e) (hstays : c.StaysCommitted e) (hwf : e.BlocksWf)
    (hI : e.CommittedOnce log) : (c.next e).CommittedOnce (log ++ c.emits e) := by
  by_cases haside : c.Aside
  · rw [emits_of_aside haside, List.append_nil]
    exact hI.imp_right fun ⟨hcount, hstep⟩ => ⟨hcount, step_next haside hwithin hstep⟩
  · cases c with
    | op env o =>
      obtain ⟨evs, htr, hout, hallow⟩ := Op.run_calm hstays hwf
      show ((o.run env e).2).CommittedOnce (log ++ (o.run env e).1.flatten)
      rw [← hout]
      refine Trace.invariant_outputs ?_ htr log hallow hI
      intro e₁ ev e₂ log' hs _ hI'
      exact CalmStep.committedOnce hs hI'
    | startHeight h => exact absurd hwithin id
    | _ => exact absurd trivial haside

/-- Make the calls of a script, as long as each passes the check. -/
def play (check : ConsensusEngine → Call → Bool) :
    List Call → ConsensusEngine → List ConsensusAction →
      Option (ConsensusEngine × List ConsensusAction)
  | [], e, log => some (e, log)
  | c :: script, e, log =>
    if check e c then play check script (c.next e) (log ++ c.emits e) else none

theorem Runs.play (hcheck : ∀ e c, check e c = true → ok e c) :
    ∀ {e e' : ConsensusEngine} {log log' : List ConsensusAction}, Runs ok e₀ e log →
      play check script e log = some (e', log') → Runs ok e₀ e' log' := by
  induction script with
  | nil =>
    grind [Call.play]
  | cons c script ih =>
    intro e e' log log' hrun h
    unfold Call.play at h
    split at h
    · rename_i hc
      exact ih (.call c hrun (hcheck e c hc)) h
    · exact nomatch h

/-- A script that can be played to a result with `p` is a run to one. -/
theorem exists_runs_of_play (hcheck : ∀ e c, check e c = true → ok e c)
    (e₀ : ConsensusEngine) (script : List Call) (p : ConsensusEngine → List ConsensusAction → Bool)
    (h : (play check script e₀ []).any (fun s => p s.1 s.2) = true) :
    ∃ e log, Runs ok e₀ e log ∧ p e log = true := by
  cases hplay : play check script e₀ [] with
  | none =>
    rw [hplay] at h
    exact absurd h Bool.false_ne_true
  | some s =>
    rw [hplay] at h
    exact ⟨s.1, s.2, .play hcheck .start hplay, h⟩

theorem Runs.blocksWf (h : Runs ok e₀ e log) (hwf : e₀.BlocksWf) : e.BlocksWf := by
  induction h with
  | start => exact hwf
  | call c _ _ ih => exact blocksWf_next c ih

end Call

/-- **One commit per height**: in every run from `start_height`, whatever the engine did before, in
    which no prevote is handed in that makes it skip out of the Commit step, at most one block is
    committed, and once it is the engine is in the Commit step. -/
theorem one_commit_per_height {e₀ e : ConsensusEngine} {h : UInt64} {log : List ConsensusAction}
    (hrun : Call.Runs (fun e c => c.WithinHeight e ∧ c.StaysCommitted e) (e₀.startHeight h) e log) :
    log.countP ConsensusAction.commits ≤ 1
      ∧ (0 < log.countP ConsensusAction.commits → e.step = .Commit) := by
  have hwf : (e₀.startHeight h).BlocksWf := by
    intro k b hget
    exact absurd hget (by simp [startHeight])
  have hI : e.CommittedOnce log := by
    induction hrun with
    | start => exact .inl rfl
    | call c hprev hok ih => exact Call.committedOnce_next hok.1 hok.2 (hprev.blocksWf hwf) ih
  rcases hI with hnone | ⟨hone, hstep⟩
  · omega
  · exact ⟨by omega, fun _ => hstep⟩

end

/-- Three validators of equal stake, at height 1. -/
def trioStakes : List (Pubkey × UInt64) := [(⟨1⟩, 100), (⟨2⟩, 100), (⟨3⟩, 100)]

def trioSetting : Setting where
  validatorSet := .ofStakes trioStakes (by decide)
  stakePool := .ofStakes trioStakes
  minValidatorStake := 1
  signingChainId := ⟨[], nil_short⟩
  height := 1
  correct := fun _ => true
  minority := by decide

/-- The first one's engine, before it has done anything. -/
def trioNew : ConsensusEngine := .new ⟨1⟩ ⟨1⟩ ⟨[], nil_short⟩ 1 .default

/-- The calls that make it commit its own block with the votes of the second. -/
def trioCommit [Crypto] : List Call :=
  let S := trioSetting
  let block := S.blockBy ⟨1⟩ ⟨1⟩
  [.rebuildPowerSnapshot S.validatorSet S.stakePool,
   .op (S.env 0) (.createProposal block),
   .op (S.env 0) (.onPrevote (S.prevoteBy ⟨2⟩ 0 (some block.hash))),
   .op (S.env 0) (.onPrecommit (S.precommitBy ⟨2⟩ 0 (some block.hash) 0))]

/-- The other two have gone on to round 1, and their prevotes there arrive; so does, late, the
    precommit of the third. -/
def trioLate [Crypto] : List Call :=
  let S := trioSetting
  let block := S.blockBy ⟨1⟩ ⟨1⟩
  [.op (S.env 0) (.onPrevote (S.prevoteBy ⟨2⟩ 1 none)),
   .op (S.env 0) (.onPrevote (S.prevoteBy ⟨3⟩ 1 none)),
   .op (S.env 0) (.onPrecommit (S.precommitBy ⟨3⟩ 0 (some block.hash) 0))]

/-- A check that suffices within a height. -/
def withinHeight : Call → Bool
  | .startHeight _ | .resumeAfterRecoveredRound _ | .resumeAtRoundIfHigher _ => false
  | _ => true

theorem withinHeight_of_check (e : ConsensusEngine) (c : Call) (h : withinHeight c = true) :
    c.WithinHeight e := by
  cases c with
  | startHeight h' => exact absurd h Bool.false_ne_true
  | resumeAfterRecoveredRound r => exact absurd h Bool.false_ne_true
  | resumeAtRoundIfHigher r => exact absurd h Bool.false_ne_true
  | _ => trivial

/-- All votes are for one block: after the prevotes the engine has left the Commit step, and after
    the precommit it has committed the block twice. -/
theorem second_commit_after_skip : ∃ (_ : Crypto) (e₀ e e' : ConsensusEngine)
    (log log' : List ConsensusAction),
    Call.Runs (fun e c => c.WithinHeight e) (e₀.startHeight 1) e log
      ∧ log.countP ConsensusAction.commits = 1 ∧ e.step ≠ .Commit
      ∧ Call.Runs (fun e c => c.WithinHeight e) (e₀.startHeight 1) e' log'
      ∧ log'.countP ConsensusAction.commits = 2 := by
  let _ : Crypto := Crypto.plain
  obtain ⟨e, log, hrun, hleft⟩ := Call.exists_runs_of_play withinHeight_of_check
    (trioNew.startHeight 1) (trioCommit ++ trioLate.take 2)
    (fun e log => decide (log.countP commits = 1 ∧ e.step ≠ .Commit))
    (by decide +kernel)
  obtain ⟨e', log', hrun', htwice⟩ := Call.exists_runs_of_play withinHeight_of_check
    (trioNew.startHeight 1) (trioCommit ++ trioLate)
    (fun _ log => decide (log.countP commits = 2)) (by decide +kernel)
  obtain ⟨hone, hstep⟩ := of_decide_eq_true hleft
  exact ⟨Crypto.plain, trioNew, e, e', log, log', hrun, hone, hstep, hrun', of_decide_eq_true htwice⟩

/-- Prevotes only before the commit. -/
def prevotesBefore (e : ConsensusEngine) : Call → Bool
  | .op _ (.onPrevote _) => decide (e.step ≠ .Commit)
  | .op _ .drainFutureMessages => false
  | c => withinHeight c

theorem stays_of_prevotesBefore [Crypto] (e : ConsensusEngine) (c : Call)
    (h : prevotesBefore e c = true) : c.WithinHeight e ∧ c.StaysCommitted e := by
  cases c with
  | op env o =>
    refine ⟨trivial, ?_⟩
    cases o with
    | onPrevote v =>
      intro hleaves
      exact of_decide_eq_true h hleaves.1
    | drainFutureMessages => exact absurd h Bool.false_ne_true
    | _ => trivial
  | _ => exact ⟨withinHeight_of_check e _ h, trivial⟩

/-- The same commit, followed by the third's precommit alone. -/
theorem one_commit_per_height_trio : ∃ (_ : Crypto) (e : ConsensusEngine)
    (log : List ConsensusAction), log.countP ConsensusAction.commits = 1 ∧ e.step = .Commit := by
  let _ : Crypto := Crypto.plain
  obtain ⟨e, log, hrun, hpos⟩ := Call.exists_runs_of_play stays_of_prevotesBefore
    (trioNew.startHeight 1) (trioCommit ++ trioLate.drop 2)
    (fun _ log => decide (0 < log.countP commits)) (by decide +kernel)
  have hpos := of_decide_eq_true hpos
  obtain ⟨hone, hstep⟩ := one_commit_per_height hrun
  exact ⟨Crypto.plain, e, log, by omega, hstep hpos⟩

/-! ## The time of the last commit -/

namespace ConsensusEngine

/-- The blocks the engine could propose or commit. -/
def Holds (e : ConsensusEngine) (block : Block) : Prop :=
  e.validValue = some block ∨ ∃ bh, e.proposalBlocks.get bh = some block

/-- None of them is older than the last committed block. -/
def NotOlder (e : ConsensusEngine) : Prop :=
  ∀ block, e.Holds block → e.timestampTooOld block.header.timestamp = false

/-- The engine remembers a commit at time `t` or later. -/
def Remembers (e : ConsensusEngine) (t : UInt64) : Prop :=
  ∃ ts, e.lastCommittedBlockTimestamp = some ts ∧ t ≤ ts

variable {e : ConsensusEngine}

theorem Remembers.tooOld (h : e.Remembers t) (hlt : t' < t) : e.timestampTooOld t' = true := by
  obtain ⟨ts, hts, hle⟩ := h
  unfold timestampTooOld
  rw [hts]
  exact decide_eq_true (UInt64.lt_of_lt_of_le hlt hle)

theorem Remembers.le_of_not_tooOld (h : e.Remembers t)
    (hnot : e.timestampTooOld t' = false) : t ≤ t' := by
  grind [tooOld]

theorem timestampTooOld_congr {e e' : ConsensusEngine}
    (h : e'.lastCommittedBlockTimestamp = e.lastCommittedBlockTimestamp) (t : UInt64) :
    e'.timestampTooOld t = e.timestampTooOld t := by
  unfold timestampTooOld
  rw [h]

section
variable [Crypto] {env : Env} {e : ConsensusEngine}

theorem holds_storeProposal (h : (e.storeProposal p).Holds block) :
    e.Holds block ∨ block = p.block := by
  rcases h with hvalid | ⟨bh, hget⟩
  · exact .inl (.inl hvalid)
  · have hput : (e.proposalBlocks.put p.block.hash p.block).get bh = some block := hget
    rcases HashMap.get_put_cases hput with ⟨-, rfl⟩ | ⟨-, hold⟩
    · exact .inr rfl
    · exact .inl (.inr ⟨bh, hold⟩)

/-- Blocks come in with proposals only. -/
theorem Step.holds (h : Step env e ev e') (hb : e'.Holds block) :
    e.Holds block ∨ ∃ p : Proposal, (ev = .store p ∨ ev = .propose p) ∧ block = p.block := by
  cases h with
  | store p hheight hround hsig hleader hblock hold hnew =>
    exact (holds_storeProposal hb).imp_right fun heq => ⟨p, .inl rfl, heq⟩
  | propose fresh b vr hstep hblock =>
    exact (holds_storeProposal hb).imp_right fun heq => ⟨_, .inr rfl, heq⟩
  | lock bh hstep hpolka =>
    left
    rcases hb with hvalid | hget
    · rw [setLock] at hvalid
      split at hvalid
      · rename_i hget
        exact .inr ⟨bh, hget.trans hvalid⟩
      · exact .inl hvalid
    · exact .inr hget
  | _ => exact .inl hb

/-- The recorded time changes with a commit by received precommits, and with nothing else. -/
theorem Step.lastCommitted (h : Step env e ev e') :
    e'.lastCommittedBlockTimestamp = e.lastCommittedBlockTimestamp
      ∨ e.step ≠ .Commit ∧ e'.step = .Commit
        ∧ ∃ block, e.Holds block ∧ e'.lastCommittedBlockTimestamp = some block.header.timestamp := by
  cases h with
  | commitNetwork round bh block hstep hquorum hblock =>
    exact .inr ⟨hstep, rfl, block, .inr ⟨bh, hblock⟩, rfl⟩
  | _ => exact .inl rfl

theorem Step.store_notTooOld (h : Step env e (.store p) e') :
    e.timestampTooOld p.block.header.timestamp = false := by
  cases h with
  | store _ hheight hround hsig hleader hblock hold hnew => exact hold

theorem Step.propose_step (h : Step env e (.propose p) e') : e.step = .Propose := by
  cases h with
  | propose fresh block vr hstep hblock => exact hstep

/-- What the moves of one call keep, `e₀` being the state it starts in: until the height is decided
    the recorded time stays and no block is older, and no time is forgotten. -/
structure TimeKept (e₀ e : ConsensusEngine) : Prop where
  undecided : e.step ≠ .Commit →
    e.NotOlder ∧ e.lastCommittedBlockTimestamp = e₀.lastCommittedBlockTimestamp
  remembers : ∀ t, e₀.Remembers t → e.Remembers t

theorem CalmStep.timeKept (h : CalmStep env e ev e')
    (hpropose : ∀ p, ev = .propose p → e₀.timestampTooOld p.block.header.timestamp = false)
    (hI : TimeKept e₀ e) : TimeKept e₀ e' := by
  rcases h.1.lastCommitted with hsame | ⟨hne, hcommit, block, hblock, hlast⟩
  · constructor
    · intro hstep'
      have hstep : e.step ≠ .Commit := fun hc => hstep' (h.step_commit hc)
      obtain ⟨hnot, hlast⟩ := hI.undecided hstep
      refine ⟨?_, hsame.trans hlast⟩
      intro block hb
      rw [timestampTooOld_congr hsame]
      rcases h.1.holds hb with hold | ⟨p, hev, rfl⟩
      · exact hnot block hold
      · rcases hev with rfl | rfl
        · exact h.1.store_notTooOld
        · rw [timestampTooOld_congr hlast]
          exact hpropose p rfl
    · intro t ht
      obtain ⟨ts, hts, hle⟩ := hI.remembers t ht
      exact ⟨ts, hsame.trans hts, hle⟩
  · constructor
    · intro hstep'
      exact absurd hcommit hstep'
    · intro t ht
      have hle := (hI.remembers t ht).le_of_not_tooOld ((hI.undecided hne).1 block hblock)
      exact ⟨_, hlast, hle⟩

/-- What is proposed is a block the engine holds, or the fresh one. -/
theorem proposalBlock_holds
    (h : e.proposalBlock fresh = some (block, vr)) : e.Holds block ∨ block = fresh := by
  unfold proposalBlock at h
  split at h
  · left
    split at h
    · rename_i hb
      obtain ⟨rfl, -⟩ := Prod.mk.inj (Option.some.inj h)
      split at hb
      · rename_i vb hvb
        cases hb
        exact .inl (Option.filter_eq_some_iff.mp hvb).1
      · exact .inr ⟨_, hb⟩
    · simp at h
  · split at h
    · rename_i hvb
      obtain ⟨rfl, -⟩ := Prod.mk.inj (Option.some.inj h)
      exact .inl (.inl hvb)
    · obtain ⟨rfl, -⟩ := Prod.mk.inj (Option.some.inj h)
      exact .inr rfl

theorem acceptProposal_tooOld (h : e.timestampTooOld p.block.header.timestamp = true) :
    e.acceptProposal env p leader = (.None, e) := by
  unfold acceptProposal
  split
  · rfl
  split
  · rfl
  · rfl

/-- A block older than the last committed one is refused: nothing but the leader cache changes. -/
theorem onProposal_tooOld (h : e.timestampTooOld p.block.header.timestamp = true) :
    ∃ cache, e.onProposal env p = (.None, { e with leaderCache := cache }) := by
  obtain ⟨cache, hcache, -⟩ := expectedLeaderCached_eq e env
    (leaderSelectionSlot e.height p.round) p.block.header.parentHash
  unfold onProposal
  split
  · exact ⟨e.leaderCache, rfl⟩
  split
  · exact ⟨e.leaderCache, rfl⟩
  split
  · exact ⟨e.leaderCache, rfl⟩
  split
  · exact ⟨e.leaderCache, rfl⟩
  refine ⟨cache, ?_⟩
  dsimp only
  rw [hcache]
  exact acceptProposal_tooOld h

end
end ConsensusEngine
section
variable [Crypto]

namespace Call

/-- The engine's own precommit completes no quorum in the call. -/
def OwnShort (e : ConsensusEngine) : Call → Prop
  | .op env o => o.OwnShort env e
  | _ => True

/-- A block handed in to be proposed, or from the log, is not older than the last committed one. -/
def newBlocksNotOlder (e : ConsensusEngine) : Call → Bool
  | .op _ (.createProposal fresh) => !e.timestampTooOld fresh.header.timestamp
  | .restoreProposalBlock _ _ block => !e.timestampTooOld block.header.timestamp
  | _ => true

def isStart : Call → Bool
  | .startHeight _ => true
  | _ => false

/-- The calls of any number of heights that stay committed and hand in no older block. -/
def KeepsTime (e : ConsensusEngine) (c : Call) : Prop :=
  (c.isStart = true ∨ c.WithinHeight e) ∧ c.StaysCommitted e ∧ c.newBlocksNotOlder e = true

variable {e : ConsensusEngine}

theorem timeKept_op (h : (Call.op env o).KeepsTime e)
    (hwf : e.BlocksWf) (hnot : e.step ≠ .Commit → e.NotOlder) :
    e.TimeKept (o.run env e).2 := by
  obtain ⟨-, hstays, hnew⟩ := h
  obtain ⟨evs, htr, -, hallow⟩ := Op.run_calm hstays hwf
  suffices hkept : e.TimeKept (o.run env e).2
      ∧ (e.step = .Commit → (o.run env e).2.step = .Commit) from hkept.1
  have hstart : e.TimeKept e := ⟨fun hstep => ⟨hnot hstep, rfl⟩, fun _ => id⟩
  refine Trace.invariant (I := fun e₁ => e.TimeKept e₁ ∧ (e.step = .Commit → e₁.step = .Commit))
    ?_ htr hallow ⟨hstart, id⟩
  rintro e₁ ev e₂ hs hev ⟨hI, hcommit⟩
  have hcommit' : e.step = .Commit → e₂.step = .Commit :=
    fun hc => CalmStep.step_commit hs (hcommit hc)
  refine ⟨CalmStep.timeKept hs ?_ hI, hcommit'⟩
  rintro p rfl
  -- only `create_proposal` proposes, and not in the Commit step
  rcases hev with hint | htakes
  · exact absurd hint id
  · cases o with
    | createProposal fresh =>
      obtain ⟨block, vr, hblock, hp⟩ := htakes
      obtain rfl := Event.propose.inj hp
      have hstep : e.step ≠ .Commit := by
        intro hc
        have hpropose := hs.1.propose_step
        rw [hcommit hc] at hpropose
        exact RoundStep.noConfusion hpropose
      rcases proposalBlock_holds hblock with hheld | rfl
      · exact hnot hstep block hheld
      · exact (Bool.not_eq_true' _).mp hnew
    | drainFutureMessages =>
      rcases htakes with ⟨v, -, hp⟩ | ⟨v, -, hp⟩
      · exact nomatch hp
      · exact nomatch hp
    | onTimeout s r => exact absurd htakes id
    | processCurrentRoundProposalIfPresent => exact absurd htakes id
    | _ => exact nomatch htakes

/-- Until its height is decided the engine holds no older block, and it remembers every commit. -/
structure TimeInv (e : ConsensusEngine) (log : List ConsensusAction) : Prop where
  notOlder : e.step ≠ .Commit → e.NotOlder
  remembers : ∀ h r b bh, .CommitBlock h r b bh ∈ log → e.Remembers b.header.timestamp

/-- One call of the run. -/
theorem timeInv_next {c : Call}
    (hkeeps : c.KeepsTime e) (hshort : c.OwnShort e) (hwf : e.BlocksWf) (hI : TimeInv e log) :
    TimeInv (c.next e) (log ++ c.emits e) := by
  by_cases haside : c.Aside
  · have hkeeps' := c.keeps_next haside e
    rw [emits_of_aside haside, List.append_nil]
    constructor
    · intro hstep block hb
      rw [timestampTooOld_congr hkeeps'.lastCommitted]
      have hwithin : c.WithinHeight e := by
        rcases hkeeps.1 with hstart | hwithin
        · cases c with
          | startHeight h => exact absurd haside id
          | _ => exact absurd hstart Bool.false_ne_true
        · exact hwithin
      have hstep₀ : e.step ≠ .Commit := fun hc => hstep (step_next haside hwithin hc)
      have hblock : e.Holds block ∨ c.Restores block := by
        rcases hb with hvalid | ⟨bh, hget⟩
        · exact (hkeeps'.validValue block hvalid).imp_left .inl
        · exact (hkeeps'.proposalBlocks bh block hget).imp (fun h => .inr ⟨bh, h⟩) And.right
      rcases hblock with hheld | ⟨h, r, rfl⟩
      · exact hI.notOlder hstep₀ block hheld
      · exact (Bool.not_eq_true' _).mp hkeeps.2.2
    · intro h r b bh hmem
      obtain ⟨ts, hts, hle⟩ := hI.remembers h r b bh hmem
      exact ⟨ts, hkeeps'.lastCommitted.trans hts, hle⟩
  · cases c with
    | op env o =>
      have hkept := timeKept_op hkeeps hwf hI.notOlder
      refine ⟨fun hstep => (hkept.undecided hstep).1, ?_⟩
      intro h r b bh hmem
      rcases List.mem_append.mp hmem with hold | hnew
      · exact hkept.remembers _ (hI.remembers h r b bh hold)
      · exact ⟨_, Op.run_records hshort hnew, UInt64.le_refl _⟩
    | startHeight h =>
      -- a new height starts without blocks, and with the time of the last
      constructor
      · rintro - block (hvalid | ⟨bh, hget⟩)
        · exact nomatch hvalid
        · exact absurd hget (by simp [next, ConsensusEngine.startHeight])
      · intro h' r b bh hmem
        exact hI.remembers h' r b bh (by simpa [emits] using hmem)
    | _ => exact absurd trivial haside

theorem Runs.timeInv
    (h : Runs (fun e c => c.KeepsTime e ∧ c.OwnShort e) e₀ e log) (hwf : e₀.BlocksWf)
    (hstep : e₀.step = .Commit) : TimeInv e log := by
  induction h with
  | start => exact ⟨fun hne => absurd hstep hne, fun _ _ _ _ hmem => absurd hmem List.not_mem_nil⟩
  | call c hprev hok ih => exact timeInv_next hok.1 hok.2 (hprev.blocksWf hwf) ih

end Call

/-- **Committed time never moves back**: in every run, over any number of heights, in which the own
    precommit completes no quorum, a proposal of a block older than a committed one is refused. -/
theorem committed_time_monotone {kp : Keypair} {pk : Pubkey} {chainId : ChainId} {minStake : UInt64}
    {timeouts : ConsensusTimeoutConfig} {e : ConsensusEngine} {log : List ConsensusAction}
    (hrun : Call.Runs (fun e c => c.KeepsTime e ∧ c.OwnShort e)
      (.new kp pk chainId minStake timeouts) e log)
    {h : UInt64} {r : UInt32} {b : Block} {bh : Hash} (hcommit : .CommitBlock h r b bh ∈ log)
    (env : Env) (p : Proposal) (hold : p.block.header.timestamp < b.header.timestamp) :
    ∃ cache, e.onProposal env p = (.None, { e with leaderCache := cache }) := by
  have hwf : (new kp pk chainId minStake timeouts).BlocksWf := by
    intro k b hget
    exact absurd hget (by simp [new])
  have hI := hrun.timeInv hwf rfl
  exact onProposal_tooOld ((hI.remembers h r b bh hcommit).tooOld hold)

end

/-- Two validators, the first of which is a quorum by itself; at height 2. -/
def majoritySetting : Setting where
  validatorSet := .ofStakes [(⟨1⟩, 200), (⟨2⟩, 100)] pairSet.nodup
  stakePool := .ofStakes [(⟨1⟩, 200), (⟨2⟩, 100)]
  minValidatorStake := 1
  signingChainId := ⟨[], nil_short⟩
  height := 2
  correct := fun _ => true
  minority := by decide

/-- The first commits its block of time 100 at height 1, and goes on to height 2. -/
def majorityCommit [Crypto] : List Call :=
  let S := { majoritySetting with height := 1 }
  [.startHeight 1, .rebuildPowerSnapshot S.validatorSet S.stakePool,
   .op (S.env 100) (.createProposal (S.blockAt ⟨1⟩ ⟨1⟩ 100)),
   .startHeight 2, .rebuildPowerSnapshot S.validatorSet S.stakePool]

/-- A check that suffices for `KeepsTime`. -/
def keepsTime (e : ConsensusEngine) (c : Call) : Bool :=
  (c.isStart || prevotesBefore e c) && c.newBlocksNotOlder e

theorem keepsTime_of_check [Crypto] (e : ConsensusEngine) (c : Call) (h : keepsTime e c = true) :
    c.KeepsTime e := by
  obtain ⟨hcalm, hnew⟩ := Bool.and_eq_true_iff.mp h
  rcases (Bool.or_eq_true _ _).mp hcalm with hstart | hbefore
  · cases c with
    | startHeight h' => exact ⟨.inl rfl, trivial, rfl⟩
    | _ => exact absurd hstart Bool.false_ne_true
  · obtain ⟨hwithin, hstays⟩ := stays_of_prevotesBefore e c hbefore
    exact ⟨.inr hwithin, hstays, hnew⟩

/-- The second, leader of round 1 of height 2, proposes a block of time 0; the first stores it. -/
theorem own_commit_forgets_time : ∃ (_ : Crypto) (kp : Keypair) (pk : Pubkey) (chainId : ChainId)
    (minStake : UInt64) (timeouts : ConsensusTimeoutConfig) (e : ConsensusEngine)
    (log : List ConsensusAction) (h : UInt64) (r : UInt32) (b : Block) (bh : Hash) (env : Env)
    (p : Proposal),
    Call.Runs (fun e c => c.KeepsTime e) (.new kp pk chainId minStake timeouts) e log
      ∧ .CommitBlock h r b bh ∈ log ∧ h < p.height ∧ p.block.header.timestamp < b.header.timestamp
      ∧ e.proposals.get p.round = none ∧ (e.onProposal env p).2.proposals.get p.round = some p := by
  let _ : Crypto := Crypto.plain
  let S := majoritySetting
  let p := S.proposalBy ⟨2⟩ 1 (S.blockBy ⟨2⟩ ⟨1⟩)
  obtain ⟨e, log, hrun, hp⟩ := Call.exists_runs_of_play keepsTime_of_check trioNew majorityCommit
    (fun e log => decide (e.proposals.get p.round = none
        ∧ (e.onProposal (S.env 100) p).2.proposals.get p.round = some p)
      && log.any (isCommit fun h _ b _ =>
        decide (h < p.height ∧ p.block.header.timestamp < b.header.timestamp)))
    (by decide +kernel)
  obtain ⟨hstored, hany⟩ := Bool.and_eq_true_iff.mp hp
  obtain ⟨hnone, hsome⟩ := of_decide_eq_true hstored
  obtain ⟨h, r, b, bh, hmem, hb⟩ := exists_commit_of_any hany
  obtain ⟨hheight, hold⟩ := of_decide_eq_true hb
  exact ⟨Crypto.plain, _, _, _, _, _, e, log, h, r, b, bh, S.env 100, p, hrun, hmem, hheight, hold,
    hnone, hsome⟩

/-- A check that suffices: every precommit counted so far is of a round at which the engine has
    signed one, and its own stake is no quorum. -/
def noneCompletes (env : Env) (e : ConsensusEngine) : Bool :=
  (e.precommits.votes.keys ++ e.precommits.power.keys).all
      (fun k => e.precommits.signedRounds.containsKey k.1)
    && !e.hasSupermajorityPower env (e.stakeOf env e.validatorPubkey)

theorem not_ownCompletes_of_check (h : noneCompletes env e = true) : ¬ e.OwnCompletes env := by
  obtain ⟨hkeys, hstake⟩ := Bool.and_eq_true_iff.mp h
  rintro ⟨r, bh, ⟨hunsigned, -, hquorum⟩, -⟩
  have hnone : (r, some bh) ∉ e.precommits.votes.keys ++ e.precommits.power.keys := by
    intro hmem
    have hsigned := List.all_eq_true.mp hkeys _ hmem
    rw [HashMap.containsKey, hunsigned] at hsigned
    exact Bool.false_ne_true hsigned
  rw [List.mem_append, not_or, HashMap.not_mem_keys_iff, HashMap.not_mem_keys_iff] at hnone
  unfold OwnQuorum Quorum bucketPower VoteTally.bucket VoteTally.withVote at hquorum
  unfold ConsensusEngine.stakeOf at hstake
  cases hp : e.eligibleStake env e.validatorPubkey with
  | none =>
    simp [hp, VoteTally.push, HashMap.entryPush, hnone.1, hnone.2, voterStake, stakeOf] at hquorum hstake
    exact absurd hquorum (by simpa using hstake)
  | some p =>
    simp [hp, VoteTally.push, VoteTally.addPower, HashMap.entryPush, HashMap.entryAdd, hnone.2] at hquorum hstake
    exact absurd hquorum (by simpa using hstake)

/-- The calls of the run below. -/
def keepsAndShort (e : ConsensusEngine) (c : Call) : Bool :=
  keepsTime e c && match c with
    | .op env (.createProposal _) | .op env (.onPrevote _) => noneCompletes env e
    | .op env (.onPrecommit v) =>
      (e.eligibleStake env v.validator).all fun power => noneCompletes env (e.recordPrecommit v power)
    | .op _ _ => false
    | _ => true

theorem ownShort_of_check [Crypto] (e : ConsensusEngine) (c : Call) (h : keepsAndShort e c = true) :
    c.KeepsTime e ∧ c.OwnShort e := by
  obtain ⟨hkeeps, hshort⟩ := Bool.and_eq_true_iff.mp h
  refine ⟨keepsTime_of_check e c hkeeps, ?_⟩
  cases c with
  | op env o =>
    cases o with
    | createProposal fresh =>
      exact fun _ block vr _ => not_ownCompletes_of_check (show noneCompletes env _ = true from hshort)
    | onPrevote v =>
      exact fun power _ _ _ => not_ownCompletes_of_check (show noneCompletes env _ = true from hshort)
    | onPrecommit v =>
      intro power _ hpower _ _
      dsimp only at hshort
      rw [hpower] at hshort
      exact not_ownCompletes_of_check hshort
    | _ => exact absurd hshort Bool.false_ne_true
  | _ => trivial

/-- The first of three commits a block of time 100 with the precommit of the second, and then
    refuses the third's block of time 0 at height 2. -/
theorem committed_time_monotone_trio : ∃ (_ : Crypto) (e : ConsensusEngine) (p : Proposal)
    (cache : HashMap (UInt64 × Hash) (Option Pubkey)), p.height = 2 ∧ e.height = 2
      ∧ e.onProposal (trioSetting.env 100) p = (.None, { e with leaderCache := cache }) := by
  let _ : Crypto := Crypto.plain
  let S := trioSetting
  let block := S.blockAt ⟨1⟩ ⟨1⟩ 100
  let p := { S with height := 2 }.proposalBy ⟨3⟩ 0 (S.blockBy ⟨3⟩ ⟨1⟩)
  obtain ⟨e, log, hrun, hp⟩ := Call.exists_runs_of_play ownShort_of_check trioNew
    [.startHeight 1, .rebuildPowerSnapshot S.validatorSet S.stakePool,
      .op (S.env 100) (.createProposal block),
      .op (S.env 100) (.onPrevote (S.prevoteBy ⟨2⟩ 0 (some block.hash))),
      .op (S.env 100) (.onPrecommit (S.precommitBy ⟨2⟩ 0 (some block.hash) 100)),
      .startHeight 2, .rebuildPowerSnapshot S.validatorSet S.stakePool]
    (fun e log => decide (e.height = 2) && log.any (isCommit fun _ _ b _ =>
      decide (p.block.header.timestamp < b.header.timestamp)))
    (by decide +kernel)
  obtain ⟨hheight, hany⟩ := Bool.and_eq_true_iff.mp hp
  obtain ⟨h, r, b, bh, hmem, hold⟩ := exists_commit_of_any hany
  obtain ⟨cache, hrefused⟩ := committed_time_monotone hrun hmem (S.env 100) p
    (of_decide_eq_true hold)
  exact ⟨Crypto.plain, e, p, cache, rfl, of_decide_eq_true hheight, hrefused⟩

end Lichen
