/-
  The BFT consensus engine (`validator/src/consensus.rs`), a Tendermint-style state machine:
  Propose → Prevote → Precommit → Commit, over rounds within a height.

  The engine is pure in the source — methods take a message or a timeout and return the actions
  the caller has to execute — and is translated method by method, each one returning its action
  and the new state.  What a call reads besides the state is its `Env`: the validator set and the
  stake pool it is passed, the wall clock, and the order in which a `HashMap` happens to be
  iterated (two scans stop at the first match, so the order is an input).

  Heights and timestamps are `u64`, rounds `u32`, with the wrap-around arithmetic of a release
  build.  Voting power is a `u128` sum of `u64` stakes, which no set that fits in memory can
  overflow, and is a natural number here.  Log output is left out, except that `advances` records
  what `start_round` logs; no method reads it.

  The six maps the source keeps for each vote type are one `VoteTally`, used at both types.
-/
import Lichen.Validator.Power

open Base
namespace Lichen

/-! ## Data -/

structure ConsensusTimeoutConfig where
  proposeTimeoutBaseMs : UInt64
  prevoteTimeoutBaseMs : UInt64
  precommitTimeoutBaseMs : UInt64
  maxPhaseTimeoutMs : UInt64
  deriving DecidableEq, Repr

/-- `ConsensusTimeoutConfig::default()`. -/
def ConsensusTimeoutConfig.default : ConsensusTimeoutConfig := ⟨800, 500, 500, 5000⟩

/-- Votes are buffered for at most this many heights ahead. -/
def FUTURE_MSG_BUFFER_HEIGHTS : UInt64 := 10

def LEADER_CACHE_MAX_ENTRIES : Nat := 256

/-- What the engine asks its caller to do. -/
inductive ConsensusAction where
  | None
  | ScheduleTimeout (step : RoundStep) (durationMs : UInt64)
  | BroadcastProposal (proposal : Proposal)
  | BroadcastPrevote (prevote : Prevote)
  | BroadcastPrecommit (precommit : Precommit)
  | CommitBlock (height : UInt64) (round : UInt32) (block : Block) (blockHash : Hash)
  | RequestBlockRange (startSlot endSlot : UInt64) (blockHash : Hash)
  | Multiple (actions : List ConsensusAction)
  | EquivocationDetected (height : UInt64) (round : UInt32) (validator : Pubkey)
      (voteType : String) (hash1 hash2 : Option Hash) (offense : SlashingOffense)

namespace ConsensusAction

/-- `matches!(a, ConsensusAction::None)`. -/
def isNone : ConsensusAction → Bool
  | .None => true
  | _ => false

/-- No action, the single action, or all of them in order. -/
def ofList : List ConsensusAction → ConsensusAction
  | [] => .None
  | [a] => a
  | as => .Multiple as

mutual
/-- The single actions an action stands for, in execution order. -/
def flatten : ConsensusAction → List ConsensusAction
  | .None => []
  | .Multiple as => flattenAll as
  | .ScheduleTimeout s d => [.ScheduleTimeout s d]
  | .BroadcastProposal p => [.BroadcastProposal p]
  | .BroadcastPrevote v => [.BroadcastPrevote v]
  | .BroadcastPrecommit v => [.BroadcastPrecommit v]
  | .CommitBlock h r b bh => [.CommitBlock h r b bh]
  | .RequestBlockRange s t h => [.RequestBlockRange s t h]
  | .EquivocationDetected h r v t h1 h2 o => [.EquivocationDetected h r v t h1 h2 o]

def flattenAll : List ConsensusAction → List ConsensusAction
  | [] => []
  | a :: as => flatten a ++ flattenAll as
end
end ConsensusAction

/-- The votes of one type at the current height: `prevotes`, `prevote_power`, `prevote_any_power`,
    `seen_prevotes`, `seen_prevote_messages` and `signed_prevote_rounds`, or the precommit six. -/
structure VoteTally (V : Type) where
  /-- (round, hash or nil) to the validators that voted so -/
  votes : HashMap (UInt32 × Option Hash) (List Pubkey)
  /-- cached power per bucket -/
  power : HashMap (UInt32 × Option Hash) Nat
  /-- cached power per round, regardless of value -/
  anyPower : HashMap UInt32 Nat
  /-- (round, validator) to the hash voted for -/
  seen : HashMap (UInt32 × Pubkey) (Option Hash)
  /-- the signed messages behind `seen` -/
  messages : HashMap (UInt32 × Pubkey) V
  /-- rounds this validator has signed itself -/
  signedRounds : HashMap UInt32 (Option Hash)

namespace VoteTally

def empty : VoteTally V := ⟨∅, ∅, ∅, ∅, ∅, ∅⟩

variable (t : VoteTally V)

/-- The voters of a bucket. -/
def bucket (key : UInt32 × Option Hash) : List Pubkey := (t.votes.get key).getD []

/-- `add_prevote_power` / `add_precommit_power`. -/
def addPower (round : UInt32) (blockHash : Option Hash) (votingPower : UInt64) :
    VoteTally V :=
  { t with
    power := t.power.entryAdd (round, blockHash) votingPower.toNat
    anyPower := t.anyPower.entryAdd round votingPower.toNat }

/-- Remember that `validator` voted: the `seen` entry and the message. -/
def noteSeen (round : UInt32) (validator : Pubkey) (blockHash : Option Hash)
    (msg : V) : VoteTally V :=
  { t with
    seen := t.seen.put (round, validator) blockHash
    messages := t.messages.put (round, validator) msg }

/-- Put `validator` into the bucket. -/
def push (round : UInt32) (validator : Pubkey) (blockHash : Option Hash) :
    VoteTally V :=
  { t with votes := t.votes.entryPush (round, blockHash) validator }

/-- Remember that this validator signed `blockHash` at `round`. -/
def noteSigned (round : UInt32) (blockHash : Option Hash) : VoteTally V :=
  { t with signedRounds := t.signedRounds.put round blockHash }

/-- Count a vote: note it, put it in its bucket, and add its power if it has any. -/
def record (round : UInt32) (validator : Pubkey) (blockHash : Option Hash)
    (msg : V) (votingPower : Option UInt64) : VoteTally V :=
  let t := (t.noteSeen round validator blockHash msg).push round validator blockHash
  match votingPower with
  | some p => t.addPower round blockHash p
  | none => t

end VoteTally

/-! ## The engine's state -/

structure ConsensusEngine where
  keypair : Keypair
  validatorPubkey : Pubkey
  signingChainId : ChainId
  minValidatorStake : UInt64
  timeouts : ConsensusTimeoutConfig
  height : UInt64
  round : UInt32
  step : RoundStep
  lockedRound : Option UInt32
  lockedValue : Option Hash
  validRound : Option UInt32
  validValue : Option Block
  proposals : HashMap UInt32 Proposal
  proposalBlocks : HashMap Hash Block
  prevotes : VoteTally Prevote
  precommits : VoteTally Precommit
  precommitSigs : HashMap (UInt32 × Pubkey) (PqSignature × UInt64)
  lastCommittedBlockTimestamp : Option UInt64
  futurePrevotes : HashMap UInt64 (List Prevote)
  futurePrecommits : HashMap UInt64 (List Precommit)
  powerSnapshot : Option ConsensusPowerSnapshot
  leaderCache : HashMap (UInt64 × Hash) (Option Pubkey)
  /-- every `start_round` of this height, as (round left, round entered) -/
  advances : List (UInt32 × UInt32)

/-- What a call reads besides the engine: the caller's validator set and stake pool, the wall clock
    in seconds (one call can sign in several rounds, so it is given per round), and the order in
    which the two vote maps are iterated. -/
structure Env where
  validatorSet : ValidatorSet
  stakePool : StakePool
  clock : UInt32 → UInt64
  prevoteOrder : IterOrder (UInt32 × Option Hash)
  precommitOrder : IterOrder (UInt32 × Option Hash)

/-- A fixed clock, and maps iterated as they are stored. -/
def Env.plain (vs : ValidatorSet) (pool : StakePool) (now : UInt64) : Env :=
  ⟨vs, pool, fun _ => now, default, default⟩

namespace ConsensusEngine

/-- `new_with_chain_id_min_stake_and_timeouts`. -/
def new (keypair : Keypair) (validatorPubkey : Pubkey) (signingChainId : ChainId)
    (minValidatorStake : UInt64) (timeouts : ConsensusTimeoutConfig) : ConsensusEngine where
  keypair := keypair
  validatorPubkey := validatorPubkey
  signingChainId := signingChainId
  minValidatorStake := minValidatorStake
  timeouts := timeouts
  height := 0
  round := 0
  step := .Commit
  lockedRound := none
  lockedValue := none
  validRound := none
  validValue := none
  proposals := ∅
  proposalBlocks := ∅
  prevotes := .empty
  precommits := .empty
  precommitSigs := ∅
  lastCommittedBlockTimestamp := none
  futurePrevotes := ∅
  futurePrecommits := ∅
  powerSnapshot := none
  leaderCache := ∅
  advances := []

section
variable (e : ConsensusEngine) (env : Env)

/-- `start_height`: per-height state is reset, buffers keep what is not below the new height. -/
def startHeight (height : UInt64) : ConsensusEngine :=
  { e with
    height := height
    round := 0
    step := .Propose
    lockedRound := none
    lockedValue := none
    validRound := none
    validValue := none
    proposals := ∅
    proposalBlocks := ∅
    prevotes := .empty
    precommits := .empty
    precommitSigs := ∅
    powerSnapshot := none
    leaderCache := ∅
    futurePrevotes := e.futurePrevotes.retainKeys fun h => decide (height ≤ h)
    futurePrecommits := e.futurePrecommits.retainKeys fun h => decide (height ≤ h)
    advances := [] }

/-! ### Voting power -/

def eligibleStake (e : ConsensusEngine) (env : Env) (validator : Pubkey) : Option UInt64 :=
  match e.powerSnapshot with
  | some snapshot => snapshot.eligibleStake validator
  | none =>
    match env.validatorSet.getValidator validator with
    | none => none
    | some info =>
      if info.pendingActivation then none
      else match (env.stakePool.getStake validator).map StakeInfo.totalStake with
        | none => none
        | some stake => if stake < e.minValidatorStake then none else some stake

/-- The voting power of `validator` as a number, nothing if it is not eligible. -/
def stakeOf (validator : Pubkey) : Nat :=
  ((e.eligibleStake env validator).map UInt64.toNat).getD 0

def voterStake (voters : List Pubkey) : Nat :=
  (voters.map (e.stakeOf env)).sum

def totalEligibleStake (e : ConsensusEngine) (env : Env) : Nat :=
  match e.powerSnapshot with
  | some snapshot => snapshot.totalEligibleStake
  | none => e.voterStake env (env.validatorSet.sortedValidators.map ValidatorInfo.pubkey)

/-- 2/3 threshold: `vote_power * 3 >= total_eligible_stake * 2`. -/
def hasSupermajorityPower (votePower : Nat) : Bool :=
  decide (0 < e.totalEligibleStake env) && decide (e.totalEligibleStake env * 2 ≤ votePower * 3)

def hasSupermajorityVoters (voters : List Pubkey) : Bool :=
  e.hasSupermajorityPower env (e.voterStake env voters)

/-- The cached power of a bucket, recomputed if there is no cache entry. -/
def bucketPower {V : Type} (e : ConsensusEngine) (env : Env) (t : VoteTally V)
    (key : UInt32 × Option Hash) : Nat :=
  (t.power.get key).getD (e.voterStake env (t.bucket key))

/-- `has_polka_for`: recomputed from the voters, not from the cache. -/
def hasPolkaFor (round : UInt32) (blockHash : Option Hash) :
    Bool :=
  match e.prevotes.votes.get (round, blockHash) with
  | some voters => e.hasSupermajorityVoters env voters
  | none => false

/-- `has_any_supermajority_prevotes` / `_precommits`. -/
def hasAnySupermajority {V : Type} (e : ConsensusEngine) (env : Env) (t : VoteTally V)
    (round : UInt32) : Bool :=
  e.hasSupermajorityPower env ((t.anyPower.get round).getD
    (e.voterStake env ((t.seen.keys.filter fun k => k.1 == round).map Prod.snd)))

/-- The scan for a block with 2/3 of the votes at `round`, in iteration order. -/
def findQuorum {V : Type} (e : ConsensusEngine) (env : Env) (t : VoteTally V)
    (order : IterOrder (UInt32 × Option Hash)) (round : UInt32) : Option Hash :=
  (order.arrange t.votes.keys).findSome? fun key =>
    if key.1 = round ∧ e.hasSupermajorityPower env (e.bucketPower env t key) then key.2 else none

/-- `rebuild_vote_power_tallies`, for one vote type. -/
def rebuildTally {V : Type} (snapshot : ConsensusPowerSnapshot) (t : VoteTally V) : VoteTally V :=
  { t with
    power := t.votes.keys.foldl
      (fun m key => m.put key ((t.bucket key).map (powerIn snapshot.eligiblePower)).sum) ∅
    anyPower := t.seen.keys.foldl
      (fun m k => match snapshot.eligibleStake k.2 with
        | some power => m.entryAdd k.1 power.toNat
        | none => m) ∅ }

def rebuildPowerSnapshot (vs : ValidatorSet) (pool : StakePool) :
    ConsensusEngine :=
  let snapshot := ConsensusPowerSnapshot.build vs pool e.minValidatorStake
  { e with
    leaderCache := ∅
    powerSnapshot := some snapshot
    prevotes := rebuildTally snapshot e.prevotes
    precommits := rebuildTally snapshot e.precommits }

/-! ### Timeouts and rounds -/

/-- `base × 1.5^round` in integer steps, capped. -/
def exponentialTimeout (baseMs : UInt64) (round : UInt32) (maxTimeoutMs : UInt64) : UInt64 :=
  min ((fun timeout => min (timeout * 3 / 2) maxTimeoutMs)^[(min round 20).toNat] baseMs)
    maxTimeoutMs

def proposeTimeout : UInt64 :=
  exponentialTimeout e.timeouts.proposeTimeoutBaseMs e.round e.timeouts.maxPhaseTimeoutMs

def prevoteTimeout : UInt64 :=
  exponentialTimeout e.timeouts.prevoteTimeoutBaseMs e.round e.timeouts.maxPhaseTimeoutMs

def precommitTimeout : UInt64 :=
  exponentialTimeout e.timeouts.precommitTimeoutBaseMs e.round e.timeouts.maxPhaseTimeoutMs

/-- `start_round`, up to the timeout it schedules. -/
def enterRound (round : UInt32) : ConsensusEngine :=
  { e with round := round, step := .Propose, advances := e.advances ++ [(e.round, round)] }

def startRound (round : UInt32) : ConsensusAction × ConsensusEngine :=
  (.ScheduleTimeout .Propose (e.enterRound round).proposeTimeout, e.enterRound round)

def resumeAtRoundIfHigher (targetRound : UInt32) : ConsensusEngine :=
  if targetRound ≤ e.round then e else { e with round := targetRound, step := .Propose }

def resumeAfterRecoveredRound (recoveredRound : UInt32) : ConsensusEngine :=
  e.resumeAtRoundIfHigher
    (if recoveredRound = UInt32.ofNat (2 ^ 32 - 1) then recoveredRound else recoveredRound + 1)

/-- The transitions `transition_to` lets through. -/
def validTransition : RoundStep → RoundStep → Bool
  | .Propose, .Prevote | .Prevote, .Precommit | .Precommit, .Commit | .Propose, .Commit
  | .Prevote, .Commit | .Prevote, .Prevote | .Precommit, .Precommit => true
  | _, _ => false

def setStep (newStep : RoundStep) : ConsensusEngine :=
  { e with step := newStep }

def transitionTo (newStep : RoundStep) : ConsensusEngine :=
  if validTransition e.step newStep then e.setStep newStep else e

end

/-! ### Leader election -/

def leaderSelectionSlot (height : UInt64) (round : UInt32) : UInt64 :=
  saturatingAdd height round.toUInt64

variable [Crypto]

section
variable (e : ConsensusEngine) (env : Env)

def expectedLeaderCached (leaderSlot : UInt64)
    (parentHash : Hash) : Option Pubkey × ConsensusEngine :=
  match e.leaderCache.get (leaderSlot, parentHash) with
  | some leader => (leader, e)
  | none =>
    let leader := env.validatorSet.selectLeaderWeighted leaderSlot env.stakePool
      parentHash.bytes e.minValidatorStake
    let cache := if LEADER_CACHE_MAX_ENTRIES ≤ e.leaderCache.keys.length then ∅ else e.leaderCache
    (leader, { e with leaderCache := cache.put (leaderSlot, parentHash) leader })

def isProposer (parentHash : Hash) : Bool × ConsensusEngine :=
  let (leader, e) := e.expectedLeaderCached env (leaderSelectionSlot e.height e.round) parentHash
  (decide (leader = some e.validatorPubkey), e)

/-! ### Committing -/

def collectCommitSignatures (round : UInt32) (blockHash : Hash) :
    List CommitSignature :=
  ((e.precommits.bucket (round, some blockHash)).filter
      fun pk => (e.eligibleStake env pk).isSome).filterMap
    fun pk => (e.precommitSigs.get (round, pk)).map fun s => ⟨pk, s.1, s.2⟩

/-- The block as committed: with the round and the signatures of its certificate. -/
def committedBlock (round : UInt32) (bh : Hash) (block : Block) :
    Block :=
  { block with
    commitRound := round
    commitSignatures := e.collectCommitSignatures env round bh }

def commitAction (round : UInt32) (bh : Hash) (block : Block) :
    ConsensusAction :=
  .CommitBlock e.height round (e.committedBlock env round bh block) bh

/-! ### Signing -/

/-- The precommit this validator signs at its round. -/
def ownPrecommit (blockHash : Option Hash) : Precommit where
  height := e.height
  round := e.round
  blockHash := blockHash
  validator := e.validatorPubkey
  signature := Crypto.sign e.keypair (Precommit.signingBytesForChainId e.signingChainId e.height
    e.round blockHash (env.clock e.round))
  timestamp := env.clock e.round

/-- Sign a precommit and count it. -/
def recordOwnPrecommit (blockHash : Option Hash) :
    ConsensusEngine :=
  let precommit := e.ownPrecommit env blockHash
  { e with
    precommits := (e.precommits.noteSigned e.round blockHash).record e.round e.validatorPubkey
      blockHash precommit (e.eligibleStake env e.validatorPubkey)
    precommitSigs := e.precommitSigs.put (e.round, e.validatorPubkey)
      (precommit.signature, precommit.timestamp) }

/-- `do_precommit`: at most one precommit a round; our own vote may complete the commit, or the
    nil quorum that ends the round. -/
def doPrecommit (blockHash : Option Hash) :
    ConsensusAction × ConsensusEngine :=
  if e.precommits.signedRounds.containsKey e.round then (.None, e)
  else
    let broadcast := ConsensusAction.BroadcastPrecommit (e.ownPrecommit env blockHash)
    let e := e.recordOwnPrecommit env blockHash
    match blockHash with
    | some bh =>
      let hasCommit := e.hasSupermajorityPower env (e.bucketPower env e.precommits (e.round, some bh))
      match if hasCommit then e.proposalBlocks.get bh else none with
      | some block =>
        let e := e.transitionTo .Commit
        (.Multiple [broadcast, e.commitAction env e.round bh block], e)
      | none => (broadcast, e)
    | none =>
      if e.hasSupermajorityPower env (e.bucketPower env e.precommits (e.round, none)) then
        let (advance, e) := e.startRound (e.round + 1)
        (.Multiple [broadcast, advance], e)
      else (broadcast, e)

/-- The polka update: valid and locked value move to `bh`. -/
def setLock (bh : Hash) : ConsensusEngine :=
  { e with
    validRound := some e.round
    validValue := match e.proposalBlocks.get bh with
      | some block => some block
      | none => e.validValue
    lockedRound := some e.round
    lockedValue := some bh }

/-- What a polka for `bh` does: lock, and go to Precommit. -/
def lockOn (bh : Hash) : ConsensusEngine :=
  (e.setLock bh).transitionTo .Precommit

/-- The prevote this validator signs at its round. -/
def ownPrevote (blockHash : Option Hash) : Prevote where
  height := e.height
  round := e.round
  blockHash := blockHash
  validator := e.validatorPubkey
  signature := Crypto.sign e.keypair (Prevote.signingBytesForChainId e.signingChainId e.height
    e.round blockHash)

/-- Sign a prevote and count it. -/
def recordOwnPrevote (blockHash : Option Hash) :
    ConsensusEngine :=
  { e with
    prevotes := (e.prevotes.noteSigned e.round blockHash).record e.round e.validatorPubkey
      blockHash (e.ownPrevote blockHash) (e.eligibleStake env e.validatorPubkey) }

/-- `do_prevote`: at most one prevote a round; our own vote may complete the polka. -/
def doPrevote (blockHash : Option Hash) :
    ConsensusAction × ConsensusEngine :=
  if e.prevotes.signedRounds.containsKey e.round then (.None, e)
  else
    let e := e.transitionTo .Prevote
    let broadcast := ConsensusAction.BroadcastPrevote (e.ownPrevote blockHash)
    let e := e.recordOwnPrevote env blockHash
    if e.hasSupermajorityPower env (e.bucketPower env e.prevotes (e.round, blockHash)) then
      let e := match blockHash with
        | some bh => e.lockOn bh
        | none => e.transitionTo .Precommit
      let (precommitAction, e) := e.doPrecommit env blockHash
      (.Multiple [broadcast, precommitAction], e)
    else (broadcast, e)

/-! ### Prevoting a proposal -/

/-- The Tendermint prevote rule: not locked, locked on this block, or released by a polka for this
    block at a round above the lock. -/
def shouldPrevoteProposalBlock (proposal : Proposal)
    (blockHash : Hash) : Bool :=
  if e.lockedRound = none ∨ e.lockedValue = some blockHash then true
  else if 0 ≤ proposal.validRound then
    let vr := proposal.validRound.toUInt32
    match e.lockedRound with
    | some lr => decide (lr < vr) && e.hasPolkaFor env vr (some blockHash)
    | none => e.hasPolkaFor env vr (some blockHash)
  else false

def prevoteForCurrentRoundProposal (proposal : Proposal) :
    ConsensusAction × ConsensusEngine :=
  if proposal.height ≠ e.height ∨ proposal.round ≠ e.round ∨ e.step ≠ .Propose then (.None, e)
  else if e.shouldPrevoteProposalBlock env proposal proposal.block.hash then
    e.doPrevote env (some proposal.block.hash)
  else e.doPrevote env none

def processCurrentRoundProposalIfPresent :
    ConsensusAction × ConsensusEngine :=
  if e.step ≠ .Propose then (.None, e)
  else match e.proposals.get e.round with
    | none => (.None, e)
    | some proposal => e.prevoteForCurrentRoundProposal env proposal

/-! ### Round skip -/

/-- The (round, voter) pairs of all votes seen for rounds above ours. -/
def futureKeys : List (UInt32 × Pubkey) :=
  (e.prevotes.seen.keys ++ e.precommits.seen.keys).filter fun k => decide (e.round < k.1)

/-- The highest round any of them is for. -/
def maxRound : UInt32 :=
  e.futureKeys.foldl (fun m k => if m < k.1 then k.1 else m) e.round

/-- The stake that voted above our round, each voter once. -/
def futureStake : Nat :=
  e.voterStake env (e.futureKeys.map Prod.snd).dedup

end

/-- The fast catch-up loop: prevote the stored proposal and stop, else prevote nil, and go on as
    long as that completes a nil commit. -/
def catchUp (env : Env) : Nat → ConsensusEngine → List ConsensusAction × ConsensusEngine
  | 0, e => ([], e)
  | fuel + 1, e =>
    match e.proposals.get e.round with
    | some proposal =>
      let (a, e') := e.prevoteForCurrentRoundProposal env proposal
      ([a], e')
    | none =>
      let (a, e') := e.doPrevote env none
      if e.round < e'.round then
        let (as, e'') := catchUp env fuel e'
        (a :: as, e'')
      else ([a], e')

section
variable (e : ConsensusEngine) (env : Env)

def checkRoundSkip : ConsensusAction × ConsensusEngine :=
  if e.totalEligibleStake env = 0 then (.None, e)
  else if e.maxRound = e.round then (.None, e)
  else if e.totalEligibleStake env < e.futureStake env * 3 then
    let (skipAction, e') := e.startRound e.maxRound
    let (actions, e'') := catchUp env 100 e'
    (.ofList (skipAction :: actions), e'')
  else (.None, e)

/-- The skip check both vote handlers end with. -/
def skipRule (round : UInt32) :
    List ConsensusAction × ConsensusEngine :=
  if e.round < round then
    let (skip, e') := e.checkRoundSkip env
    (if skip.isNone then [] else [skip], e')
  else ([], e)

/-! ### Proposals -/

/-- What `create_proposal` proposes: the locked block, the valid block, or the fresh one.  `none`
    when the engine is locked on a block it does not have. -/
def proposalBlock (freshBlock : Block) : Option (Block × Int32) :=
  match e.lockedValue with
  | some lockedHash =>
    match (match e.validValue.filter fun block => block.hash == lockedHash with
      | some block => some block
      | none => e.proposalBlocks.get lockedHash) with
    | some block => some (block, (e.lockedRound.map UInt32.toInt32).getD (-1))
    | none => none
  | none =>
    match e.validValue with
    | some vb => some (vb, (e.validRound.map UInt32.toInt32).getD (-1))
    | none => some (freshBlock, -1)

/-- The signed proposal of `block` at our round. -/
def ownProposal (block : Block) (validRound : Int32) : Proposal where
  height := e.height
  round := e.round
  block := block
  validRound := validRound
  proposer := e.validatorPubkey
  signature := Crypto.sign e.keypair (Proposal.signingBytesStaticForChainId e.signingChainId
    e.height e.round block.hash validRound)

/-- Store a proposal and its block. -/
def storeProposal (proposal : Proposal) : ConsensusEngine :=
  { e with
    proposalBlocks := e.proposalBlocks.put proposal.block.hash proposal.block
    proposals := e.proposals.put proposal.round proposal }

def createProposal (freshBlock : Block) :
    ConsensusAction × ConsensusEngine :=
  if e.step ≠ .Propose then (.None, e)
  else match e.proposalBlock freshBlock with
    | none => (.ScheduleTimeout .Propose e.proposeTimeout, e)
    | some (block, validRound) =>
      let proposal := e.ownProposal block validRound
      let (prevoteAction, e') := (e.storeProposal proposal).doPrevote env (some block.hash)
      (.Multiple [.BroadcastProposal ((e'.proposals.get e'.round).getD proposal), prevoteAction], e')

/-- The block moves time backwards from the last committed block. -/
def timestampTooOld (proposedTs : UInt64) : Bool :=
  match e.lastCommittedBlockTimestamp with
  | some parentTs => decide (proposedTs < parentTs)
  | none => false

/-- `on_proposal`, after the leader of the proposal's round has been looked up. -/
def acceptProposal (proposal : Proposal)
    (expectedLeader : Option Pubkey) : ConsensusAction × ConsensusEngine :=
  if expectedLeader ≠ some proposal.proposer then (.None, e)
  else if !proposal.block.verifySignatureWithChainId e.signingChainId then (.None, e)
  else if e.timestampTooOld proposal.block.header.timestamp then (.None, e)
  else if env.clock e.round + 30 < proposal.block.header.timestamp then (.None, e)
  else
    let e := e.storeProposal proposal
    -- a proposal for a later round is only stored
    if e.round < proposal.round then (.None, e)
    else if e.step ≠ .Propose then (.None, e)
    else e.prevoteForCurrentRoundProposal env proposal

/-- `on_proposal`. -/
def onProposal (proposal : Proposal) :
    ConsensusAction × ConsensusEngine :=
  if e.height < proposal.height then (.None, e)
  else if proposal.height < e.height then (.None, e)
  else if proposal.round < e.round then (.None, e)
  else if !proposal.verifySignatureWithChainId e.signingChainId then (.None, e)
  else
    let (expectedLeader, e) := e.expectedLeaderCached env
      (leaderSelectionSlot e.height proposal.round) proposal.block.header.parentHash
    e.acceptProposal env proposal expectedLeader

/-! ### Prevotes -/

/-- Rule 1: a polka for a block at our round locks us on it. -/
def prevoteRule1 (round : UInt32) :
    List ConsensusAction × ConsensusEngine :=
  if round = e.round ∧ e.step = .Prevote then
    match e.findQuorum env e.prevotes env.prevoteOrder round with
    | some bh =>
      let (a, e') := (e.lockOn bh).doPrecommit env (some bh)
      ([a], e')
    | none => ([], e)
  else ([], e)

/-- Rule 2: a nil polka at our round. -/
def prevoteRule2 (round : UInt32) :
    List ConsensusAction × ConsensusEngine :=
  if round = e.round ∧ e.step = .Prevote
      ∧ e.hasSupermajorityPower env (e.bucketPower env e.prevotes (round, none)) then
    let (a, e') := (e.transitionTo .Precommit).doPrecommit env none
    ([a], e')
  else ([], e)

/-- Rule 3: 2/3 prevotes for anything start the prevote timeout. -/
def prevoteRule3 (round : UInt32) : List ConsensusAction :=
  if round = e.round ∧ e.step = .Prevote ∧ e.hasAnySupermajority env e.prevotes round then
    [.ScheduleTimeout .Prevote e.prevoteTimeout]
  else []

/-- The rules a newly counted prevote at `round` can trigger. -/
def prevoteRules (round : UInt32) :
    ConsensusAction × ConsensusEngine :=
  let (a1, e) := e.prevoteRule1 env round
  let (a2, e) := e.prevoteRule2 env round
  let a3 := e.prevoteRule3 env round
  let (a4, e) := e.skipRule env round
  (.ofList (a1 ++ a2 ++ a3 ++ a4), e)

/-- Keep a vote for one of the next heights, to be replayed there. -/
def bufferPrevote (prevote : Prevote) : ConsensusEngine :=
  if prevote.height ≤ e.height + FUTURE_MSG_BUFFER_HEIGHTS then
    { e with futurePrevotes := e.futurePrevotes.entryPush prevote.height prevote }
  else e

/-- A second vote of one validator at one round: evidence if it differs from the first. -/
def prevoteEquivocation (prevote : Prevote) (existingHash : Option Hash) :
    ConsensusAction :=
  if existingHash ≠ prevote.blockHash then
    match e.prevotes.messages.get (prevote.round, prevote.validator) with
    | some existingVote => .EquivocationDetected e.height prevote.round prevote.validator "prevote"
        existingHash prevote.blockHash (.DoublePrevoteV2 existingVote prevote)
    | none => .None
  else .None

/-- Count a received prevote. -/
def recordPrevote (prevote : Prevote) (voterPower : UInt64) :
    ConsensusEngine :=
  { e with
    prevotes := e.prevotes.record prevote.round prevote.validator prevote.blockHash prevote
      (some voterPower) }

/-- `on_prevote`. -/
def onPrevote (prevote : Prevote) :
    ConsensusAction × ConsensusEngine :=
  if e.height < prevote.height then (.None, e.bufferPrevote prevote)
  else if prevote.height < e.height then (.None, e)
  else if !prevote.verifySignatureWithChainId e.signingChainId then (.None, e)
  else match e.eligibleStake env prevote.validator with
    | none => (.None, e)
    | some voterPower =>
      match e.prevotes.seen.get (prevote.round, prevote.validator) with
      | some existingHash => (e.prevoteEquivocation prevote existingHash, e)
      | none => (e.recordPrevote prevote voterPower).prevoteRules env prevote.round

/-! ### Precommits -/

/-- Rules 2 and 3 and the skip check, after the commit rule has pushed `actions`. -/
def precommitRest (round : UInt32)
    (actions : List ConsensusAction) : ConsensusAction × ConsensusEngine :=
  if round = e.round ∧ e.hasSupermajorityPower env (e.bucketPower env e.precommits (round, none))
  then e.startRound (round + 1)
  else
    let a3 := if round = e.round ∧ e.step = .Precommit
        ∧ e.hasAnySupermajority env e.precommits round
      then [ConsensusAction.ScheduleTimeout .Precommit e.precommitTimeout] else []
    let (a4, e') := e.skipRule env round
    (.ofList (actions ++ a3 ++ a4), e')

def setLastCommitted (timestamp : UInt64) : ConsensusEngine :=
  { e with lastCommittedBlockTimestamp := some timestamp }

/-- The rules a newly counted precommit at `round` can trigger: 2/3 precommits for a block we
    have commit it, whatever our own round. -/
def precommitRules (round : UInt32) :
    ConsensusAction × ConsensusEngine :=
  match e.findQuorum env e.precommits env.precommitOrder round with
  | some bh =>
    match e.proposalBlocks.get bh with
    | some block =>
      let e' := (e.transitionTo .Commit).setLastCommitted block.header.timestamp
      (e'.commitAction env round bh block, e')
    | none => e.precommitRest env round [.RequestBlockRange e.height e.height bh]
  | none => e.precommitRest env round []

def bufferPrecommit (precommit : Precommit) : ConsensusEngine :=
  if precommit.height ≤ e.height + FUTURE_MSG_BUFFER_HEIGHTS then
    { e with futurePrecommits := e.futurePrecommits.entryPush precommit.height precommit }
  else e

def precommitEquivocation (precommit : Precommit)
    (existingHash : Option Hash) : ConsensusAction :=
  if existingHash ≠ precommit.blockHash then
    match e.precommits.messages.get (precommit.round, precommit.validator) with
    | some existingVote => .EquivocationDetected e.height precommit.round precommit.validator
        "precommit" existingHash precommit.blockHash (.DoublePrecommitV2 existingVote precommit)
    | none => .None
  else .None

/-- Count a received precommit and keep its signature for the certificate. -/
def recordPrecommit (precommit : Precommit) (voterPower : UInt64) :
    ConsensusEngine :=
  { e with
    precommits := e.precommits.record precommit.round precommit.validator precommit.blockHash
      precommit (some voterPower)
    precommitSigs := e.precommitSigs.put (precommit.round, precommit.validator)
      (precommit.signature, precommit.timestamp) }

/-- `on_precommit`. -/
def onPrecommit (precommit : Precommit) :
    ConsensusAction × ConsensusEngine :=
  if e.height < precommit.height then (.None, e.bufferPrecommit precommit)
  else if precommit.height < e.height then (.None, e)
  else if !precommit.verifySignatureWithChainId e.signingChainId then (.None, e)
  else match e.eligibleStake env precommit.validator with
    | none => (.None, e)
    | some voterPower =>
      match e.precommits.seen.get (precommit.round, precommit.validator) with
      | some existingHash => (e.precommitEquivocation precommit existingHash, e)
      | none =>
        if e.step = .Commit then (.None, e)
        else (e.recordPrecommit precommit voterPower).precommitRules env precommit.round

end

/-! ### Replay of buffered votes -/

/-- Handle the votes one after the other, keeping the actions that are not `None`. -/
def replay {V : Type} (handle : ConsensusEngine → V → ConsensusAction × ConsensusEngine) :
    List V → ConsensusEngine → List ConsensusAction × ConsensusEngine
  | [], e => ([], e)
  | v :: vs, e =>
    let (a, e') := handle e v
    let (as, e'') := replay handle vs e'
    (if a.isNone then as else a :: as, e'')

/-- `sort_by_key(|vote| Reverse(vote.round))`: stable, highest round first. -/
def byRoundDesc {V : Type} (round : V → UInt32) (votes : List V) : List V :=
  votes.insertionSort fun a b => round b ≤ round a

variable (e : ConsensusEngine) (env : Env)

def drainPrevotes : List ConsensusAction × ConsensusEngine :=
  match e.futurePrevotes.get e.height with
  | none => ([], e)
  | some votes => replay (fun e v => e.onPrevote env v) (byRoundDesc Prevote.round votes)
      { e with futurePrevotes := e.futurePrevotes.remove e.height }

/-- The height is the one `drain_future_messages` started at. -/
def drainPrecommits (height : UInt64) :
    List ConsensusAction × ConsensusEngine :=
  match e.futurePrecommits.get height with
  | none => ([], e)
  | some votes => replay (fun e v => e.onPrecommit env v) (byRoundDesc Precommit.round votes)
      { e with futurePrecommits := e.futurePrecommits.remove height }

def drainFutureMessages : ConsensusAction × ConsensusEngine :=
  let (a1, e1) := e.drainPrevotes env
  let (a2, e2) := e1.drainPrecommits env e.height
  (.ofList (a1 ++ a2), e2)

/-! ### Timeouts firing -/

/-- `on_timeout`. -/
def onTimeout (step : RoundStep) (timeoutRound : UInt32) :
    ConsensusAction × ConsensusEngine :=
  if timeoutRound ≠ e.round then (.None, e)
  else match step with
    | .Propose => if e.step = .Propose then e.doPrevote env none else (.None, e)
    | .Prevote =>
      if e.step = .Prevote then (e.transitionTo .Precommit).doPrecommit env none else (.None, e)
    | .Precommit => if e.step = .Precommit then e.startRound (e.round + 1) else (.None, e)
    | .Commit => (.None, e)

/-! ### Crash recovery -/

def restoreLock (height : UInt64) (round : UInt32) (blockHash : Hash) :
    ConsensusEngine :=
  if height = e.height then { e with lockedRound := some round, lockedValue := some blockHash }
  else e

def restoreProposalBlock (height : UInt64) (round : UInt32) (block : Block) :
    ConsensusEngine :=
  if height ≠ e.height then e
  else
    let e := { e with proposalBlocks := e.proposalBlocks.put block.hash block }
    if e.lockedValue = some block.hash then
      { e with validRound := some round, validValue := some block }
    else e

def releaseUnrecoverableLockWithoutValue (height : UInt64)
    (blockHash : Hash) : Bool × ConsensusEngine :=
  if height ≠ e.height ∨ e.lockedValue ≠ some blockHash then (false, e)
  else if e.proposalBlocks.containsKey blockHash then (false, e)
  else
    let e := { e with lockedRound := none, lockedValue := none }
    if (e.validValue.map fun block => block.hash == blockHash).getD false then
      (true, { e with validValue := none, validRound := none })
    else (true, e)

/-- Put a recovered own vote back: like `record`, but a vote already in its bucket is not counted
    again, and the power comes from the snapshot only. -/
def restoreVote {V : Type} (t : VoteTally V) (snapshot : Option ConsensusPowerSnapshot)
    (round : UInt32) (validator : Pubkey) (blockHash : Option Hash) (msg : V) : VoteTally V :=
  let t := (t.noteSigned round blockHash).noteSeen round validator blockHash msg
  if validator ∈ t.bucket (round, blockHash) then t
  else
    let t := t.push round validator blockHash
    match snapshot.bind fun s => s.eligibleStake validator with
    | some power => t.addPower round blockHash power
    | none => t

def restoreSignedPrevote (height : UInt64) (round : UInt32)
    (blockHash : Option Hash) (signature : PqSignature) : Except String Unit × ConsensusEngine :=
  if height ≠ e.height then (.ok (), e)
  else match e.prevotes.signedRounds.get round with
    | some existing =>
      if existing ≠ blockHash then
        (.error s!"conflicting recovered prevote for height={height} round={round}", e)
      else (.ok (), e)
    | none =>
      if !Crypto.verify e.validatorPubkey
          (Prevote.signingBytesForChainId e.signingChainId height round blockHash) signature then
        (.error s!"invalid recovered prevote signature for height={height} round={round}", e)
      else
        (.ok (), { e with
          prevotes := restoreVote e.prevotes e.powerSnapshot round e.validatorPubkey blockHash
            ⟨height, round, blockHash, e.validatorPubkey, signature⟩ })

def restoreSignedPrecommit (height : UInt64) (round : UInt32)
    (blockHash : Option Hash) (signature : PqSignature) (timestamp : UInt64) :
    Except String Unit × ConsensusEngine :=
  if height ≠ e.height then (.ok (), e)
  else match e.precommits.signedRounds.get round with
    | some existing =>
      if existing ≠ blockHash then
        (.error s!"conflicting recovered precommit for height={height} round={round}", e)
      else (.ok (), e)
    | none =>
      if !Crypto.verify e.validatorPubkey (Precommit.signingBytesForChainId e.signingChainId height
          round blockHash timestamp) signature then
        (.error s!"invalid recovered precommit signature for height={height} round={round}", e)
      else
        let e := { e with
          precommits := restoreVote e.precommits e.powerSnapshot round e.validatorPubkey blockHash
            ⟨height, round, blockHash, e.validatorPubkey, signature, timestamp⟩
          precommitSigs := e.precommitSigs.put (round, e.validatorPubkey) (signature, timestamp) }
        match blockHash with
        | some hash =>
          -- a precommit for a block implies the lock on it
          if e.lockedRound.all (fun lockedRound => decide (lockedRound ≤ round)) then
            (.ok (), { e with lockedRound := some round, lockedValue := some hash })
          else (.ok (), e)
        | none => (.ok (), e)

def lockedState : Option (UInt32 × Hash) :=
  match e.lockedRound, e.lockedValue with
  | some r, some h => some (r, h)
  | _, _ => none

end ConsensusEngine
end Lichen
