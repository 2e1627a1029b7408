/-
  One validator as a process: the engine, its write-ahead log and the loop between them
  (`execute_consensus_actions` and the startup recovery of `validator/src/main.rs`), at one height
  and through any number of crashes.

  The engine returns actions; the loop carries them out one by one, and a vote leaves the process
  only behind its record in the log.  A crash takes the engine, the log in memory and the actions
  not yet carried out, and leaves the file; the next process rebuilds its engine from what `open`
  finds there.  A crash inside an action is the action cut short — a write that failed, or a
  message that was not sent — with the crash after it: what the cut leaves in memory is lost.

  What the process has sent and which prevotes it has seen is kept through crashes, to state what
  it must not do.
-/
import Lichen.Validator.Agreement
import Lichen.Validator.Recovery
import Lichen.Validator.Slashable

open Base
namespace Lichen

/-! ## The log in memory and in the file -/

/-- How a write of an entry ends: `Ok`, and then it is durable, or with an error, and then the entry
    may still be found in the file. -/
inductive Write where
  | ok
  | failed (kept : Bool) (message : String)
  deriving DecidableEq

/-- The log as the process holds it, and the entries the next `open` will load. -/
structure Journal where
  wal : ConsensusWal
  disk : List WalEntry

namespace Journal

/-- `ConsensusWal::open`. -/
def load (disk : List WalEntry) : Journal := ⟨⟨disk⟩, disk⟩

/-- `append_result`. -/
def appendResult (j : Journal) (entry : WalEntry) : Write → Except String Unit × Journal
  | .ok => (.ok (), ⟨⟨j.wal.entries ++ [entry]⟩, j.disk ++ [entry]⟩)
  | .failed true message => (.error message, { j with disk := j.disk ++ [entry] })
  | .failed false message => (.error message, j)

def logHeightStartResult (j : Journal) (height : UInt64) (write : Write) :
    Except String Unit × Journal :=
  j.appendResult (.HeightStarted height) write

def logLockResult (j : Journal) (height : UInt64) (round : UInt32) (blockHash : Hash)
    (write : Write) : Except String Unit × Journal :=
  j.appendResult (.Locked height round blockHash) write

def logSignedVote (j : Journal) (record : SignedVoteRecord) (write : Write) :
    Except String Unit × Journal :=
  match j.wal.ensureNoConflictingSignedVote record with
  | .error e => (.error e, j)
  | .ok () => j.appendResult (.SignedVote record) write

section
variable [Crypto]

def logProposalBlockResult (j : Journal) (height : UInt64) (round : UInt32) (block : Block)
    (write : Write) : Except String Unit × Journal :=
  match j.wal.proposalBlockEntry height round block with
  | .error e => (.error e, j)
  | .ok none => (.ok (), j)
  | .ok (some entry) => j.appendResult entry write

/-- The block a vote is for is in the log; nil needs none. -/
def holdsVoted (j : Journal) (height : UInt64) (blockHash : Option Hash) : Bool :=
  blockHash.all fun bh => j.wal.hasProposalBlock height bh

/-- `execute_consensus_actions` for one action, up to the broadcast: whether it gets there, and what
    it wrote.  `write` and `write'` are how its first and its second write end.  Only proposals and
    votes are broadcast; a commit ends the height. -/
def executeConsensusActions (j : Journal) (own : Pubkey) (write write' : Write) :
    ConsensusAction → Bool × Journal
  | .BroadcastProposal p =>
    if p.proposer = own then
      match j.logProposalBlockResult p.height p.round p.block write with
      | (.ok _, j) => (true, j)
      | (.error _, j) => (false, j)
    else (true, j)
  | .BroadcastPrevote v =>
    if v.validator = own then
      if !j.holdsVoted v.height v.blockHash then (false, j)
      else match j.logSignedVote v.record write with
        | (.ok _, j) => (true, j)
        | (.error _, j) => (false, j)
    else (true, j)
  | .BroadcastPrecommit v =>
    if v.validator = own then
      if !j.holdsVoted v.height v.blockHash then (false, j)
      else match j.logSignedVote v.record write with
        | (.error _, j) => (false, j)
        | (.ok _, j) =>
          match v.blockHash with
          | none => (true, j)
          | some bh =>
            match j.logLockResult v.height v.round bh write' with
            | (.ok _, j) => (true, j)
            | (.error _, j) => (false, j)
    else (true, j)
  | _ => (false, j)

end
end Journal

/-! ## Startup -/

/-- What a validator runs with at the height: its key, the frozen set and pool, and the log it
    comes to the height with. -/
structure NodeConfig where
  keypair : Keypair
  chainId : ChainId
  minValidatorStake : UInt64
  timeouts : ConsensusTimeoutConfig
  validatorSet : ValidatorSet
  stakePool : StakePool
  height : UInt64
  log : List WalEntry
  /-- nothing in it is about this height -/
  earlier : ∀ x ∈ log, x.Before height

/-- The call that puts a recovered vote back; a precommit needs its timestamp. -/
def SignedVoteRecord.restore (own : Pubkey) (record : SignedVoteRecord) : Option Call :=
  if record.validator ≠ own then none
  else match record.voteType with
    | .Prevote => some (.restoreSignedPrevote record.height record.round record.blockHash
        record.signature)
    | .Precommit => record.timestamp.map fun timestamp =>
        .restoreSignedPrecommit record.height record.round record.blockHash record.signature
          timestamp

namespace WalRecovery

/-- The blocks, then the votes. -/
def restoreCalls (rec : WalRecovery) (own : Pubkey) : List Call :=
  rec.proposalBlocks.map (fun b => .restoreProposalBlock b.1 b.2.1 b.2.2)
    ++ rec.signedVotes.filterMap (SignedVoteRecord.restore own)

variable [Crypto]

/-- `missing_recovered_lock_value`: the recovered lock, if its block was not recovered. -/
def missingLockValue (rec : WalRecovery) : Option (UInt64 × Hash) :=
  match rec.lockedState with
  | none => none
  | some (height, _, blockHash) =>
    if rec.proposalBlocks.any fun b => decide (b.1 = height ∧ b.2.2.hash = blockHash) then none
    else some (height, blockHash)

end WalRecovery

/-- The validator as it runs. -/
structure Node where
  engine : ConsensusEngine
  journal : Journal
  lastWalLock : Option (UInt32 × Hash)
  /-- returned by the engine, still to be carried out -/
  pending : List ConsensusAction
  /-- broadcast so far, through all crashes -/
  sent : List ConsensusAction
  /-- the prevotes handed to the engine or signed by it, through all crashes -/
  heard : List Prevote

namespace NodeConfig

variable [Crypto]

def pubkey (c : NodeConfig) : Pubkey := Crypto.pubkey c.keypair

variable (c : NodeConfig) (rec : WalRecovery)

/-- The engine before anything is recovered. -/
def fresh : ConsensusEngine :=
  (ConsensusEngine.new c.keypair c.pubkey c.chainId c.minValidatorStake c.timeouts).startHeight
    c.height

/-- `restore_lock`, and `last_wal_lock`. -/
def restoredLock :
    ConsensusEngine × Option (UInt32 × Hash) :=
  match rec.lockedState with
  | some (height, round, blockHash) =>
    (c.fresh.restoreLock height round blockHash, some (round, blockHash))
  | none => (c.fresh, none)

/-- The engine with the lock, the blocks and the votes of the log. -/
def restored : ConsensusEngine :=
  (rec.restoreCalls c.pubkey).foldl Call.next (c.restoredLock rec).1

/-- A lock whose block is missing is released. -/
def released : ConsensusEngine × Option (UInt32 × Hash) :=
  match rec.missingLockValue with
  | none => (c.restored rec, (c.restoredLock rec).2)
  | some (height, blockHash) =>
    match (c.restored rec).releaseUnrecoverableLockWithoutValue height blockHash with
    | (true, e) => (e, none)
    | (false, e) => (e, (c.restoredLock rec).2)

/-- The engine goes on above every round of the height that the log knows of. -/
def resumed : ConsensusEngine :=
  match rec.maxRecoveredRoundForHeight c.height c.pubkey with
  | none => (c.released rec).1
  | some round =>
    (c.released rec).1.resumeAtRoundIfHigher (if round = MAX_ROUND then round else round + 1)

/-- A process that starts on a file with these entries. -/
def boot (disk : List WalEntry) (sent : List ConsensusAction)
    (heard : List Prevote) : Node :=
  let recovery := (Journal.load disk).wal.recover
  { engine := (c.resumed recovery).rebuildPowerSnapshot c.validatorSet c.stakePool
    journal := ((Journal.load disk).logHeightStartResult c.height .ok).2
    lastWalLock := (c.released recovery).2
    pending := []
    sent := sent
    heard := heard }

end NodeConfig

/-! ## The loop -/

/-- The prevotes among the actions. -/
def prevotesOf (actions : List ConsensusAction) : List Prevote :=
  actions.filterMap fun
    | .BroadcastPrevote v => some v
    | _ => none

/-- The prevote a call hands in. -/
def Op.prevotes : Op → List Prevote
  | .onPrevote v => [v]
  | _ => []

/-- What the loop does next, with what it cannot choose: the clock, the iteration orders, how the
    writes end, and whether a message is sent. -/
inductive Input where
  /-- `log_proposal_block_result`, before the proposal is handed to the engine -/
  | logProposal (p : Proposal) (write : Write)
  | call (clock : UInt32 → UInt64) (prevoteOrder precommitOrder : IterOrder (UInt32 × Option Hash))
      (op : Op)
  /-- the first pending action -/
  | execute (write write' : Write) (sends : Bool)
  /-- the lock is persisted at the end of a turn -/
  | persistLock (write : Write)
  | crash

namespace Node

variable [Crypto]

/-- A proposal is handed in once `log_proposal_block_result` has returned `Ok` for it. -/
def admits (s : Node) : Op → Bool
  | .onProposal p => (s.journal.wal.proposalBlock p.height p.round).any fun b =>
      b.hash == p.block.hash
  | _ => true

/-- One turn, if it is the loop's turn to do this: the next call waits for the pending actions. -/
def next (c : NodeConfig) (s : Node) : Input → Option Node
  | .logProposal p write =>
    if s.pending.isEmpty then
      some { s with journal := (s.journal.logProposalBlockResult p.height p.round p.block write).2 }
    else none
  | .call clock prevoteOrder precommitOrder op =>
    if s.pending.isEmpty && s.admits op then
      let (action, e) := op.run ⟨c.validatorSet, c.stakePool, clock, prevoteOrder, precommitOrder⟩
        s.engine
      some { s with
        engine := e
        pending := action.flatten
        heard := s.heard ++ op.prevotes ++ prevotesOf action.flatten }
    else none
  | .execute write write' sends =>
    match s.pending with
    | [] => none
    | action :: rest =>
      let (out, journal) := s.journal.executeConsensusActions c.pubkey write write' action
      some { s with
        journal := journal
        pending := rest
        sent := if out && sends then s.sent ++ [action] else s.sent }
  | .persistLock write =>
    if s.pending.isEmpty then
      match s.engine.lockedState with
      | none => some s
      | some lock =>
        if s.lastWalLock = some lock then some s
        else match s.journal.logLockResult s.engine.height lock.1 lock.2 write with
          | (.ok _, journal) => some { s with journal := journal, lastWalLock := some lock }
          -- the process exits, and is started again
          | (.error _, journal) => some (c.boot journal.disk s.sent s.heard)
    else none
  | .crash => some (c.boot s.journal.disk s.sent s.heard)

/-- The votes handed in under the validator's own key are ones it has sent: signatures are not
    forged. -/
def Unforged (c : NodeConfig) (s : Node) : Input → Prop
  | .call _ _ _ (.onPrevote v) => HeldPrevote c.chainId s.sent c.pubkey v
  | .call _ _ _ (.onPrecommit v) => HeldPrecommit c.chainId s.sent c.pubkey v
  | _ => True

end Node

namespace NodeConfig

variable [Crypto]

/-- The validator comes to the height. -/
def start (c : NodeConfig) : Node := c.boot c.log [] []

/-- The states the validator can be in, through states that all meet `ok`. -/
inductive Run (c : NodeConfig) (ok : Node → Prop) : Node → Prop
  | start : ok c.start → Run c ok c.start
  | next {s s' : Node} (input : Input) : Run c ok s → s.Unforged c input →
      s.next c input = some s' → ok s' → Run c ok s'

end NodeConfig
end Lichen
