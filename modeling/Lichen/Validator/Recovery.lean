/-
  What the write-ahead log is asked while the validator runs, and what it gives back after a crash
  (the lookups and `recover` of `validator/src/wal.rs`).

  `recover` replays the entries in order and keeps the last lock, the signed votes and the blocks
  that no checkpoint has superseded.  A lock is what a `Locked` entry says, or a signed precommit
  for a block; the last `Locked` wins whatever its round.  `recover_spec` says what comes out for
  the height the log was written at: every vote, every block, and, if the rounds of the locks only
  grow along the log, a lock whose round is the highest.
-/
import Mathlib.Data.List.Induction
import Lichen.Validator.Wal

namespace Lichen
open ConsensusWal List

/-! ## Looking things up -/

/-- `{:?}` on a hash and on what a vote is for. -/
def Hash.debug (h : Hash) : String :=
  "Hash([" ++ ", ".intercalate (h.bytes.map fun b => toString b.toNat) ++ "])"

def debugVote : Option Hash → String
  | some h => "Some(" ++ h.debug ++ ")"
  | none => "None"

def SignedVoteType.debug : SignedVoteType → String
  | .Prevote => "Prevote"
  | .Precommit => "Precommit"

/-- The record `log_signed_prevote` writes. -/
def Prevote.record (v : Prevote) : SignedVoteRecord :=
  ⟨v.height, v.round, .Prevote, v.blockHash, v.validator, v.signature, none⟩

/-- The record `log_signed_precommit` writes. -/
def Precommit.record (v : Precommit) : SignedVoteRecord :=
  ⟨v.height, v.round, .Precommit, v.blockHash, v.validator, v.signature, some v.timestamp⟩

/-- The block of this hash is in the entry. -/
def WalEntry.holdsBlock [Crypto] (height : UInt64) (blockHash : Hash) : WalEntry → Bool
  | .ProposalBlock h _ block => h = height ∧ block.hash = blockHash
  | _ => false

namespace ConsensusWal

/-- The first record for the same vote. -/
def signedVote (wal : ConsensusWal) (record : SignedVoteRecord) : Option SignedVoteRecord :=
  wal.entries.findSome? fun
    | .SignedVote existing =>
      if existing.height = record.height ∧ existing.round = record.round
          ∧ existing.voteType = record.voteType ∧ existing.validator = record.validator then
        some existing
      else none
    | _ => none

def ensureNoConflictingSignedVote (wal : ConsensusWal) (record : SignedVoteRecord) :
    Except String Unit :=
  match wal.signedVote record with
  | none => .ok ()
  | some existing =>
    if existing.blockHash = record.blockHash ∧ existing.timestamp = record.timestamp then .ok ()
    else .error ("WAL slashing protection: refusing conflicting " ++ record.voteType.debug
      ++ " for height=" ++ toString record.height ++ " round=" ++ toString record.round
      ++ " (existing=" ++ debugVote existing.blockHash ++ ", new=" ++ debugVote record.blockHash
      ++ ")")

/-- The first block logged for a height and round. -/
def proposalBlock (wal : ConsensusWal) (height : UInt64) (round : UInt32) : Option Block :=
  wal.entries.findSome? fun
    | .ProposalBlock h r block => if h = height ∧ r = round then some block else none
    | _ => none

section
variable [Crypto]

/-- What `log_proposal_block_result` has to append: nothing, if this block is there already. -/
def proposalBlockEntry (wal : ConsensusWal) (height : UInt64) (round : UInt32) (block : Block) :
    Except String (Option WalEntry) :=
  match wal.proposalBlock height round with
  | none => .ok (some (.ProposalBlock height round block))
  | some existing =>
    if existing.hash = block.hash then .ok none
    else .error ("WAL proposal protection: refusing conflicting proposal block for height="
      ++ toString height ++ " round=" ++ toString round)

def hasProposalBlock (wal : ConsensusWal) (height : UInt64) (blockHash : Hash) : Bool :=
  wal.entries.any (WalEntry.holdsBlock height blockHash)

end
end ConsensusWal

/-! ## Replay -/

/-- `WalRecovery`. -/
structure WalRecovery where
  lockedState : Option (UInt64 × UInt32 × Hash)
  lastCheckpoint : Option UInt64
  lastHeightStarted : Option UInt64
  signedVotes : List SignedVoteRecord
  proposalBlocks : List (UInt64 × UInt32 × Block)

namespace WalRecovery

/-- `last_checkpoint.is_none_or(|cp| height > cp)`. -/
def current (rec : WalRecovery) (height : UInt64) : Bool :=
  rec.lastCheckpoint.all fun cp => decide (cp < height)

/-- The lock after a signed vote: a precommit for a block replaces one that is not above it. -/
def impliedLock (lock : Option (UInt64 × UInt32 × Hash)) (record : SignedVoteRecord) :
    Option (UInt64 × UInt32 × Hash) :=
  match record.voteType, record.blockHash with
  | .Precommit, some blockHash =>
    if lock.all fun l => decide (l.1 < record.height ∨ record.height = l.1 ∧ l.2.1 ≤ record.round)
    then some (record.height, record.round, blockHash)
    else lock
  | _, _ => lock

/-- One entry of the loop. -/
def replay (rec : WalRecovery) : WalEntry → WalRecovery
  | .HeightStarted height => { rec with lastHeightStarted := some height }
  | .Locked height round blockHash =>
    if rec.current height then { rec with lockedState := some (height, round, blockHash) } else rec
  | .CommitDecision _ _ _ => rec
  | .ProposalBlock height round block =>
    if rec.current height then
      { rec with proposalBlocks := rec.proposalBlocks ++ [(height, round, block)] }
    else rec
  | .SignedVote record =>
    if rec.current record.height then
      { rec with
        lockedState := impliedLock rec.lockedState record
        signedVotes := rec.signedVotes ++ [record] }
    else rec
  | .Checkpoint height =>
    { rec with
      lastCheckpoint := some height
      lockedState := rec.lockedState.filter fun l => decide (height < l.1)
      signedVotes := rec.signedVotes.filter fun record => decide (height < record.height)
      proposalBlocks := rec.proposalBlocks.filter fun b => decide (height < b.1) }

/-- `max_recovered_round_for_height`. -/
def maxRecoveredRoundForHeight (rec : WalRecovery) (height : UInt64) (validator : Pubkey) :
    Option UInt32 :=
  rec.signedVotes.foldl (fun maxRound record =>
      if record.height = height ∧ record.validator = validator then
        some (maxRound.elim record.round fun current => max current record.round)
      else maxRound)
    (rec.lockedState.bind fun l => if l.1 = height then some l.2.1 else none)

end WalRecovery

/-- `recover`. -/
def ConsensusWal.recover (wal : ConsensusWal) : WalRecovery :=
  wal.entries.foldl WalRecovery.replay ⟨none, none, none, [], []⟩

/-! ## What is recovered for the height -/

namespace WalEntry

/-- The lock an entry stands for at `height`: written down, or implied by a signed precommit. -/
def lockAt (height : UInt64) : WalEntry → Option (UInt32 × Hash)
  | .Locked h round blockHash => if h = height then some (round, blockHash) else none
  | .SignedVote record =>
    if record.height = height ∧ record.voteType = .Precommit then
      record.blockHash.map fun blockHash => (record.round, blockHash)
    else none
  | _ => none

/-- An entry of an earlier height. -/
def Before (height : UInt64) : WalEntry → Prop
  | .Locked h _ _ | .ProposalBlock h _ _ | .Checkpoint h => h < height
  | .SignedVote record => record.height < height
  | _ => True

/-- An entry written while at `height`. -/
def At (height : UInt64) : WalEntry → Prop
  | .Locked h _ _ => h = height
  | .SignedVote record => record.height = height
  | .Checkpoint _ => False
  | _ => True

end WalEntry

/-- The locks of the height along the log. -/
def locksAt (height : UInt64) (entries : List WalEntry) : List (UInt32 × Hash) :=
  entries.filterMap (WalEntry.lockAt height)

theorem locksAt_append (height : UInt64) (entries entries' : List WalEntry) :
    locksAt height (entries ++ entries') = locksAt height entries ++ locksAt height entries' :=
  filterMap_append

namespace WalRecovery

/-- What is recovered from a log of earlier heights. -/
structure Old (height : UInt64) (rec : WalRecovery) : Prop where
  checkpoint : ∀ cp, rec.lastCheckpoint = some cp → cp < height
  votes : ∀ record ∈ rec.signedVotes, record.height < height
  blocks : ∀ b ∈ rec.proposalBlocks, b.1 < height
  lock : ∀ l, rec.lockedState = some l → l.1 < height

/-- What the replay knows about `height`, when `entries` were written at it. -/
structure Knows (height : UInt64) (entries : List WalEntry) (rec : WalRecovery) : Prop where
  checkpoint : ∀ cp, rec.lastCheckpoint = some cp → cp < height
  votes : ∀ record, record.height = height →
    (record ∈ rec.signedVotes ↔ .SignedVote record ∈ entries)
  blocks : ∀ round block, (height, round, block) ∈ rec.proposalBlocks
    ↔ .ProposalBlock height round block ∈ entries
  upTo : ∀ l, rec.lockedState = some l → l.1 ≤ height
  lock : ∀ round blockHash, rec.lockedState = some (height, round, blockHash) →
    (round, blockHash) ∈ locksAt height entries
  top : ∀ x ∈ locksAt height entries,
    ∃ round blockHash, rec.lockedState = some (height, round, blockHash) ∧ x.1 ≤ round

variable {entries : List WalEntry} {rec : WalRecovery}

theorem impliedLock_cases (lock : Option (UInt64 × UInt32 × Hash)) (record : SignedVoteRecord) :
    impliedLock lock record = lock
      ∨ ∃ blockHash, record.voteType = .Precommit ∧ record.blockHash = some blockHash
        ∧ impliedLock lock record = some (record.height, record.round, blockHash) := by
  grind [impliedLock]

/-- An entry of an earlier height adds nothing later. -/
theorem Old.replay (h : rec.Old height) (hentry : entry.Before height) :
    (rec.replay entry).Old height := by
  cases entry with
  | HeightStarted h' => exact ⟨h.checkpoint, h.votes, h.blocks, h.lock⟩
  | CommitDecision h' r bh => exact h
  | Locked h' r bh =>
    unfold WalRecovery.replay
    dsimp only
    split
    · refine ⟨h.checkpoint, h.votes, h.blocks, ?_⟩
      rintro l hl
      cases hl
      exact hentry
    · exact h
  | ProposalBlock h' r b =>
    unfold WalRecovery.replay
    dsimp only
    split
    · refine ⟨h.checkpoint, h.votes, ?_, h.lock⟩
      intro b' hb'
      rcases mem_append.mp hb' with hb' | hb'
      · exact h.blocks b' hb'
      · rw [mem_singleton.mp hb']
        exact hentry
    · exact h
  | SignedVote record =>
    unfold WalRecovery.replay
    dsimp only
    split
    · refine ⟨h.checkpoint, ?_, h.blocks, ?_⟩
      · intro record' hrecord
        rcases mem_append.mp hrecord with hrecord | hrecord
        · exact h.votes record' hrecord
        · rw [mem_singleton.mp hrecord]
          exact hentry
      · intro l hl
        rcases impliedLock_cases rec.lockedState record with heq | ⟨bh, -, -, heq⟩
        · exact h.lock l (heq ▸ hl)
        · obtain rfl := Option.some.inj (heq.symm.trans hl)
          exact hentry
    · exact h
  | Checkpoint h' =>
    refine ⟨?_, ?_, ?_, ?_⟩
    · intro cp hcp
      cases hcp
      exact hentry
    · exact fun record hrecord => h.votes record (mem_of_mem_filter hrecord)
    · exact fun b hb => h.blocks b (mem_of_mem_filter hb)
    · exact fun l hl => h.lock l (Option.filter_eq_some_iff.mp hl).1

/-- A log of earlier heights says nothing about the height. -/
theorem Old.knows (h : rec.Old height) : rec.Knows height [] where
  checkpoint := h.checkpoint
  votes := by
    intro record hrecord
    constructor
    · intro hmem
      exact absurd (hrecord ▸ h.votes record hmem) (UInt64.lt_irrefl _)
    · exact fun hmem => absurd hmem not_mem_nil
  blocks := by
    intro round block
    constructor
    · intro hmem
      exact absurd (h.blocks _ hmem) (UInt64.lt_irrefl _)
    · exact fun hmem => absurd hmem not_mem_nil
  upTo := fun l hl => UInt64.le_of_lt (h.lock l hl)
  lock := fun round blockHash hl => absurd (h.lock _ hl) (UInt64.lt_irrefl _)
  top := fun x hx => absurd hx not_mem_nil

theorem Knows.current (h : rec.Knows height entries) : rec.current height = true := by
  unfold WalRecovery.current
  cases hcp : rec.lastCheckpoint with
  | none => rfl
  | some cp => exact decide_eq_true (h.checkpoint cp hcp)

/-- A lock of the height that is not below the earlier ones is taken over, by either kind of
    entry. -/
theorem relock {round} (hentry : entry.lockAt height
      = some (round, blockHash)) (hgrow : ∀ x ∈ locksAt height entries, x.1 ≤ round)
    (hlock : lock = some (height, round, blockHash)) :
    (∀ l, lock = some l → l.1 ≤ height)
      ∧ (∀ r bh, lock = some (height, r, bh) → (r, bh) ∈ locksAt height (entries ++ [entry]))
      ∧ ∀ x ∈ locksAt height (entries ++ [entry]), ∃ r bh, lock = some (height, r, bh) ∧ x.1 ≤ r := by
  have hlocks : locksAt height (entries ++ [entry])
      = locksAt height entries ++ [(round, blockHash)] := by
    rw [locksAt_append]
    show _ ++ [entry].filterMap _ = _
    rw [filterMap_cons, hentry]
    rfl
  rw [hlocks]
  subst hlock
  refine ⟨?_, ?_, ?_⟩
  · intro l hl
    cases hl
    exact UInt64.le_refl _
  · intro r bh hl
    obtain ⟨-, rfl, rfl⟩ := Prod.mk.injEq .. ▸ Option.some.inj hl
    exact mem_append_right _ (mem_singleton_self _)
  · intro x hx
    refine ⟨round, blockHash, rfl, ?_⟩
    rcases mem_append.mp hx with hx | hx
    · exact hgrow x hx
    · rw [mem_singleton.mp hx]
      exact UInt32.le_refl _

/-- An entry without a lock leaves the locks as they are. -/
theorem locksAt_snoc (hentry : entry.lockAt height = none) :
    locksAt height (entries ++ [entry]) = locksAt height entries := by
  grind [locksAt]

/-- A precommit for a block is taken as the lock, if it is not below the lock of the height. -/
theorem Knows.impliedLock (h : rec.Knows height entries)
    (hheight : record.height = height) (htype : record.voteType = .Precommit)
    (hhash : record.blockHash = some blockHash)
    (hgrow : ∀ x ∈ locksAt height entries, x.1 ≤ record.round) :
    WalRecovery.impliedLock rec.lockedState record
      = some (record.height, record.round, blockHash) := by
  unfold WalRecovery.impliedLock
  rw [htype, hhash]
  apply if_pos
  cases hlock : rec.lockedState with
  | none => rfl
  | some l =>
    apply decide_eq_true
    obtain ⟨lh, lr, lhash⟩ := l
    have hle : lh ≤ height := h.upTo _ hlock
    by_cases heq : lh = height
    · subst heq
      exact .inr ⟨hheight, hgrow _ (h.lock lr lhash hlock)⟩
    · grind

/-- **One more entry of the height**, with a lock not below the earlier ones. -/
theorem Knows.replay (h : rec.Knows height entries) (hentry : entry.At height)
    (hgrow : ∀ x ∈ locksAt height entries, ∀ y, entry.lockAt height = some y → x.1 ≤ y.1) :
    (rec.replay entry).Knows height (entries ++ [entry]) := by
  -- what an entry of another kind leaves alone
  have hvotes : (∀ record, entry ≠ .SignedVote record) → ∀ record, record.height = height →
      (record ∈ rec.signedVotes ↔ .SignedVote record ∈ entries ++ [entry]) := by
    intro hne record hrecord
    rw [h.votes record hrecord, mem_append, mem_singleton]
    exact ⟨.inl, fun hor => hor.resolve_right fun heq => hne record heq.symm⟩
  have hblocks : (∀ round block, entry ≠ .ProposalBlock height round block) →
      ∀ round block, (height, round, block) ∈ rec.proposalBlocks
        ↔ .ProposalBlock height round block ∈ entries ++ [entry] := by
    intro hne round block
    rw [h.blocks, mem_append, mem_singleton]
    exact ⟨.inl, fun hor => hor.resolve_right fun heq => hne round block heq.symm⟩
  have hidle : ∀ rec' : WalRecovery, rec'.lockedState = rec.lockedState →
      rec'.lastCheckpoint = rec.lastCheckpoint → entry.lockAt height = none →
      (∀ record, record.height = height →
        (record ∈ rec'.signedVotes ↔ .SignedVote record ∈ entries ++ [entry])) →
      (∀ round block, (height, round, block) ∈ rec'.proposalBlocks
        ↔ .ProposalBlock height round block ∈ entries ++ [entry]) →
      rec'.Knows height (entries ++ [entry]) := by
    intro rec' hl hc hnone hv hb
    refine ⟨hc ▸ h.checkpoint, hv, hb, hl ▸ h.upTo, ?_, ?_⟩
    · rw [locksAt_snoc hnone, hl]; exact h.lock
    · rw [locksAt_snoc hnone, hl]; exact h.top
  cases entry with
  | HeightStarted h' =>
    exact hidle _ rfl rfl rfl (hvotes nofun) (hblocks nofun)
  | CommitDecision h' r bh =>
    exact hidle _ rfl rfl rfl (hvotes nofun) (hblocks nofun)
  | Checkpoint h' => exact absurd hentry id
  | Locked h' r bh =>
    obtain rfl : h' = height := hentry
    have hlockAt : (WalEntry.Locked h' r bh).lockAt h' = some (r, bh) := if_pos rfl
    have hgrow' : ∀ x ∈ locksAt h' entries, x.1 ≤ r := fun x hx => hgrow x hx _ hlockAt
    unfold WalRecovery.replay
    dsimp only
    rw [if_pos h.current]
    obtain ⟨hup, hlock, htop⟩ := relock hlockAt hgrow' rfl
    exact ⟨h.checkpoint, hvotes nofun, hblocks nofun, hup, hlock, htop⟩
  | ProposalBlock h' r b =>
    have hnone : (WalEntry.ProposalBlock h' r b).lockAt height = none := rfl
    have hkept := hvotes nofun
    grind [WalRecovery.replay, blocks, current]
  | SignedVote record =>
    obtain rfl : record.height = height := hentry
    unfold WalRecovery.replay
    dsimp only
    rw [if_pos h.current]
    have hvotes' : ∀ record', record'.height = record.height →
        (record' ∈ rec.signedVotes ++ [record]
          ↔ .SignedVote record' ∈ entries ++ [.SignedVote record]) := by
      intro record' hrecord
      simp only [mem_append, mem_singleton, h.votes record' hrecord, WalEntry.SignedVote.injEq]
    by_cases hlocks : record.voteType = .Precommit ∧ record.blockHash ≠ none
    · obtain ⟨htype, hhash⟩ := hlocks
      obtain ⟨bh, hhash⟩ := Option.ne_none_iff_exists'.mp hhash
      have hlockAt : (WalEntry.SignedVote record).lockAt record.height = some (record.round, bh) := by
        show (if _ then _ else _) = _
        rw [if_pos ⟨rfl, htype⟩, hhash]
        rfl
      have hgrow' : ∀ x ∈ locksAt record.height entries, x.1 ≤ record.round :=
        fun x hx => hgrow x hx _ hlockAt
      obtain ⟨hup, hlock, htop⟩ := relock hlockAt hgrow' (h.impliedLock rfl htype hhash hgrow')
      exact ⟨h.checkpoint, hvotes', hblocks nofun, hup, hlock, htop⟩
    · have hnone : (WalEntry.SignedVote record).lockAt record.height = none := by
        show (if _ then _ else _) = _
        split
        · grind
        · rfl
      have hkeep : WalRecovery.impliedLock rec.lockedState record = rec.lockedState := by
        rcases impliedLock_cases rec.lockedState record with heq | ⟨bh, htype, hhash, -⟩
        · exact heq
        · exact absurd ⟨htype, by rw [hhash]; exact Option.some_ne_none _⟩ hlocks
      rw [hkeep]
      exact hidle _ rfl rfl hnone hvotes' (hblocks nofun)

end WalRecovery

/-- **What is recovered**, from a log of earlier heights followed by what was written at this one,
    if the rounds of its locks only grow. -/
theorem recover_spec {height old entries}
    (hold : ∀ x ∈ old, x.Before height) (hat : ∀ x ∈ entries, x.At height)
    (hgrow : (locksAt height entries).Pairwise fun x y => x.1 ≤ y.1) :
    (recover ⟨old ++ entries⟩).Knows height entries := by
  have hbase : (recover ⟨old⟩).Old height := by
    unfold recover
    induction old using List.reverseRecOn with
    | nil => exact ⟨nofun, nofun, nofun, nofun⟩
    | append_singleton old x ih =>
      rw [foldl_append]
      exact (ih fun y hy => hold y (mem_append_left _ hy)).replay
        (hold x (mem_append_right _ (mem_singleton_self x)))
  induction entries using List.reverseRecOn with
  | nil =>
    rw [append_nil]
    exact hbase.knows
  | append_singleton entries x ih =>
    rw [locksAt_append, pairwise_append] at hgrow
    obtain ⟨hbefore, -, hlast⟩ := hgrow
    have hprev := ih (fun y hy => hat y (mem_append_left _ hy)) hbefore
    have hsnoc : recover ⟨old ++ (entries ++ [x])⟩ = (recover ⟨old ++ entries⟩).replay x := by
      unfold recover
      rw [← append_assoc, foldl_append]
      rfl
    rw [hsnoc]
    apply hprev.replay (hat x (mem_append_right _ (mem_singleton_self x)))
    intro y hy z hz
    apply hlast y hy
    show z ∈ [x].filterMap _
    rw [filterMap_cons, hz]
    exact mem_singleton_self z

/-- The recovered round is not below the recovered lock. -/
theorem WalRecovery.le_maxRecoveredRoundForHeight {round} {rec : WalRecovery}
    (h : rec.lockedState = some (height, round, blockHash))
    (own : Pubkey) : ∃ m, rec.maxRecoveredRoundForHeight height own = some m ∧ round ≤ m := by
  unfold maxRecoveredRoundForHeight
  rw [h, Option.bind_some, if_pos rfl]
  -- the fold only goes up from where it starts
  have hup : ∀ (records : List SignedVoteRecord) (start : UInt32), ∃ m,
      records.foldl (fun maxRound record =>
        if record.height = height ∧ record.validator = own then
          some (maxRound.elim record.round fun current => max current record.round)
        else maxRound) (some start) = some m ∧ start ≤ m := by
    intro records
    induction records with
    | nil => exact fun start => ⟨start, rfl, UInt32.le_refl _⟩
    | cons record records ih =>
      intro start
      rw [foldl_cons]
      split
      · obtain ⟨m, hm, hle⟩ := ih (max start record.round)
        have hmax : start ≤ max start record.round := by
          show start ≤ if start ≤ record.round then record.round else start
          split
          · assumption
          · exact UInt32.le_refl _
        exact ⟨m, hm, UInt32.le_trans hmax hle⟩
      · exact ih start
  exact hup rec.signedVotes round

end Lichen
