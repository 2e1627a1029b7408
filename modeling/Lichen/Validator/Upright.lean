/-
  The invariant of a validator between two writes of its log.

  A precommit for a block is a lock, on record before it is sent.  The locks climb — in the log, in
  the actions still pending, and up to the engine's own: each is at a round not below those before
  it, and at the same round for the same block.  All of them lie behind the engine, which will not
  lock at their rounds again, and each is backed by a polka that was heard.  So a prevote for
  another block than one precommitted needs a polka above that precommit
  (`Upright.justified_of_mayPrevote`).

  `Upright.step` says that one move of the engine keeps this, and `Upright.call` that a whole call
  does, if the round number does not wrap.
-/
import Lichen.Validator.Node

open Base
namespace Lichen
open ConsensusEngine List

/-! ## Locks that climb -/

/-- `y` may follow `x`: at no lower round, and at the same round for the same block.  At the largest
    round a restarted engine can lock again. -/
def LockBelow (x y : UInt32 × Hash) : Prop :=
  x.1 ≤ y.1 ∧ (x.1 = y.1 → x.2 = y.2 ∨ x.1 = MAX_ROUND)

theorem LockBelow.refl (x : UInt32 × Hash) : LockBelow x x := ⟨UInt32.le_refl _, fun _ => .inl rfl⟩

/-- Each lock may follow every one before it. -/
def Climbs (locks : List (UInt32 × Hash)) : Prop := locks.Pairwise LockBelow

namespace Climbs

variable {x : UInt32 × Hash}

theorem rounds (h : Climbs l) : l.Pairwise fun x y => x.1 ≤ y.1 := h.imp fun hxy => hxy.1

/-- Two locks of one round are for one block. -/
theorem same (h : Climbs l) (hx : x ∈ l) (hy : y ∈ l) (hround : x.1 = y.1) :
    x.2 = y.2 ∨ x.1 = MAX_ROUND := by
  have hpairs : l.Pairwise fun x y => x.1 = y.1 → x.2 = y.2 ∨ x.1 = MAX_ROUND :=
    h.imp fun hxy => hxy.2
  have : Std.Symm fun x y : UInt32 × Hash => x.1 = y.1 → x.2 = y.2 ∨ x.1 = MAX_ROUND := by
    constructor
    intro a b hab heq
    rcases hab heq.symm with hhash | hmax
    · exact .inl hhash.symm
    · exact .inr (heq.trans hmax)
  exact hpairs.forall_of_forall (fun _ _ _ => .inl rfl) hx hy hround

theorem snoc (h : Climbs l) (hy : ∀ x ∈ l, LockBelow x y) : Climbs (l ++ [y]) := by
  grind [Climbs]

/-- The last lock is above all others. -/
theorem le_last (h : Climbs (l ++ [y])) (hx : x ∈ l) : LockBelow x y :=
  (pairwise_append.mp h).2.2 x hx y (mem_singleton_self y)

/-- A lock may be written any number of times. -/
theorem replace (h : Climbs (l ++ x :: l')) (hm : ∀ y ∈ m, y = x) : Climbs (l ++ (m ++ l')) := by
  obtain ⟨hl, hr, hlr⟩ := pairwise_append.mp h
  obtain ⟨hx, hl'⟩ := pairwise_cons.mp hr
  refine pairwise_append.mpr ⟨hl, pairwise_append.mpr ⟨?_, hl', ?_⟩, ?_⟩
  · refine pairwise_of_forall_mem_list ?_
    intro a ha b hb
    rw [hm a ha, hm b hb]
    exact .refl x
  · intro a ha b hb
    rw [hm a ha]
    exact hx b hb
  · grind

end Climbs

/-! ## Polkas -/

namespace NodeConfig

variable [Crypto]

/-- The power the height is decided with. -/
def snapshot (c : NodeConfig) : ConsensusPowerSnapshot :=
  .build c.validatorSet c.stakePool c.minValidatorStake

/-- A valid prevote of the height for this block at this round. -/
def countsFor (c : NodeConfig) (round : UInt32) (blockHash : Hash) (v : Prevote) : Bool :=
  decide (v.height = c.height ∧ v.round = round ∧ v.blockHash = some blockHash)
    && v.verifySignatureWithChainId c.chainId

/-- The validators with such a prevote among `heard`, each once. -/
def prevoters (c : NodeConfig) (heard : List Prevote) (round : UInt32) (blockHash : Hash) :
    List Pubkey :=
  ((heard.filter (c.countsFor round blockHash)).map Prevote.validator).dedup

/-- Validators with at least 2/3 of the eligible stake have prevoted the block at this round. -/
def Polka (c : NodeConfig) (heard : List Prevote) (round : UInt32) (blockHash : Hash) : Prop :=
  c.snapshot.totalEligibleStake * 2
    ≤ weight (powerIn c.snapshot.eligiblePower) (c.prevoters heard round blockHash) * 3

variable {c : NodeConfig} {heard : List Prevote} {round : UInt32} {blockHash : Hash}

theorem mem_prevoters : k ∈ c.prevoters heard round blockHash
    ↔ ∃ v ∈ heard, v.validator = k ∧ c.countsFor round blockHash v = true := by
  unfold prevoters
  simp only [mem_dedup, mem_map, mem_filter]
  grind

/-- Distinct voters with 2/3 of the stake, all of them heard. -/
theorem polka_of_voters (hnodup : voters.Nodup) (hstake : c.snapshot.totalEligibleStake * 2
      ≤ weight (powerIn c.snapshot.eligiblePower) voters * 3)
    (hheard : ∀ k ∈ voters, k ∈ c.prevoters heard round blockHash) :
    c.Polka heard round blockHash := by
  have hle := weight_le_of_subset (powerIn c.snapshot.eligiblePower) hnodup hheard
  unfold Polka
  omega

theorem Polka.mono (hsub : ∀ v ∈ heard, v ∈ heard') (h : c.Polka heard round blockHash) :
    c.Polka heard' round blockHash := by
  refine polka_of_voters (nodup_dedup _) h ?_
  intro k hk
  obtain ⟨v, hv, hrest⟩ := mem_prevoters.mp hk
  exact mem_prevoters.mpr ⟨v, hsub v hv, hrest⟩

/-- What a prevote after a precommit needs: for another block at a later round, a polka for that
    block above the precommit. -/
def Justified (c : NodeConfig) (heard : List Prevote) (a b : ConsensusAction) : Prop :=
  ∀ v w V W, a = .BroadcastPrecommit v → b = .BroadcastPrevote w → v.blockHash = some V →
    w.blockHash = some W → W ≠ V → v.round < w.round →
    ∃ round, v.round < round ∧ c.Polka heard round W

theorem Justified.mono (hsub : ∀ v ∈ heard, v ∈ heard')
    (h : c.Justified heard a b) : c.Justified heard' a b := by
  intro v w V W ha hb hV hW hne hlt
  obtain ⟨round, hround, hpolka⟩ := h v w V W ha hb hV hW hne hlt
  exact ⟨round, hround, hpolka.mono hsub⟩

end NodeConfig

/-! ## What is on record -/

/-- The vote a record is of. -/
def SignedVoteRecord.vote (record : SignedVoteRecord) : Option ConsensusAction :=
  match record.voteType with
  | .Prevote => some (.BroadcastPrevote ⟨record.height, record.round, record.blockHash,
      record.validator, record.signature⟩)
  | .Precommit => record.timestamp.map fun timestamp => .BroadcastPrecommit ⟨record.height,
      record.round, record.blockHash, record.validator, record.signature, timestamp⟩

def WalEntry.vote (height : UInt64) : WalEntry → Option ConsensusAction
  | .SignedVote record => if record.height = height then record.vote else none
  | _ => none

/-- The votes of the height in the log. -/
def votesAt (height : UInt64) (entries : List WalEntry) : List ConsensusAction :=
  entries.filterMap (WalEntry.vote height)

theorem votesAt_append (height : UInt64) (entries entries' : List WalEntry) :
    votesAt height (entries ++ entries') = votesAt height entries ++ votesAt height entries' :=
  filterMap_append

variable {entries : List WalEntry}

theorem mem_votesAt {height a} : a ∈ votesAt height entries
      ↔ ∃ record, .SignedVote record ∈ entries ∧ record.height = height ∧ record.vote = some a := by
  unfold votesAt
  rw [mem_filterMap]
  constructor
  · rintro ⟨entry, hentry, hvote⟩
    cases entry with
    | SignedVote record =>
      grind [WalEntry.vote]
    | _ => exact nomatch hvote
  · rintro ⟨record, hmem, hheight, hvote⟩
    exact ⟨_, hmem, (if_pos hheight).trans hvote⟩

namespace SignedVoteRecord

variable {record : SignedVoteRecord}

theorem of_vote_prevote (h : record.vote = some (.BroadcastPrevote v)) :
    record.voteType = .Prevote ∧ v = ⟨record.height, record.round, record.blockHash,
      record.validator, record.signature⟩ := by
  unfold vote at h
  split at h
  · grind
  · simp_all

theorem of_vote_precommit (h : record.vote = some (.BroadcastPrecommit v)) :
    record.voteType = .Precommit ∧ record.timestamp = some v.timestamp
      ∧ v = ⟨record.height, record.round, record.blockHash, record.validator, record.signature,
        v.timestamp⟩ := by
  unfold vote at h
  split at h
  · exact nomatch Option.some.inj h
  · obtain ⟨ts, hts, -⟩ := Option.map_eq_some_iff.mp h
    grind

end SignedVoteRecord

variable {v : Precommit} {bh : Hash}

/-- A recorded precommit for a block is a lock. -/
theorem lock_of_vote {height}
    (h : .BroadcastPrecommit v ∈ votesAt height entries) (hbh : v.blockHash = some bh) :
    (v.round, bh) ∈ locksAt height entries := by
  obtain ⟨record, hmem, hheight, hvote⟩ := mem_votesAt.mp h
  obtain ⟨htype, -, hv⟩ := SignedVoteRecord.of_vote_precommit hvote
  refine mem_filterMap.mpr ⟨_, hmem, ?_⟩
  show (if _ then _ else _) = _
  grind

/-- The locks that the precommits among the actions stand for. -/
def locksOf (actions : List ConsensusAction) : List (UInt32 × Hash) :=
  actions.filterMap fun
    | .BroadcastPrecommit v => v.blockHash.map fun bh => (v.round, bh)
    | _ => none

theorem locksOf_append (as bs : List ConsensusAction) :
    locksOf (as ++ bs) = locksOf as ++ locksOf bs := filterMap_append

theorem mem_locksOf (h : .BroadcastPrecommit v ∈ actions) (hbh : v.blockHash = some bh) :
    (v.round, bh) ∈ locksOf actions := by
  refine mem_filterMap.mpr ⟨_, h, ?_⟩
  show v.blockHash.map _ = _
  rw [hbh]
  rfl

theorem mem_prevotesOf {actions v} : v ∈ prevotesOf actions ↔ .BroadcastPrevote v ∈ actions := by
  grind [prevotesOf]

theorem prevotesOf_append (as bs : List ConsensusAction) :
    prevotesOf (as ++ bs) = prevotesOf as ++ prevotesOf bs := filterMap_append

/-! ## The engine between two writes -/

namespace ConsensusEngine

/-- A lock at round `r` lies behind the engine: it will not lock at `r` again. -/
def Past (e : ConsensusEngine) (r : UInt32) : Prop :=
  r ≤ e.round ∧ (r = e.round → e.step = .Precommit ∨ e.step = .Commit ∨ r = MAX_ROUND)

theorem lockedState_eq_some {e : ConsensusEngine} :
    e.lockedState = some (r, bh) ↔ e.lockedRound = some r ∧ e.lockedValue = some bh := by
  grind [lockedState]

section
variable [Crypto]

/-- What a move does to the lock, and which lock it sends. -/
theorem Step.locks_cases (h : Step env e ev e') :
    (∃ bh, e.step = .Prevote ∧ e.Quorum env e.prevotes (e.round, some bh)
        ∧ e'.lockedState = some (e.round, bh) ∧ e'.round = e.round ∧ e'.step = .Precommit
        ∧ locksOf ev.output = [])
      ∨ (∃ bh, e.lockedState = some (e.round, bh) ∧ e'.lockedState = e.lockedState
        ∧ locksOf ev.output = [(e.round, bh)])
      ∨ e'.lockedState = e.lockedState ∧ locksOf ev.output = [] := by
  cases h with
  | lock bh hstep hpolka => exact .inl ⟨bh, hstep, hpolka, rfl, rfl, rfl, rfl⟩
  | precommit bh hstep hsigned hlock =>
    cases bh with
    | none => exact .inr (.inr ⟨rfl, rfl⟩)
    | some bh =>
      obtain ⟨hr, hv, -⟩ := hlock bh rfl
      exact .inr (.inl ⟨bh, lockedState_eq_some.mpr ⟨hr, hv⟩, rfl, rfl⟩)
  | emit a ha =>
    refine .inr (.inr ⟨rfl, ?_⟩)
    cases a with
    | BroadcastPrecommit v => exact absurd ha id
    | _ => rfl
  | _ => exact .inr (.inr ⟨rfl, rfl⟩)

/-- A round that lies behind stays behind. -/
theorem Step.past (h : Step env e ev e') (hmax : (MAX_ROUND, 0) ∉ e'.advances)
    (hr : e.Past r) : e'.Past r := by
  obtain ⟨hle, hcur⟩ := hr
  -- the step never goes back from Precommit within a round
  have hsame : e'.round = e.round → (e.step = .Precommit ∨ e.step = .Commit →
      e'.step = .Precommit ∨ e'.step = .Commit) → e'.Past r := by
    intro hround hstep
    refine ⟨hround ▸ hle, fun heq => ?_⟩
    rcases hcur (heq.trans hround) with hs | hs | hs
    · exact (hstep (.inl hs)).imp_right .inl
    · exact (hstep (.inr hs)).imp_right .inl
    · exact .inr (.inr hs)
  rcases h.round_cases with ⟨hround, -⟩ | ⟨hlt, -, -⟩ | ⟨-, heq⟩
  · cases h with
    | prevote bh hstep =>
      grind
    | lock bh hstep => exact hsame rfl fun _ => .inl rfl
    | toPrecommit hstep => exact hsame rfl fun _ => .inl rfl
    | commitOwn => exact hsame rfl fun _ => .inr rfl
    | commitNetwork => exact hsame rfl fun _ => .inr rfl
    | advance hstep hwhy =>
      exfalso
      by_cases hr : e.round = MAX_ROUND
      · apply hmax
        show (MAX_ROUND, 0) ∈ e.advances ++ [(e.round, e.round + 1)]
        rw [hr]
        exact mem_append_right _ (mem_singleton_self _)
      · have hlt := lt_succ_round hr
        rw [show e.round + 1 = e.round from hround] at hlt
        exact UInt32.lt_irrefl _ hlt
    | skip htotal hne => exact absurd hround hne
    | _ => exact hsame rfl id
  · refine ⟨UInt32.le_trans hle (UInt32.le_of_lt hlt), fun heq => ?_⟩
    grind
  · exact absurd (heq ▸ mem_append_right _ (mem_singleton_self _)) hmax

theorem Step.overflow_mono (h : Step env e ev e') (hmem : (MAX_ROUND, 0) ∈ e.advances) :
    (MAX_ROUND, 0) ∈ e'.advances := by
  rcases h.round_cases with ⟨-, heq⟩ | ⟨-, -, heq⟩ | ⟨-, heq⟩ <;> grind

omit [Crypto] in
/-- A move emits at most one action. -/
theorem Event.output_single (ev : Event) : ev.output = [] ∨ ∃ a, ev.output = [a] := by
  cases ev with
  | quiet => exact .inl rfl
  | store p => exact .inl rfl
  | recvPrevote v => exact .inl rfl
  | recvPrecommit v => exact .inl rfl
  | lock bh => exact .inl rfl
  | toPrecommit => exact .inl rfl
  | _ => exact .inr ⟨_, rfl⟩

end
end ConsensusEngine

/-- All locks in the order they are or will be written: in the log, in the pending precommits, and
    the engine's. -/
def allLocks (height : UInt64) (entries : List WalEntry) (pending : List ConsensusAction)
    (e : ConsensusEngine) : List (UInt32 × Hash) :=
  locksAt height entries ++ (locksOf pending ++ e.lockedState.toList)

section
variable [Crypto]

/-- **The invariant.**  `entries` is what the log has of this height, `pending` what the engine has
    returned since the last one was carried out. -/
structure Upright (c : NodeConfig) (entries : List WalEntry) (sent : List ConsensusAction)
    (heard : List Prevote) (e : ConsensusEngine) (pending : List ConsensusAction) : Prop where
  height : e.height = c.height
  powerSnapshot : e.powerSnapshot = some c.snapshot
  blocks : e.BlocksWf
  tally : e.TallyInv
  noPrevotes : (e.futurePrevotes.get c.height).getD [] = []
  noPrecommits : (e.futurePrecommits.get c.height).getD [] = []
  votes : e.VotesOnce c.keypair c.chainId (votesAt c.height entries ++ (sent ++ pending))
  prevoteHeight : ∀ v, .BroadcastPrevote v ∈ sent ++ pending → v.height = c.height
  precommitHeight : ∀ v, .BroadcastPrecommit v ∈ sent ++ pending → v.height = c.height
  voiced : ∀ v, .BroadcastPrevote v ∈ votesAt c.height entries ++ (sent ++ pending) → v ∈ heard
  seen : ∀ r k bh, e.prevotes.seen.get (r, k) = some (some bh) →
    ∃ v ∈ heard, v.validator = k ∧ c.countsFor r bh v = true
  climbs : Climbs (allLocks c.height entries pending e)
  behind : ∀ x ∈ allLocks c.height entries pending e, e.Past x.1 ∧ c.Polka heard x.1 x.2
  locked : allLocks c.height entries pending e ≠ [] → e.lockedState ≠ none
  justified : (sent ++ pending).Pairwise (c.Justified heard)

/-- What the network may hand in: no forged vote of the validator's own, and every prevote is
    counted as heard. -/
def AdmittedEvent (c : NodeConfig) (sent : List ConsensusAction) (heard : List Prevote) :
    Event → Prop
  | .recvPrevote v => HeldPrevote c.chainId sent c.pubkey v ∧ v ∈ heard
  | .recvPrecommit v => HeldPrecommit c.chainId sent c.pubkey v
  | _ => True

namespace Upright

variable {c : NodeConfig} {entries : List WalEntry} {sent pending : List ConsensusAction}
  {heard : List Prevote} {e : ConsensusEngine}

/-- A polka the engine counts was heard. -/
theorem polka (h : Upright c entries sent heard e pending)
    (hq : e.Quorum env e.prevotes (r, some bh)) : c.Polka heard r bh := by
  have hcount := h.tally.countedPrevotes _ h.powerSnapshot
  obtain ⟨-, hstake⟩ := Quorum.two_thirds h.powerSnapshot hcount hq
  refine NodeConfig.polka_of_voters (h.tally.prevotes.nodup (r, some bh)) hstake ?_
  intro k hk
  exact NodeConfig.mem_prevoters.mpr (h.seen r k bh ((h.tally.prevotes.mem_bucket r _ k).mp hk))

/-- The engine's lock is above every lock on record or pending. -/
theorem lock_above (h : Upright c entries sent heard e pending)
    (hx : x ∈ locksAt c.height entries ++ locksOf pending) :
    ∃ y, e.lockedState = some y ∧ LockBelow x y ∧ c.Polka heard y.1 y.2 := by
  have hmem : x ∈ allLocks c.height entries pending e := by
    rw [allLocks, ← append_assoc]
    exact mem_append_left _ hx
  obtain ⟨y, hy⟩ := Option.ne_none_iff_exists'.mp (h.locked (ne_nil_of_mem hmem))
  have hall : allLocks c.height entries pending e
      = (locksAt c.height entries ++ locksOf pending) ++ [y] := by
    rw [allLocks, hy, ← append_assoc]
    rfl
  have hclimbs := h.climbs
  rw [hall] at hclimbs
  refine ⟨y, hy, hclimbs.le_last hx, (h.behind y ?_).2⟩
  rw [hall]
  exact mem_append_right _ (mem_singleton_self y)

omit [Crypto] in
/-- Every precommit that was sent, or will be, is a lock. -/
theorem lock_of_sent
    (hsent : ∀ v, .BroadcastPrecommit v ∈ sent → .BroadcastPrecommit v ∈ votesAt c.height entries)
    (hv : .BroadcastPrecommit v ∈ sent ++ pending)
    (hbh : v.blockHash = some bh) :
    (v.round, bh) ∈ locksAt c.height entries ++ locksOf pending := by
  grind [lock_of_vote, mem_locksOf]

section
variable (h : Upright c entries sent heard e pending)
include h

/-- **A prevote the lock allows is justified** against every precommit before it. -/
theorem justified_of_mayPrevote
    {V W : Hash} (hv : (v.round, V) ∈ locksAt c.height entries ++ locksOf pending)
    (hmay : e.MayPrevote env W) (hne : W ≠ V) (hlt : v.round < r) :
    ∃ round, v.round < round ∧ c.Polka heard round W := by
  obtain ⟨⟨lr, lv⟩, hlock, ⟨hle, hsame⟩, hpolka⟩ := h.lock_above hv
  obtain ⟨hlr, hlv⟩ := lockedState_eq_some.mp hlock
  rcases mayPrevote_of_locked hmay hlr hlv with rfl | ⟨vr, hvr, hhas⟩
  · -- the block it is locked on: another one than `V`, so the lock is from a later round
    refine ⟨lr, ?_, hpolka⟩
    have hround : v.round ≠ lr := by
      intro heq
      rcases hsame heq with hhash | -
      · exact hne hhash.symm
      · grind [MAX_ROUND]
    grind
  · -- released by a polka above the lock
    refine ⟨vr, UInt32.lt_of_le_of_lt hle hvr, ?_⟩
    have hcount := h.tally.countedPrevotes _ h.powerSnapshot
    exact h.polka (quorum_of_hasPolkaFor h.powerSnapshot hcount hhas)

/-- The validator's own votes only come back once they are signed. -/
theorem echoesSigned (hev : AdmittedEvent c sent heard ev) : e.EchoesSigned ev := by
  cases ev with
  | recvPrevote v =>
    intro hown hheight hsig
    rw [h.votes.validatorPubkey] at hown
    rw [h.votes.signingChainId] at hsig
    obtain ⟨w, hw, -, hwh, hwr, -⟩ := (hev.1 hown hsig).exists_prevote
    have hcast : CastPrevote (votesAt c.height entries ++ (sent ++ pending)) w.ballot :=
      ⟨w, mem_append_right _ (mem_append_left _ hw), rfl⟩
    have hnoted := h.votes.prevotes.noted _ hcast (hwh.trans hheight)
    rw [show w.ballot.round = v.round from hwr] at hnoted
    rw [hnoted]
    exact Option.some_ne_none _
  | recvPrecommit v =>
    intro hown hheight hsig
    rw [h.votes.validatorPubkey] at hown
    rw [h.votes.signingChainId] at hsig
    obtain ⟨w, hw, -, hwh, hwr, -⟩ := (hev hown hsig).exists_precommit
    have hcast : CastPrecommit (votesAt c.height entries ++ (sent ++ pending)) w.ballot :=
      ⟨w, mem_append_right _ (mem_append_left _ hw), rfl⟩
    have hnoted := h.votes.precommits.noted _ hcast (hwh.trans hheight)
    rw [show w.ballot.round = v.round from hwr] at hnoted
    rw [hnoted]
    exact Option.some_ne_none _
  | _ => trivial

/-- A move keeps the locks climbing, behind the engine, and backed by polkas. -/
theorem locks_step (hs : Step env e ev e') (hmax : (MAX_ROUND, 0) ∉ e'.advances) :
    Climbs (allLocks c.height entries (pending ++ ev.output) e')
      ∧ (∀ x ∈ allLocks c.height entries (pending ++ ev.output) e',
          e'.Past x.1 ∧ c.Polka heard x.1 x.2)
      ∧ (allLocks c.height entries (pending ++ ev.output) e' ≠ [] → e'.lockedState ≠ none) := by
  have hkeep : ∀ x ∈ allLocks c.height entries pending e, e'.Past x.1 ∧ c.Polka heard x.1 x.2 :=
    fun x hx => ⟨hs.past hmax (h.behind x hx).1, (h.behind x hx).2⟩
  have hbefore : ∀ x ∈ locksAt c.height entries ++ locksOf pending,
      x ∈ allLocks c.height entries pending e := by
    intro x hx
    rw [allLocks, ← append_assoc]
    exact mem_append_left _ hx
  rcases hs.locks_cases with ⟨bh, hstep, hq, hlock, hround, hstep', hout⟩ | ⟨bh, hlock, heq, hout⟩
    | ⟨heq, hout⟩
  · -- a new lock, at a round where none was
    have hall : allLocks c.height entries (pending ++ ev.output) e'
        = (locksAt c.height entries ++ locksOf pending) ++ [(e.round, bh)] := by
      rw [allLocks, locksOf_append, hout, hlock, append_nil, append_assoc]
      rfl
    rw [hall]
    refine ⟨?_, ?_, fun _ => by rw [hlock]; exact Option.some_ne_none _⟩
    · have hclimbs : Climbs (locksAt c.height entries ++ locksOf pending) := by
        have hold := h.climbs
        rw [allLocks, ← append_assoc] at hold
        exact hold.sublist (sublist_append_left _ _)
      refine hclimbs.snoc ?_
      intro x hx
      obtain ⟨hle, hcur⟩ := (h.behind x (hbefore x hx)).1
      refine ⟨hle, fun hxr => ?_⟩
      grind
    · intro x hx
      rcases mem_append.mp hx with hx | hx
      · exact hkeep x (hbefore x hx)
      · rw [mem_singleton.mp hx]
        refine ⟨⟨?_, fun _ => .inl hstep'⟩, h.polka hq⟩
        rw [hround]
        exact UInt32.le_refl _
  · -- the lock goes out with its precommit
    have hold : allLocks c.height entries pending e
        = (locksAt c.height entries ++ locksOf pending) ++ [(e.round, bh)] := by
      rw [allLocks, hlock, append_assoc]
      rfl
    have hall : allLocks c.height entries (pending ++ ev.output) e'
        = (locksAt c.height entries ++ locksOf pending) ++ [(e.round, bh), (e.round, bh)] := by
      rw [allLocks, locksOf_append, hout, heq, hlock]
      simp only [Option.toList_some, append_assoc, cons_append, nil_append]
    have hclimbs := h.climbs
    rw [hold] at hclimbs hkeep
    rw [hall]
    refine ⟨hclimbs.replace (m := [(e.round, bh), (e.round, bh)]) (by simp), ?_, fun _ => by
      rw [heq, hlock]
      exact Option.some_ne_none _⟩
    intro x hx
    apply hkeep x
    simpa using hx
  · have hall : allLocks c.height entries (pending ++ ev.output) e'
        = allLocks c.height entries pending e := by
      rw [allLocks, locksOf_append, hout, heq, append_nil]
      rfl
    rw [hall, heq]
    exact ⟨h.climbs, hkeep, h.locked⟩

/-- **One move of the engine.** -/
theorem step (hs : Step env e ev e')
    (hsent : ∀ v, .BroadcastPrecommit v ∈ sent → .BroadcastPrecommit v ∈ votesAt c.height entries)
    (hmax : (MAX_ROUND, 0) ∉ e'.advances) (hev : AdmittedEvent c sent heard ev) :
    Upright c entries sent (heard ++ prevotesOf ev.output) e' (pending ++ ev.output) := by
  have hsub : ∀ v ∈ heard, v ∈ heard ++ prevotesOf ev.output := fun v hv => mem_append_left _ hv
  have hlog : votesAt c.height entries ++ (sent ++ (pending ++ ev.output))
      = (votesAt c.height entries ++ (sent ++ pending)) ++ ev.output := by
    simp only [append_assoc]
  obtain ⟨hclimbs, hbehind, hlocked⟩ := h.locks_step hs hmax
  have hframe := hs.frame
  constructor
  · exact hframe.height.trans h.height
  · exact hframe.powerSnapshot.trans h.powerSnapshot
  · exact hs.blocksWf h.blocks
  · exact hs.tallyInv (h.echoesSigned hev) h.tally
  · rw [eq_nil_iff_forall_not_mem]
    intro v hv
    have hmem := hframe.futurePrevotes v
    grind [height, noPrevotes]
  · rw [eq_nil_iff_forall_not_mem]
    intro v hv
    have hmem := hframe.futurePrecommits v
    grind [height, noPrecommits]
  · rw [hlog]
    exact h.votes.step hs
  · intro v hv
    rw [← append_assoc] at hv
    rcases mem_append.mp hv with hv | hv
    · exact h.prevoteHeight v hv
    · rw [(hs.prevote_out hv).2]
      exact h.height
  · intro v hv
    rw [← append_assoc] at hv
    rcases mem_append.mp hv with hv | hv
    · exact h.precommitHeight v hv
    · rw [(hs.precommit_out hv).2]
      exact h.height
  · grind [voiced, mem_prevotesOf]
  · intro r k bh hseen
    rcases hs.seenPrevote hseen with
      hold | ⟨v, rfl, hround, hk, hhash, hheight, hsig⟩ | ⟨hev', hround, hk⟩
    · grind [seen]
    · refine ⟨v, hsub v hev.2, hk, ?_⟩
      rw [h.votes.signingChainId] at hsig
      grind [NodeConfig.countsFor, height]
    · have hsig := e.verify_ownPrevote h.votes.ownKey (some bh)
      rw [h.votes.signingChainId] at hsig
      refine ⟨e.ownPrevote (some bh), mem_append_right _ (mem_prevotesOf.mpr ?_), hk.symm, ?_⟩
      · rw [hev']
        exact mem_singleton_self _
      · rw [NodeConfig.countsFor, decide_eq_true ⟨h.height, hround.symm, rfl⟩, hsig]
        rfl
  · exact hclimbs
  · exact fun x hx => ⟨(hbehind x hx).1, (hbehind x hx).2.mono hsub⟩
  · exact hlocked
  · rw [← append_assoc]
    refine pairwise_append.mpr ⟨h.justified.imp fun hj => hj.mono hsub, ?_, ?_⟩
    · grind [Event.output_single]
    · rintro a ha b hb v w V W rfl rfl hV hW hne hlt
      have hmay : e.MayPrevote env W := Setting.prevoted_guard hs ⟨w, hb, rfl, rfl, hW⟩
      have hv := lock_of_sent hsent ha hV
      obtain ⟨round, hround, hpolka⟩ := h.justified_of_mayPrevote hv hmay hne hlt
      exact ⟨round, hround, hpolka.mono hsub⟩

end

/-- **A whole call.** -/
theorem call {op : Op} (h : Upright c entries sent heard e [])
    (hsent : ∀ v, .BroadcastPrecommit v ∈ sent → .BroadcastPrecommit v ∈ votesAt c.height entries)
    (hpv : ∀ v, op = .onPrevote v → HeldPrevote c.chainId sent c.pubkey v)
    (hpc : ∀ v, op = .onPrecommit v → HeldPrecommit c.chainId sent c.pubkey v)
    (hmax : (MAX_ROUND, 0) ∉ (op.run env e).2.advances) :
    Upright c entries sent (heard ++ op.prevotes ++ prevotesOf (op.run env e).1.flatten)
      (op.run env e).2 (op.run env e).1.flatten := by
  obtain ⟨evs, htr, hout, hallow⟩ := op.run_does env h.blocks
  -- hearing more does no harm
  have hstart : Upright c entries sent (heard ++ op.prevotes) e [] := by
    have hsub : ∀ v ∈ heard, v ∈ heard ++ op.prevotes := fun v hv => mem_append_left _ hv
    refine { h with voiced := fun v hv => hsub v (h.voiced v hv), seen := ?_, behind := ?_,
                    justified := h.justified.imp fun hj => hj.mono hsub }
    · grind [seen]
    · exact fun x hx => ⟨(h.behind x hx).1, (h.behind x hx).2.mono hsub⟩
  have hadmit : ∀ ev, ev.Internal ∨ op.Takes e ev →
      AdmittedEvent c sent (heard ++ op.prevotes) ev := by
    intro ev hev
    have hin := Op.Takes.vote hev
    -- nothing is ever buffered for the height the engine is at
    cases ev with
    | recvPrevote v =>
      rcases hin with rfl | ⟨-, hv⟩
      · exact ⟨hpv v rfl, mem_append_right _ (mem_singleton_self v)⟩
      · grind [height, noPrevotes]
    | recvPrecommit v =>
      rcases hin with rfl | ⟨-, hv⟩
      · exact hpc v rfl
      · grind [height, noPrecommits]
    | _ => trivial
  have hinv : (MAX_ROUND, 0) ∉ (op.run env e).2.advances →
      Upright c entries sent (heard ++ op.prevotes ++ prevotesOf ([] ++ evs.flatMap Event.output))
        (op.run env e).2 ([] ++ evs.flatMap Event.output) := by
    refine Trace.invariant_outputs (I := fun e₁ log => (MAX_ROUND, 0) ∉ e₁.advances →
      Upright c entries sent (heard ++ op.prevotes ++ prevotesOf log) e₁ log) ?_ htr [] hallow ?_
    · intro e₁ ev e₂ log hs hev hI hno
      have h₁ := hI fun hmem => hno (hs.overflow_mono hmem)
      have hev' : AdmittedEvent c sent (heard ++ op.prevotes ++ prevotesOf log) ev := by
        have hadm := hadmit ev hev
        cases ev with
        | recvPrevote v => exact ⟨hadm.1, mem_append_left _ hadm.2⟩
        | _ => exact hadm
      grind [prevotesOf_append, step]
    · grind [prevotesOf]
  rw [nil_append, hout] at hinv
  exact hinv hmax

/-- Votes and locks may move from the pending actions into the log, or be dropped. -/
theorem moved (h : Upright c entries sent heard e pending)
    (hvotes : ∀ a ∈ votesAt c.height entries', a ∈ votesAt c.height entries ++ (sent ++ pending))
    (hclimbs : Climbs (allLocks c.height entries' pending' e))
    (hlocks : ∀ x ∈ allLocks c.height entries' pending' e, x ∈ allLocks c.height entries pending e)
    (hsub : (sent' ++ pending').Sublist (sent ++ pending)) :
    Upright c entries' sent' heard e pending' := by
  have hlog : ∀ a ∈ votesAt c.height entries' ++ (sent' ++ pending'),
      a ∈ votesAt c.height entries ++ (sent ++ pending) := by
    intro a ha
    rcases mem_append.mp ha with ha | ha
    · exact hvotes a ha
    · exact mem_append_right _ (hsub.subset ha)
  refine { h with votes := h.votes.subset hlog,
                  prevoteHeight := fun v hv => h.prevoteHeight v (hsub.subset hv),
                  precommitHeight := fun v hv => h.precommitHeight v (hsub.subset hv),
                  voiced := fun v hv => h.voiced v (hlog _ hv),
                  climbs := hclimbs, behind := fun x hx => h.behind x (hlocks x hx),
                  locked := ?_, justified := h.justified.sublist hsub }
  intro hne
  obtain ⟨x, hx⟩ := exists_mem_of_ne_nil _ hne
  exact h.locked (ne_nil_of_mem (hlocks x hx))

end Upright
end
end Lichen
