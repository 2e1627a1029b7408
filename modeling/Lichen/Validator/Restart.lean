/-
  What a new process knows.

  Startup puts back the lock, the blocks and the signed votes that the log has of the height, and
  goes on above the highest round it finds.  `Restoring` follows the engine through it;
  `Durable.boot` says what comes out: a process that stands as if it had never crashed, with every
  vote on record signed, and the strongest lock on record as its own — if the log has the block of
  that lock, so that it is not released.
-/
import Lichen.Validator.Upright

open Base HashMap
namespace Lichen
open ConsensusEngine ConsensusWal NodeConfig SignedVoteRecord List
section
variable [Crypto]

/-! ## Startup -/

/-- The engine while startup puts back what the log has of the height. -/
structure Restoring (c : NodeConfig) (entries : List WalEntry) (e : ConsensusEngine) : Prop where
  keypair : e.keypair = c.keypair
  validatorPubkey : e.validatorPubkey = c.pubkey
  signingChainId : e.signingChainId = c.chainId
  minValidatorStake : e.minValidatorStake = c.minValidatorStake
  height : e.height = c.height
  round : e.round = 0
  noPrevotes : (e.futurePrevotes.get c.height).getD [] = []
  noPrecommits : (e.futurePrecommits.get c.height).getD [] = []
  /-- no lock, and none on record; or one on record that none is above -/
  lock : (e.lockedRound = none ∧ e.lockedValue = none ∧ locksAt c.height entries = [])
    ∨ ∃ r bh, e.lockedRound = some r ∧ e.lockedValue = some bh
      ∧ (r, bh) ∈ locksAt c.height entries ∧ ∀ x ∈ locksAt c.height entries, x.1 ≤ r
  seen : ∀ r k bh, e.prevotes.seen.get (r, k) = some bh →
    ∃ v, .BroadcastPrevote v ∈ votesAt c.height entries ∧ v.round = r ∧ v.validator = k
      ∧ v.blockHash = bh
  prevotes : ∀ r bh, e.prevotes.signedRounds.get r = some bh →
    ∃ v, .BroadcastPrevote v ∈ votesAt c.height entries ∧ v.round = r ∧ v.blockHash = bh
  precommits : ∀ r bh, e.precommits.signedRounds.get r = some bh →
    ∃ v, .BroadcastPrecommit v ∈ votesAt c.height entries ∧ v.round = r ∧ v.blockHash = bh

/-- A call that puts back something on record. -/
def RestoresRecord (c : NodeConfig) (entries : List WalEntry) : Call → Prop
  | .restoreProposalBlock .. => True
  | .restoreSignedPrevote h r bh sig => h = c.height →
    .BroadcastPrevote ⟨h, r, bh, c.pubkey, sig⟩ ∈ votesAt c.height entries
  | .restoreSignedPrecommit h r bh sig ts => h = c.height →
    .BroadcastPrecommit ⟨h, r, bh, c.pubkey, sig, ts⟩ ∈ votesAt c.height entries
  | _ => False

namespace ConsensusEngine

variable {e : ConsensusEngine}

omit [Crypto] in
theorem restoreVote_seen {V : Type} (t : VoteTally V) (snapshot : Option ConsensusPowerSnapshot)
    (r : UInt32) (k : Pubkey) (bh : Option Hash) (msg : V) :
    (restoreVote t snapshot r k bh msg).seen = t.seen.put (r, k) bh
      ∧ (restoreVote t snapshot r k bh msg).signedRounds = t.signedRounds.put r bh := by
  unfold restoreVote
  dsimp only
  split
  · exact ⟨rfl, rfl⟩
  · split
    · exact ⟨rfl, rfl⟩
    · exact ⟨rfl, rfl⟩

/-- The lock after a recovered precommit: as before, or the precommit's, if that is not lower. -/
theorem restoreSignedPrecommit_lock (e : ConsensusEngine) (h : UInt64) (r : UInt32)
    (bh : Option Hash) (sig : PqSignature) (ts : UInt64) :
    ((e.restoreSignedPrecommit h r bh sig ts).2.lockedRound = e.lockedRound
        ∧ (e.restoreSignedPrecommit h r bh sig ts).2.lockedValue = e.lockedValue)
      ∨ ∃ hash, h = e.height ∧ bh = some hash ∧ (∀ lr, e.lockedRound = some lr → lr ≤ r)
        ∧ (e.restoreSignedPrecommit h r bh sig ts).2.lockedRound = some r
        ∧ (e.restoreSignedPrecommit h r bh sig ts).2.lockedValue = some hash := by
  grind [restoreSignedPrecommit]

/-- A recovered vote with a good signature ends up among the signed ones, unless its round was
    there already. -/
theorem restoreSignedPrevote_signed (hverify : Crypto.verify e.validatorPubkey
      (Prevote.signingBytesForChainId e.signingChainId e.height r bh) sig = true) :
    (e.restoreSignedPrevote e.height r bh sig).2.prevotes.signedRounds.get r ≠ none := by
  unfold restoreSignedPrevote
  rw [if_neg fun h => h rfl]
  split
  · grind
  · rw [hverify]
    show (restoreVote e.prevotes e.powerSnapshot r e.validatorPubkey bh _).signedRounds.get r ≠ none
    simp [restoreVote_seen, get_put_self]

theorem restoreSignedPrecommit_signed (hverify : Crypto.verify e.validatorPubkey
      (Precommit.signingBytesForChainId e.signingChainId e.height r bh ts) sig = true) :
    (e.restoreSignedPrecommit e.height r bh sig ts).2.precommits.signedRounds.get r ≠ none := by
  have hput : (restoreVote e.precommits e.powerSnapshot r e.validatorPubkey bh
      ⟨e.height, r, bh, e.validatorPubkey, sig, ts⟩).signedRounds.get r ≠ none := by
    rw [(restoreVote_seen _ _ _ _ _ _).2, get_put_self]
    exact Option.some_ne_none _
  grind [restoreSignedPrecommit]

end ConsensusEngine

namespace Restoring

/-- One call for something on record. -/
theorem next {c entries e} (h : Restoring c entries e) (hc : RestoresRecord c entries call) :
    Restoring c entries (call.next e) := by
  cases call with
  | restoreProposalBlock h' r b =>
    show Restoring c entries (e.restoreProposalBlock h' r b)
    unfold restoreProposalBlock
    split
    · exact h
    · dsimp only
      split
      · exact { h with }
      · exact { h with }
  | restoreSignedPrevote h' r bh sig =>
    show Restoring c entries (e.restoreSignedPrevote h' r bh sig).2
    rcases restoreSignedPrevote_cases e h' r bh sig with heq | ⟨hheight, -, heq⟩
    · rw [heq]; exact h
    obtain ⟨hseen, hsigned⟩ := restoreVote_seen e.prevotes e.powerSnapshot r
      e.validatorPubkey bh ⟨h', r, bh, e.validatorPubkey, sig⟩
    have hvote := hc (hheight.trans h.height)
    rw [heq]
    refine { h with seen := ?_, prevotes := ?_ }
    · intro r' k bh' hget
      rcases get_put_cases (hseen ▸ hget) with ⟨hkey, rfl⟩ | ⟨-, hget'⟩
      · cases hkey
        exact ⟨_, hvote, rfl, h.validatorPubkey.symm, rfl⟩
      · exact h.seen r' k bh' hget'
    · intro r' bh' hget
      rcases get_put_cases (hsigned ▸ hget) with ⟨rfl, rfl⟩ | ⟨-, hget'⟩
      · exact ⟨_, hvote, rfl, rfl⟩
      · exact h.prevotes r' bh' hget'
  | restoreSignedPrecommit h' r bh sig ts =>
    show Restoring c entries (e.restoreSignedPrecommit h' r bh sig ts).2
    have hlock : ((e.restoreSignedPrecommit h' r bh sig ts).2.lockedRound = none
        ∧ (e.restoreSignedPrecommit h' r bh sig ts).2.lockedValue = none
        ∧ locksAt c.height entries = [])
        ∨ ∃ r' bh', (e.restoreSignedPrecommit h' r bh sig ts).2.lockedRound = some r'
          ∧ (e.restoreSignedPrecommit h' r bh sig ts).2.lockedValue = some bh'
          ∧ (r', bh') ∈ locksAt c.height entries ∧ ∀ x ∈ locksAt c.height entries, x.1 ≤ r' := by
      rcases e.restoreSignedPrecommit_lock h' r bh sig ts with
        ⟨hround, hvalue⟩ | ⟨hash, hheight, hbh, hle, hround, hvalue⟩
      · rw [hround, hvalue]; exact h.lock
      · have hmem := lock_of_vote (hc (hheight.trans h.height)) hbh
        rcases h.lock with ⟨-, -, hnil⟩ | ⟨lr, lbh, hlr, -, -, htop⟩
        · rw [hnil] at hmem
          exact absurd hmem not_mem_nil
        · exact .inr ⟨r, hash, hround, hvalue, hmem,
            fun x hx => UInt32.le_trans (htop x hx) (hle lr hlr)⟩
    rcases restoreSignedPrecommit_cases e h' r bh sig ts with
      heq | ⟨hheight, -, -, lr, lv, heq⟩
    · rw [heq]; exact h
    obtain ⟨-, hsigned⟩ := restoreVote_seen e.precommits e.powerSnapshot r
      e.validatorPubkey bh ⟨h', r, bh, e.validatorPubkey, sig, ts⟩
    have hvote := hc (hheight.trans h.height)
    rw [heq] at hlock ⊢
    refine { h with lock := hlock, precommits := ?_ }
    intro r' bh' hget
    rcases get_put_cases (hsigned ▸ hget) with ⟨rfl, rfl⟩ | ⟨-, hget'⟩
    · exact ⟨_, hvote, rfl, rfl⟩
    · exact h.precommits r' bh' hget'
  | _ => exact absurd hc id

end Restoring

/-- Restoring never takes a signed round back. -/
theorem signed_restore {c entries e}
    (hc : RestoresRecord c entries call) (r : UInt32) :
    (e.prevotes.signedRounds.get r ≠ none → (call.next e).prevotes.signedRounds.get r ≠ none)
      ∧ (e.precommits.signedRounds.get r ≠ none →
        (call.next e).precommits.signedRounds.get r ≠ none) := by
  have hput : ∀ (m : HashMap UInt32 (Option Hash)) (r' : UInt32) (bh : Option Hash),
      m.get r ≠ none → (m.put r' bh).get r ≠ none := by
    intro m r' bh hm
    rw [get_put]
    split
    · exact Option.some_ne_none _
    · exact hm
  cases call with
  | restoreProposalBlock h' r' b =>
    obtain ⟨_, _, _, _, _, _, _, _, heq⟩ := Call.next_minor (c := .restoreProposalBlock h' r' b)
      trivial e
    rw [heq]
    exact ⟨id, id⟩
  | restoreSignedPrevote h' r' bh sig =>
    show (_ → (e.restoreSignedPrevote h' r' bh sig).2.prevotes.signedRounds.get r ≠ none) ∧ (_ →
      (e.restoreSignedPrevote h' r' bh sig).2.precommits.signedRounds.get r ≠ none)
    rcases restoreSignedPrevote_cases e h' r' bh sig with heq | ⟨-, -, heq⟩
    · rw [heq]; exact ⟨id, id⟩
    · rw [heq]
      refine ⟨fun hs => ?_, id⟩
      rw [(restoreVote_seen ..).2]
      exact hput _ _ _ hs
  | restoreSignedPrecommit h' r' bh sig ts =>
    show (_ → (e.restoreSignedPrecommit h' r' bh sig ts).2.prevotes.signedRounds.get r ≠ none) ∧ (_ →
      (e.restoreSignedPrecommit h' r' bh sig ts).2.precommits.signedRounds.get r ≠ none)
    rcases restoreSignedPrecommit_cases e h' r' bh sig ts with
      heq | ⟨-, -, -, lr, lv, heq⟩
    · rw [heq]; exact ⟨id, id⟩
    · rw [heq]
      refine ⟨id, fun hs => ?_⟩
      rw [(restoreVote_seen ..).2]
      exact hput _ _ _ hs
  | _ => exact absurd hc id

/-! ## Through a crash -/

/-- A vote, as opposed to a proposal. -/
def ConsensusAction.isVote : ConsensusAction → Bool
  | .BroadcastPrevote _ | .BroadcastPrecommit _ => true
  | _ => false

/-- The node and what the log has of the height. -/
structure Recorded (c : NodeConfig) (entries : List WalEntry) (s : Node) : Prop where
  disk : s.journal.disk = c.log ++ entries
  at_height : ∀ x ∈ entries, x.At c.height
  sent : ∀ a ∈ s.sent, a.isVote = true → a ∈ votesAt c.height entries
  upright : Upright c entries s.sent s.heard s.engine s.pending

namespace NodeConfig

/-- The log has the block of every lock on record. -/
def LocksHaveBlocks (c : NodeConfig) (disk : List WalEntry) : Prop :=
  ∀ x ∈ locksAt c.height disk, disk.any (WalEntry.holdsBlock c.height x.2) = true

/-- **When a run is safe**: in every state the log has the block of every lock it records, and the
    engine has not stepped past the largest round. -/
structure Safe (c : NodeConfig) (s : Node) : Prop where
  blocks : c.LocksHaveBlocks s.journal.disk
  rounds : (MAX_ROUND, 0) ∉ s.engine.advances

variable {c : NodeConfig} {entries : List WalEntry}

section
omit [Crypto]

/-- The log the validator came with has no lock of the height. -/
theorem locksAt_log (c : NodeConfig) (entries : List WalEntry) :
    locksAt c.height (c.log ++ entries) = locksAt c.height entries := by
  have hnone : locksAt c.height c.log = [] := by
    rw [eq_nil_iff_forall_not_mem]
    intro y hy
    obtain ⟨x, hx, hlock⟩ := mem_filterMap.mp hy
    have hbefore := c.earlier x hx
    cases x with
    | Locked h r bh =>
      have hne : h ≠ c.height := by rintro rfl; exact UInt64.lt_irrefl _ hbefore
      simp_all [WalEntry.lockAt]
    | SignedVote record =>
      have hne : ¬ (record.height = c.height ∧ record.voteType = .Precommit) := by
        rintro ⟨heq, -⟩
        have hlt : record.height < c.height := hbefore
        rw [heq] at hlt
        exact UInt64.lt_irrefl _ hlt
      simp_all [WalEntry.lockAt]
    | _ => exact nomatch hlock
  rw [locksAt_append, hnone, nil_append]

/-- What startup recovers, if the locks on record climb. -/
theorem recovered (hat : ∀ x ∈ entries, x.At c.height)
    (hclimbs : Climbs (locksAt c.height entries)) :
    (recover ⟨c.log ++ entries⟩).Knows c.height entries :=
  recover_spec c.earlier hat hclimbs.rounds

end

section
variable {rec : WalRecovery} (hk : rec.Knows c.height entries)
include hk

theorem restoring_lock : Restoring c entries (c.restoredLock rec).1 := by
  have hfresh : locksAt c.height entries = [] → Restoring c entries c.fresh := fun hnil =>
    ⟨rfl, rfl, rfl, rfl, rfl, rfl, rfl, rfl, .inl ⟨rfl, rfl, hnil⟩, nofun, nofun, nofun⟩
  unfold restoredLock
  split
  · rename_i lh lr lbh hlock
    show Restoring c entries (c.fresh.restoreLock lh lr lbh)
    unfold restoreLock
    split
    · rename_i hheight
      have hheight' : lh = c.height := hheight
      subst hheight'
      have hmem := hk.lock lr lbh hlock
      refine ⟨rfl, rfl, rfl, rfl, rfl, rfl, rfl, rfl, .inr ⟨lr, lbh, rfl, rfl, hmem, ?_⟩, nofun,
        nofun, nofun⟩
      grind [WalRecovery.Knows.top]
    · rename_i hheight
      apply hfresh
      rw [eq_nil_iff_forall_not_mem]
      intro x hx
      obtain ⟨r, bh, heq, -⟩ := hk.top x hx
      exact hheight (congrArg Prod.fst (Option.some.inj (hlock.symm.trans heq)))
  · apply hfresh
    rw [eq_nil_iff_forall_not_mem]
    grind [WalRecovery.Knows.top]

/-- Startup only puts back what is on record. -/
theorem restoresRecord (hcall : call ∈ rec.restoreCalls c.pubkey) :
    RestoresRecord c entries call := by
  rcases mem_append.mp hcall with hcall | hcall
  · obtain ⟨b, -, rfl⟩ := mem_map.mp hcall
    trivial
  · obtain ⟨record, hrecord, hrestore⟩ := mem_filterMap.mp hcall
    unfold restore at hrestore
    split at hrestore
    · exact nomatch hrestore
    split at hrestore
    · rename_i htype
      cases hrestore
      intro hheight
      grind [mem_votesAt, WalRecovery.Knows.votes, vote]
    · obtain ⟨ts, hts, rfl⟩ := Option.map_eq_some_iff.mp hrestore
      intro _
      grind [mem_votesAt, WalRecovery.Knows.votes, vote]

theorem restoring : Restoring c entries (c.restored rec) := by
  refine List.foldlRecOn _ _ (restoring_lock hk) ?_
  intro e he call hcall
  exact he.next (restoresRecord hk hcall)

/-- A vote on record is put back. -/
theorem restored_signed (hcall : call ∈ rec.restoreCalls c.pubkey)
    {P : ConsensusEngine → Prop} (hthis : ∀ e, Restoring c entries e → P (call.next e))
    (hkeep : ∀ e call, RestoresRecord c entries call → P e → P (call.next e)) :
    P (c.restored rec) := by
  obtain ⟨before, after, hsplit⟩ := append_of_mem hcall
  unfold restored
  rw [hsplit, foldl_append, foldl_cons]
  have hbefore : Restoring c entries (before.foldl Call.next (c.restoredLock rec).1) := by
    refine List.foldlRecOn _ _ (restoring_lock hk) ?_
    intro e he call' hcall'
    exact he.next (restoresRecord hk (hsplit ▸ mem_append_left _ hcall'))
  refine List.foldlRecOn _ _ (hthis _ hbefore) ?_
  grind [restoresRecord]

/-- Every prevote on record is noted as signed again, if its signature is good. -/
theorem restored_prevote (hv : .BroadcastPrevote v ∈ votesAt c.height entries)
    (hown : v.validator = c.pubkey) (hsig : v.verifySignatureWithChainId c.chainId = true) :
    (c.restored rec).prevotes.signedRounds.get v.round ≠ none := by
  obtain ⟨record, hmem, hheight, hvote⟩ := mem_votesAt.mp hv
  obtain ⟨htype, rfl⟩ := of_vote_prevote hvote
  have hcall : .restoreSignedPrevote record.height record.round record.blockHash record.signature
      ∈ rec.restoreCalls c.pubkey := by
    refine mem_append_right _ (mem_filterMap.mpr ⟨record, (hk.votes record hheight).mpr hmem, ?_⟩)
    unfold restore
    rw [if_neg fun h => h hown, htype]
  refine restored_signed hk hcall (P := fun e => e.prevotes.signedRounds.get record.round ≠ none) ?_
    fun e call hc => (signed_restore hc record.round).1
  intro e he
  have hheight' : record.height = e.height := hheight.trans he.height.symm
  show (e.restoreSignedPrevote record.height record.round record.blockHash
    record.signature).2.prevotes.signedRounds.get record.round ≠ none
  rw [hheight']
  apply restoreSignedPrevote_signed
  rw [he.validatorPubkey, he.signingChainId, ← hheight', ← hown]
  exact hsig

theorem restored_precommit (hv : .BroadcastPrecommit v ∈ votesAt c.height entries)
    (hown : v.validator = c.pubkey) (hsig : v.verifySignatureWithChainId c.chainId = true) :
    (c.restored rec).precommits.signedRounds.get v.round ≠ none := by
  obtain ⟨record, hmem, hheight, hvote⟩ := mem_votesAt.mp hv
  obtain ⟨htype, hts, hv'⟩ := of_vote_precommit hvote
  generalize v.timestamp = ts at hts hv'
  subst hv'
  have hcall : .restoreSignedPrecommit record.height record.round record.blockHash record.signature
      ts ∈ rec.restoreCalls c.pubkey := by
    refine mem_append_right _ (mem_filterMap.mpr ⟨record, (hk.votes record hheight).mpr hmem, ?_⟩)
    unfold restore
    rw [if_neg fun h => h hown, htype, hts]
    rfl
  refine restored_signed hk hcall
    (P := fun e => e.precommits.signedRounds.get record.round ≠ none) ?_
    fun e call hc => (signed_restore hc record.round).2
  intro e he
  have hheight' : record.height = e.height := hheight.trans he.height.symm
  show (e.restoreSignedPrecommit record.height record.round record.blockHash
    record.signature ts).2.precommits.signedRounds.get record.round ≠ none
  rw [hheight']
  apply restoreSignedPrecommit_signed
  rw [he.validatorPubkey, he.signingChainId, ← hheight', ← hown]
  exact hsig

section
variable (hblocks : c.LocksHaveBlocks (c.log ++ entries))
include hblocks

/-- No lock of the height is released, if the log has their blocks. -/
theorem released_eq : (c.released rec).1 = c.restored rec := by
  unfold released
  split
  · rfl
  rename_i hmissing
  unfold WalRecovery.missingLockValue at hmissing
  split at hmissing
  · exact nomatch hmissing
  rename_i lh lr lbh hlock
  split at hmissing
  · exact nomatch hmissing
  rename_i hnone
  obtain ⟨rfl, rfl⟩ := Prod.mk.inj (Option.some.inj hmissing)
  -- a lock of the height has its block among the recovered ones; another one is not released
  have hother : lh ≠ (c.restored rec).height := by
    rw [(restoring hk).height]
    rintro rfl
    have hlocked := hk.lock _ _ hlock
    rw [← locksAt_log] at hlocked
    obtain ⟨entry, hentry, hholds⟩ := any_eq_true.mp (hblocks _ hlocked)
    cases entry with
    | ProposalBlock h r b =>
      obtain ⟨rfl, hhash⟩ := of_decide_eq_true hholds
      apply hnone
      rcases mem_append.mp hentry with hentry | hentry
      · exact absurd (c.earlier _ hentry) (UInt64.lt_irrefl _)
      · exact any_eq_true.mpr ⟨_, (hk.blocks r b).mpr hentry, decide_eq_true ⟨rfl, hhash⟩⟩
    | _ => exact nomatch hholds
  unfold releaseUnrecoverableLockWithoutValue
  rw [if_pos (.inl hother)]

/-- The engine goes on in a round above every lock on record. -/
theorem resumed_eq :
    ∃ round step, c.resumed rec = { c.restored rec with round := round, step := step }
      ∧ ∀ x ∈ locksAt c.height entries, (c.resumed rec).Past x.1 := by
  have hmax : ∀ x ∈ locksAt c.height entries,
      ∃ m, rec.maxRecoveredRoundForHeight c.height c.pubkey = some m ∧ x.1 ≤ m := by
    intro x hx
    obtain ⟨r, bh, hlock, hle⟩ := hk.top x hx
    obtain ⟨m, hm, hrm⟩ := WalRecovery.le_maxRecoveredRoundForHeight hlock c.pubkey
    exact ⟨m, hm, UInt32.le_trans hle hrm⟩
  unfold resumed
  rw [released_eq hk hblocks]
  split
  · grind
  · rename_i m hm
    have hle : ∀ x ∈ locksAt c.height entries, x.1 ≤ m := by
      intro x hx
      obtain ⟨m', hm', hle⟩ := hmax x hx
      obtain rfl := Option.some.inj (hm.symm.trans hm')
      exact hle
    have hround := (restoring hk).round
    by_cases htop : m = MAX_ROUND
    · subst htop
      rw [if_pos rfl, resumeAtRoundIfHigher, hround, if_neg (by decide)]
      exact ⟨MAX_ROUND, .Propose, rfl, fun x hx => ⟨hle x hx, fun heq => .inr (.inr heq)⟩⟩
    · have hlt : m < m + 1 := by
        have hne : m.toNat ≠ 2 ^ 32 - 1 := fun heq => htop (UInt32.toNat_inj.mp (heq.trans rfl))
        have hbound := m.toNat_lt
        rw [UInt32.lt_iff_toNat_lt, UInt32.toNat_add]
        simp only [UInt32.reduceToNat]
        omega
      have hpos : ¬ m + 1 ≤ (0 : UInt32) := by
        rw [UInt32.le_iff_toNat_le]
        rw [UInt32.lt_iff_toNat_lt] at hlt
        have hzero : (0 : UInt32).toNat = 0 := rfl
        omega
      rw [if_neg htop, resumeAtRoundIfHigher, hround, if_neg hpos]
      refine ⟨m + 1, .Propose, rfl, fun x hx => ⟨?_, fun heq => ?_⟩⟩
      · exact UInt32.le_of_lt (UInt32.lt_of_le_of_lt (hle x hx) hlt)
      · grind

/-- The engine of the new process is made by the engine's public calls. -/
theorem reached_resumed : Call.Reached (fun e call => call.OwnVotesSigned e) (c.resumed rec) := by
  have hfresh : Call.Reached (fun e call => call.OwnVotesSigned e) c.fresh :=
    .call (.startHeight c.height) (.new ..) trivial
  have hlock : Call.Reached (fun e call => call.OwnVotesSigned e) (c.restoredLock rec).1 := by
    unfold restoredLock
    split
    · exact .call (.restoreLock ..) hfresh trivial
    · exact hfresh
  have hrestored : Call.Reached (fun e call => call.OwnVotesSigned e) (c.restored rec) := by
    refine List.foldlRecOn _ _ hlock ?_
    intro e he call hcall
    refine .call call he ?_
    have hrecord := restoresRecord hk hcall
    cases call with
    | op env o => exact absurd hrecord id
    | _ => trivial
  unfold resumed
  rw [released_eq hk hblocks]
  split
  · exact hrestored
  · exact .call (.resumeAtRoundIfHigher _) hrestored trivial

end
end
end NodeConfig

/-- **What outlives a crash**: the records of the votes sent, and what they stand for. -/
structure Durable (c : NodeConfig) (entries : List WalEntry) (sent : List ConsensusAction)
    (heard : List Prevote) : Prop where
  at_height : ∀ x ∈ entries, x.At c.height
  recorded : ∀ a ∈ sent, a.isVote = true → a ∈ votesAt c.height entries
  validPrevotes : ∀ v, .BroadcastPrevote v ∈ votesAt c.height entries →
    v.validator = c.pubkey ∧ v.verifySignatureWithChainId c.chainId = true ∧ v ∈ heard
  validPrecommits : ∀ v, .BroadcastPrecommit v ∈ votesAt c.height entries →
    v.validator = c.pubkey ∧ v.verifySignatureWithChainId c.chainId = true
  onePrevote : ∀ v w, .BroadcastPrevote v ∈ votesAt c.height entries →
    .BroadcastPrevote w ∈ votesAt c.height entries → v.round = w.round → v.blockHash = w.blockHash
  onePrecommit : ∀ v w, .BroadcastPrecommit v ∈ votesAt c.height entries →
    .BroadcastPrecommit w ∈ votesAt c.height entries → v.round = w.round →
    v.blockHash = w.blockHash
  climbs : Climbs (locksAt c.height entries)
  polkas : ∀ x ∈ locksAt c.height entries, c.Polka heard x.1 x.2
  justified : sent.Pairwise (c.Justified heard)

omit [Crypto] in
theorem height_of_mem_votesAt (height : UInt64) (entries : List WalEntry) :
    (∀ v, .BroadcastPrevote v ∈ votesAt height entries → v.height = height)
      ∧ ∀ v, .BroadcastPrecommit v ∈ votesAt height entries → v.height = height := by
  constructor
  · intro v hv
    obtain ⟨record, -, hheight, hvote⟩ := mem_votesAt.mp hv
    rw [(of_vote_prevote hvote).2]
    exact hheight
  · intro v hv
    obtain ⟨record, -, hheight, hvote⟩ := mem_votesAt.mp hv
    rw [(of_vote_precommit hvote).2.2]
    exact hheight

theorem Recorded.durable {c entries s}
    (h : Recorded c entries s) : Durable c entries s.sent s.heard := by
  have hlog : ∀ a ∈ votesAt c.height entries,
      a ∈ votesAt c.height entries ++ (s.sent ++ s.pending) :=
    fun a ha => mem_append_left _ ha
  have hlocks : ∀ x ∈ locksAt c.height entries, x ∈ allLocks c.height entries s.pending s.engine :=
    fun x hx => mem_append_left _ hx
  have hu := h.upright
  obtain ⟨hpvHeight, hpcHeight⟩ := height_of_mem_votesAt c.height entries
  constructor
  · exact h.at_height
  · exact h.sent
  · intro v hv
    obtain ⟨hown, hsig⟩ := hu.votes.validPrevotes v (hlog _ hv)
    exact ⟨hown, hsig, hu.voiced v (hlog _ hv)⟩
  · exact fun v hv => hu.votes.validPrecommits v (hlog _ hv)
  · intro v w hv hw hround
    exact hu.votes.prevotes.single v.ballot w.ballot ⟨v, hlog _ hv, rfl⟩ ⟨w, hlog _ hw, rfl⟩
      ((hpvHeight v hv).trans (hpvHeight w hw).symm) hround
  · intro v w hv hw hround
    exact hu.votes.precommits.single v.ballot w.ballot ⟨v, hlog _ hv, rfl⟩ ⟨w, hlog _ hw, rfl⟩
      ((hpcHeight v hv).trans (hpcHeight w hw).symm) hround
  · exact hu.climbs.sublist (sublist_append_left _ _)
  · exact fun x hx => (hu.behind x (hlocks x hx)).2
  · exact hu.justified.sublist (sublist_append_left _ _)

namespace Durable

/-- The restored engine has signed exactly what is on record. -/
theorem votesOnce {entries heard c sent} (h : Durable c entries sent heard) {rec}
    (hk : rec.Knows c.height entries) :
    (c.restored rec).VotesOnce c.keypair c.chainId (votesAt c.height entries) := by
  have hr := restoring hk
  obtain ⟨hpvHeight, hpcHeight⟩ := height_of_mem_votesAt c.height entries
  constructor
  · exact hr.keypair
  · exact hr.validatorPubkey
  · exact hr.signingChainId
  · refine ⟨?_, ?_, ?_⟩
    · rintro x ⟨v, hv, rfl⟩
      rw [hr.height]
      exact UInt64.le_of_eq (hpvHeight v hv)
    · rintro x ⟨v, hv, rfl⟩ -
      obtain ⟨hown, hsig, -⟩ := h.validPrevotes v hv
      obtain ⟨bh, hbh⟩ := Option.ne_none_iff_exists'.mp (restored_prevote hk hv hown hsig)
      obtain ⟨w, hw, hround, rfl⟩ := hr.prevotes _ _ hbh
      rw [show v.ballot.round = v.round from rfl, hbh, h.onePrevote w v hw hv hround]
      rfl
    · rintro x y ⟨v, hv, rfl⟩ ⟨w, hw, rfl⟩ - hround
      exact h.onePrevote v w hv hw hround
  · refine ⟨?_, ?_, ?_⟩
    · rintro x ⟨v, hv, rfl⟩
      rw [hr.height]
      exact UInt64.le_of_eq (hpcHeight v hv)
    · rintro x ⟨v, hv, rfl⟩ -
      obtain ⟨hown, hsig⟩ := h.validPrecommits v hv
      obtain ⟨bh, hbh⟩ := Option.ne_none_iff_exists'.mp (restored_precommit hk hv hown hsig)
      obtain ⟨w, hw, hround, rfl⟩ := hr.precommits _ _ hbh
      rw [show v.ballot.round = v.round from rfl, hbh, h.onePrecommit w v hw hv hround]
      rfl
    · rintro x y ⟨v, hv, rfl⟩ ⟨w, hw, rfl⟩ - hround
      exact h.onePrecommit v w hv hw hround
  · exact fun v hv => ⟨(h.validPrevotes v hv).1, (h.validPrevotes v hv).2.1⟩
  · exact h.validPrecommits

/-- **A new process is upright.** -/
theorem boot {entries heard c sent} (h : Durable c entries sent heard) (hblocks : c.LocksHaveBlocks
    (c.log ++ entries)) :
    Recorded c (entries ++ [.HeightStarted c.height]) (c.boot (c.log ++ entries) sent heard) := by
  have hk := recovered h.at_height h.climbs
  have hr := restoring hk
  have hreached := reached_resumed hk hblocks
  obtain ⟨round, step, hresumed, hpast⟩ := resumed_eq hk hblocks
  have hvotesAt : votesAt c.height (entries ++ [.HeightStarted c.height]) = votesAt c.height entries
      := by rw [votesAt_append]; exact append_nil _
  have hlocksAt : locksAt c.height (entries ++ [.HeightStarted c.height]) = locksAt c.height entries
      := by rw [locksAt_append]; exact append_nil _
  have hsent : ∀ a ∈ sent, a.isVote = true →
      a ∈ votesAt c.height (entries ++ [.HeightStarted c.height]) := hvotesAt ▸ h.recorded
  -- the engine's lock is on record and above the others
  have hlock : (c.restored (recover ⟨c.log ++ entries⟩)).lockedState = none
        ∧ locksAt c.height entries = []
      ∨ ∃ y ∈ locksAt c.height entries,
        (c.restored (recover ⟨c.log ++ entries⟩)).lockedState = some y
          ∧ ∀ x ∈ locksAt c.height entries, x.1 ≤ y.1 := by
    rcases hr.lock with ⟨hround, -, hnil⟩ | ⟨r, bh, hround, hvalue, hmem, htop⟩
    · grind [lockedState]
    · exact .inr ⟨(r, bh), hmem, lockedState_eq_some.mpr ⟨hround, hvalue⟩, htop⟩
  have hlocked : (c.boot (c.log ++ entries) sent heard).engine.lockedState
      = (c.restored (recover ⟨c.log ++ entries⟩)).lockedState := by
    show (c.resumed (recover ⟨c.log ++ entries⟩)).lockedState = _
    rw [hresumed]
    rfl
  have hall : allLocks c.height (entries ++ [.HeightStarted c.height]) []
      (c.boot (c.log ++ entries) sent heard).engine = locksAt c.height entries
        ++ (c.restored (recover ⟨c.log ++ entries⟩)).lockedState.toList := by
    rw [allLocks, hlocksAt, hlocked]
    rfl
  have hmem : ∀ x ∈ allLocks c.height (entries ++ [.HeightStarted c.height]) []
      (c.boot (c.log ++ entries) sent heard).engine, x ∈ locksAt c.height entries := by
    intro x hx
    rw [hall] at hx
    rcases hlock with ⟨hnone, -⟩ | ⟨y, hy, hsome, -⟩
    · rw [hnone] at hx
      simpa using hx
    · grind
  refine ⟨?_, ?_, hsent, ?_⟩
  · show (c.log ++ entries) ++ [WalEntry.HeightStarted c.height] = _
    rw [append_assoc]
  · grind [at_height, WalEntry.At]
  have hlog : ∀ a ∈ votesAt c.height (entries ++ [.HeightStarted c.height]) ++ (sent ++ []),
      a.isVote = true → a ∈ votesAt c.height entries := by
    intro a ha hvote
    rw [hvotesAt, append_nil] at ha
    rcases mem_append.mp ha with ha | ha
    · exact ha
    · exact h.recorded a ha hvote
  have hbooted : (c.boot (c.log ++ entries) sent heard).engine
      = (c.resumed (recover ⟨c.log ++ entries⟩)).rebuildPowerSnapshot c.validatorSet
        c.stakePool := rfl
  have hv := h.votesOnce hk
  constructor
  · rw [hbooted, hresumed]
    exact hr.height
  · rw [hbooted, hresumed]
    show some (ConsensusPowerSnapshot.build _ _ _) = _
    rw [snapshot, ← hr.minValidatorStake]
  · exact (hreached.call (.rebuildPowerSnapshot c.validatorSet c.stakePool) trivial).blocksWf
  · exact (hreached.call (.rebuildPowerSnapshot c.validatorSet c.stakePool) trivial).tallyInv
  · rw [hbooted, hresumed]
    exact hr.noPrevotes
  · rw [hbooted, hresumed]
    exact hr.noPrecommits
  · rw [hbooted, hresumed]
    refine ⟨hr.keypair, hr.validatorPubkey, hr.signingChainId, ?_, ?_, ?_, ?_⟩
    · refine hv.prevotes.same ?_
      rintro x ⟨v, hv', rfl⟩
      exact ⟨v, hlog _ hv' rfl, rfl⟩
    · refine hv.precommits.same ?_
      rintro x ⟨v, hv', rfl⟩
      exact ⟨v, hlog _ hv' rfl, rfl⟩
    · exact fun v hv' => hv.validPrevotes v (hlog _ hv' rfl)
    · exact fun v hv' => hv.validPrecommits v (hlog _ hv' rfl)
  · intro v hv'
    rw [show (c.boot (c.log ++ entries) sent heard).pending = [] from rfl, append_nil] at hv'
    exact (height_of_mem_votesAt c.height entries).1 v (h.recorded _ hv' rfl)
  · intro v hv'
    rw [show (c.boot (c.log ++ entries) sent heard).pending = [] from rfl, append_nil] at hv'
    exact (height_of_mem_votesAt c.height entries).2 v (h.recorded _ hv' rfl)
  · exact fun v hv' => (h.validPrevotes v (hlog _ hv' rfl)).2.2
  · intro r k bh hseen
    rw [hbooted, hresumed] at hseen
    obtain ⟨v, hv', hround, hk', hhash⟩ := hr.seen r k (some bh) hseen
    obtain ⟨-, hsig, hheard⟩ := h.validPrevotes v hv'
    refine ⟨v, hheard, hk', ?_⟩
    have hheight := (height_of_mem_votesAt c.height entries).1 v hv'
    grind [countsFor]
  · show Climbs (allLocks c.height (entries ++ [.HeightStarted c.height]) [] _)
    rw [hall]
    rcases hlock with ⟨hnone, hnil⟩ | ⟨y, hy, hsome, htop⟩
    · rw [hnone, hnil]
      exact List.Pairwise.nil
    · rw [hsome]
      exact h.climbs.snoc fun x hx => ⟨htop x hx, fun heq => h.climbs.same hx hy heq⟩
  · intro x hx
    have hx' := hmem x hx
    refine ⟨?_, h.polkas x hx'⟩
    rw [hbooted]
    exact hpast x hx'
  · intro hne
    obtain ⟨x, hx⟩ := exists_mem_of_ne_nil _ hne
    have hx' := hmem x hx
    grind
  · rw [show (c.boot (c.log ++ entries) sent heard).pending = [] from rfl, append_nil]
    exact h.justified

theorem nil (c : NodeConfig) : Durable c [] [] [] where
  at_height := nofun
  recorded := nofun
  validPrevotes := nofun
  validPrecommits := nofun
  onePrevote := nofun
  onePrecommit := nofun
  climbs := List.Pairwise.nil
  polkas := nofun
  justified := List.Pairwise.nil

end Durable
end
end Lichen
